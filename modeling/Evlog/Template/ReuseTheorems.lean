/-
Evlog.Template.ReuseTheorems — a clone that is used again shows what a new
one shows.

`depopulateTemplate` leaves old values, counts and delimiters in a clone,
and the clones of its structs, but no attribute exists in it any more
(`Vals.Stale`). From there a record makes of any two clones the same, as
far as it is seen (`populateAtts_alike`). What is left is that a clone is
always stale when it is populated again, and that is so unless
`zapExtraDataAtt` has taken an attribute of the template away
(`session_reuse_iff`).
-/
import Evlog.Lib.Transition
import Evlog.Template.Seen
import Evlog.Template.Session

namespace Evlog.Template

open Evlog.Lib Evlog.Posix

/-! ## Two attributes -/

/-- Either attribute exists, or none, and then the same is seen of both. -/
structure Alike (a : Option (Dimension × Option Delimiter)) (s s' : AttState) : Prop where
  attExists : s.attExists = s'.attExists
  value : s.attExists = true → s.value = s'.value
  dimension2 : s.attExists = true → ∀ dim delim name, a = some (dim, delim) → dim.type = .attr name →
    s.dimension2 = s'.dimension2
  delimiter : s.attExists = true → ∀ dim name, a = some (dim, some (.attr name)) →
    s.delimiter = s'.delimiter

/-- The attribute does not exist. Of a bit-field that is an address, nothing was ever stored. -/
structure Field.Idle (f : Field) (s : AttState) : Prop where
  attExists : s.attExists = false
  address : ∀ width, f = .bitField .address width → s.value = .none

section Alike

variable {heapAddr : Nat → Nat} {r : Record} {n : Notes} {s s' : AttState}
  {a : Option (Dimension × Option Delimiter)}

theorem alike_of_not_exists (hs : s.attExists = false) (hs' : s'.attExists = false) : Alike a s s' := by
  have hno : ∀ {P : Prop}, s.attExists = true → P := fun h => absurd (hs.symm.trans h) Bool.noConfusion
  exact ⟨hs.trans hs'.symm, hno, hno, hno⟩

theorem Alike.seen (h : Alike a s s') (hs : s.attExists = true) (owner : List Nat) (n : Notes) :
    Existing.seen n ⟨owner, a, s⟩ = Existing.seen n ⟨owner, a, s'⟩ := by
  have hvalue := h.value hs
  have hdim := h.dimension2 hs
  have hdelim := h.delimiter hs
  unfold Existing.seen
  rw [Seen.mk.injEq]
  refine ⟨rfl, hvalue, ?_, ?_⟩
  · rcases a with - | ⟨⟨id, type⟩, delim⟩
    · rfl
    · cases type with
      | attr name => exact congrArg some (hdim _ _ name rfl rfl)
      | _ => rfl
  · rcases a with - | ⟨dim, - | (- | name | -)⟩
    · rfl
    · rfl
    · rfl
    · exact congrArg some (hdelim dim name rfl)
    · rfl

theorem found_congr (h : Alike a s s') (l : Loop) (name : Option String) (ty : BaseType) :
    l.found name ty s = l.found name ty s' := by
  unfold Loop.found
  cases name with
  | none => rfl
  | some name =>
    dsimp only
    rw [← h.attExists]
    split
    · rename_i hs
      rw [h.value hs]
    · rfl

theorem populateValue_alike (s s' : AttState) (owner : List Nat) (ty : BaseType) (hs : s.attExists = false)
    (hs' : s'.attExists = false) :
    (populateValue r owner ty s n).2 = (populateValue r owner ty s' n).2 ∧
      Alike none (populateValue r owner ty s n).1 (populateValue r owner ty s' n).1 := by
  have hsame : ∀ v : Value, Alike none { s with attExists := true, value := v }
      { s' with attExists := true, value := v } := fun v =>
    ⟨rfl, fun _ => rfl, fun _ _ _ _ h => (nomatch h), fun _ _ _ h => (nomatch h)⟩
  have hnone := alike_of_not_exists (a := none) hs hs'
  cases ty with
  | string =>
    unfold populateValue
    dsimp only
    generalize collectString r n = out
    obtain ⟨n₁, - | len⟩ := out
    · exact ⟨rfl, hnone⟩
    · exact ⟨rfl, hsame _⟩
  | wstring =>
    unfold populateValue
    dsimp only
    generalize collectWstring r n = out
    obtain ⟨n₁, - | len⟩ := out
    · exact ⟨rfl, hnone⟩
    · exact ⟨rfl, hsame _⟩
  | _ =>
    unfold populateValue
    dsimp only
    split
    · exact ⟨rfl, hnone⟩
    · exact ⟨rfl, hsame _⟩

theorem populateBitField_alike (s s' : AttState) (base : Nat) (ty : BaseType) (width : Nat) (name : Option String)
    (l : Loop) (hs : (Field.bitField ty width).Idle s) (hs' : (Field.bitField ty width).Idle s') :
    (populateBitField r base ty width name s l).2 = (populateBitField r base ty width name s' l).2 ∧
      Alike none (populateBitField r base ty width name s l).1
        (populateBitField r base ty width name s' l).1 := by
  have hnone := alike_of_not_exists (a := none) hs.attExists hs'.attExists
  have hbits : ∀ l : Loop,
      (takeBits r base ty width name s l).2 = (takeBits r base ty width name s' l).2 ∧
        Alike none (takeBits r base ty width name s l).1 (takeBits r base ty width name s' l).1 := by
    intro l
    unfold takeBits
    cases name with
    | none =>
      dsimp only [Option.isSome_none, Bool.false_eq_true, if_false]
      split <;> exact ⟨rfl, hnone⟩
    | some name =>
      have hvalue : (if ty = .address then s.value else .scalar (.int (bitsValue r ty l.bfStart l.bfOffset width))) =
          if ty = .address then s'.value
          else .scalar (.int (bitsValue r ty l.bfStart l.bfOffset width)) := by
        split
        · rename_i hty
          rw [hs.address width (by rw [hty]), hs'.address width (by rw [hty])]
        · rfl
      have hsame : Alike none
          (extractDataFromBitField r base ty l.bfStart l.bfOffset width s l.notes).1
          (extractDataFromBitField r base ty l.bfStart l.bfOffset width s' l.notes).1 :=
        ⟨rfl, fun _ => hvalue, fun _ _ _ _ h => (nomatch h), fun _ _ _ h => (nomatch h)⟩
      dsimp only [Option.isSome_some, if_true]
      split <;> exact ⟨rfl, hsame⟩
  rw [populateBitField_eq, populateBitField_eq]
  split
  · split <;> exact ⟨rfl, hnone⟩
  · dsimp only
    split
    · exact ⟨rfl, hnone⟩
    · exact hbits _

/-- Two attributes whose arrays get a value. -/
structure Filling (dim : Dimension) (delim : Option Delimiter) (s s' : AttState) : Prop where
  left : s.attExists = false
  right : s'.attExists = false
  dimension2 : ∀ name, dim.type = .attr name → s.dimension2 = s'.dimension2
  delimiter : ∀ name, delim = some (.attr name) → s.delimiter = s'.delimiter

variable {dim : Dimension} {delim : Option Delimiter}

theorem Filling.none (h : Filling dim delim s s') :
    Alike (some (dim, delim)) s s' := alike_of_not_exists h.left h.right

theorem Filling.value (h : Filling dim delim s s') (v : Value) :
    Alike (some (dim, delim)) { s with attExists := true, value := v }
      { s' with attExists := true, value := v } := by
  refine ⟨rfl, fun _ => rfl, fun _ dim' delim' name ha htype => ?_, fun _ dim' name ha => ?_⟩
  · cases ha
    exact h.dimension2 name htype
  · cases ha
    exact h.delimiter name rfl

/-- When the number of elements is known, it is set in both of them. -/
theorem setDimension2_filling (count : Int) (hs : s.attExists = false) (hs' : s'.attExists = false)
    (hdelim : ∀ name, delim = some (.attr name) → s.delimiter = s'.delimiter) :
    (setDimension2 dim count s n).2 = (setDimension2 dim count s' n).2 ∧
      Filling dim delim (setDimension2 dim count s n).1 (setDimension2 dim count s' n).1 := by
  obtain ⟨id, type⟩ := dim
  cases type with
  | attr name => exact ⟨rfl, hs, hs', fun _ _ => rfl, hdelim⟩
  | _ => exact ⟨rfl, hs, hs', fun _ h => (nomatch h), hdelim⟩

theorem populateElems_alike (owner : List Nat) (ty : BaseType) (dim : Dimension)
    (delim : Option Delimiter) (nel : Int) (hs : s.attExists = false) (hs' : s'.attExists = false)
    (hdelim : ∀ name, delim = some (.attr name) → s.delimiter = s'.delimiter) :
    (populateElems r owner ty dim nel s n).2 = (populateElems r owner ty dim nel s' n).2 ∧
      Alike (some (dim, delim)) (populateElems r owner ty dim nel s n).1
        (populateElems r owner ty dim nel s' n).1 := by
  have hstrings : (populateStrings r dim nel s n).2 = (populateStrings r dim nel s' n).2 ∧
      Alike (some (dim, delim)) (populateStrings r dim nel s n).1 (populateStrings r dim nel s' n).1 := by
    unfold populateStrings
    dsimp only
    generalize collectAll (collectString r) nel.toNat n = out
    obtain ⟨n₁, ns⟩ := out
    obtain ⟨hnotes, hfilling⟩ := setDimension2_filling (n := n₁) ns hs hs' hdelim
    dsimp only
    rw [hnotes]
    split
    · exact ⟨rfl, hfilling.value _⟩
    · exact ⟨rfl, hfilling.none⟩
  have hwstrings : (populateWstrings r owner dim nel s n).2 = (populateWstrings r owner dim nel s' n).2 ∧
      Alike (some (dim, delim)) (populateWstrings r owner dim nel s n).1
        (populateWstrings r owner dim nel s' n).1 := by
    unfold populateWstrings
    dsimp only
    generalize collectAll (collectWstring r) nel.toNat n = out
    obtain ⟨n₁, ns⟩ := out
    obtain ⟨hnotes, hfilling⟩ := setDimension2_filling (n := n₁) ns hs hs' hdelim
    dsimp only
    rw [hnotes]
    split
    · exact ⟨rfl, hfilling.value _⟩
    · exact ⟨rfl, hfilling.none⟩
  have hscalars : ∀ ty, (populateScalars r owner ty dim nel s n).2 =
      (populateScalars r owner ty dim nel s' n).2 ∧
      Alike (some (dim, delim)) (populateScalars r owner ty dim nel s n).1
        (populateScalars r owner ty dim nel s' n).1 := by
    intro ty
    unfold populateScalars
    dsimp only
    generalize (if bytesRemaining r n.next <
      (toInt ((archTypeInfo r.arch ty).size * nel) % 2 ^ 64).toNat then n.out else n) = n₁
    generalize (if bytesRemaining r n.next <
      (toInt ((archTypeInfo r.arch ty).size * nel) % 2 ^ 64).toNat then _ else nel) = count
    obtain ⟨hnotes, hfilling⟩ := setDimension2_filling (n := n₁) count hs hs' hdelim
    rw [hnotes]
    split
    · exact ⟨rfl, hfilling.value _⟩
    · exact ⟨rfl, hfilling.none⟩
  cases ty with
  | string => exact hstrings
  | wstring => exact hwstrings
  | _ => exact hscalars _

theorem populateArray_alike (heapAddr : Nat → Nat) (s s' : AttState) (owner : List Nat)
    (ty : BaseType) (dim : Dimension) (delim : Option Delimiter) (env : Env) (hs : s.attExists = false) (hs' : s'.attExists = false) :
    (populateArray heapAddr r owner ty dim delim env s n).2 =
        (populateArray heapAddr r owner ty dim delim env s' n).2 ∧
      Alike (some (dim, delim)) (populateArray heapAddr r owner ty dim delim env s n).1
        (populateArray heapAddr r owner ty dim delim env s' n).1 := by
  have hdelim : (populateDelimiter env delim s n).2 = (populateDelimiter env delim s' n).2 ∧
      (populateDelimiter env delim s n).1.attExists = false ∧
      (populateDelimiter env delim s' n).1.attExists = false ∧
      ∀ name, delim = some (.attr name) →
        (populateDelimiter env delim s n).1.delimiter = (populateDelimiter env delim s' n).1.delimiter := by
    rcases delim with - | (- | name | -)
    · exact ⟨rfl, hs, hs', fun _ h => (nomatch h)⟩
    · exact ⟨rfl, hs, hs', fun _ h => (nomatch h)⟩
    · exact ⟨rfl, hs, hs', fun _ _ => rfl⟩
    · exact ⟨rfl, hs, hs', fun _ h => (nomatch h)⟩
  unfold populateArray
  dsimp only
  generalize populateDelimiter env delim s n = out at *
  generalize populateDelimiter env delim s' n = out' at *
  obtain ⟨s₁, n₁⟩ := out
  obtain ⟨s₁', n₁'⟩ := out'
  obtain ⟨rfl, hs₁, hs₁', hd⟩ := hdelim
  have hno : Alike (some (dim, delim)) s₁ s₁' := alike_of_not_exists hs₁ hs₁'
  cases dim.type.value heapAddr env (bytesRemaining r n.next) with
  | none => exact ⟨rfl, hno⟩
  | some d =>
    dsimp only
    split
    · exact ⟨rfl, hno⟩
    · obtain ⟨hnotes, halike⟩ := populateElems_alike (r := r) (n := n₁) owner ty dim delim
        (toInt (toLong d)) hs₁ hs₁' hd
      have hstep : (((populateElems r owner ty dim (toInt (toLong d)) s₁ n₁).2.1.emit
            (.array ⟨dim.type.fromAtt, ty, n.next, d,
              (populateElems r owner ty dim (toInt (toLong d)) s₁ n₁).2.2⟩)), Flow.next) =
          (((populateElems r owner ty dim (toInt (toLong d)) s₁' n₁).2.1.emit
            (.array ⟨dim.type.fromAtt, ty, n.next, d,
              (populateElems r owner ty dim (toInt (toLong d)) s₁' n₁).2.2⟩)), Flow.next) := by
        rw [hnotes]
      cases ty <;> exact ⟨hstep, halike⟩

theorem turnEnd_alike (aligned : Bool) (name : Option String) (ty : BaseType) (l : Loop)
    {out out' : AttState × Notes × Flow} (hout : out.2 = out'.2) (h : Alike a out.1 out'.1) :
    (turnEnd aligned name ty l out).2 = (turnEnd aligned name ty l out').2 ∧
      Alike a (turnEnd aligned name ty l out).1 (turnEnd aligned name ty l out').1 := by
  rw [(turnEnd_notes aligned name ty l out).2, (turnEnd_notes aligned name ty l out').2]
  refine ⟨?_, h⟩
  obtain ⟨s₁, n₁, flow⟩ := out
  obtain ⟨s₁', n₁', flow'⟩ := out'
  cases hout
  cases flow with
  | stop why => rfl
  | leave => rfl
  | next =>
    dsimp only [turnEnd]
    rw [found_congr h]

/-- A turn is the same for two attributes that do not exist, and the same is seen of them. -/
theorem populateField_alike (heapAddr : Nat → Nat) (owner : List Nat) (aligned : Bool) (base : Nat)
    (name : Option String) (f : Field) (l : Loop) (hs : f.Idle s) (hs' : f.Idle s') :
    (populateField heapAddr r owner aligned base name f s l).2 =
        (populateField heapAddr r owner aligned base name f s' l).2 ∧
      Alike f.array? (populateField heapAddr r owner aligned base name f s l).1
        (populateField heapAddr r owner aligned base name f s' l).1 := by
  cases f with
  | const => exact ⟨rfl, alike_of_not_exists hs.attExists hs'.attExists⟩
  | bitField ty width =>
    unfold populateField
    dsimp only
    generalize startAtt r aligned base none l = out
    obtain ⟨l₁, leaves⟩ := out
    cases leaves with
    | true => exact ⟨rfl, alike_of_not_exists hs.attExists hs'.attExists⟩
    | false =>
      obtain ⟨hloop, halike⟩ := populateBitField_alike (r := r)
        { s with rawdata := .data (r.addr + l₁.notes.next) }
        { s' with rawdata := .data (r.addr + l₁.notes.next) } base ty width name l₁
        ⟨hs.attExists, hs.address⟩ ⟨hs'.attExists, hs'.address⟩
      dsimp only
      rw [hloop, found_congr halike]
      exact ⟨rfl, halike⟩
  | scalar ty =>
    rw [populateField_scalar, populateField_scalar]
    generalize startAtt r aligned base _ l = out
    obtain ⟨l₁, leaves⟩ := out
    cases leaves with
    | true => exact ⟨rfl, alike_of_not_exists hs.attExists hs'.attExists⟩
    | false =>
      obtain ⟨hout, halike⟩ := populateValue_alike (r := r) (n := l₁.notes)
        { s with rawdata := .data (r.addr + l₁.notes.next) }
        { s' with rawdata := .data (r.addr + l₁.notes.next) } owner ty hs.attExists
        hs'.attExists
      exact turnEnd_alike aligned name ty l₁ hout halike
  | array ty dim delim =>
    rw [populateField_array, populateField_array]
    generalize startAtt r aligned base _ l = out
    obtain ⟨l₁, leaves⟩ := out
    cases leaves with
    | true => exact ⟨rfl, alike_of_not_exists hs.attExists hs'.attExists⟩
    | false =>
      obtain ⟨hout, halike⟩ := populateArray_alike heapAddr (r := r) (n := l₁.notes)
        { s with rawdata := .data (r.addr + l₁.notes.next) }
        { s' with rawdata := .data (r.addr + l₁.notes.next) } owner ty dim delim l₁.env
        hs.attExists hs'.attExists
      exact turnEnd_alike aligned name ty l₁ hout halike

end Alike

/-! ## Two clones -/

/-- No attribute exists, nor does any in the structs. No struct is populated, and there are no
arrays of them. -/
def Vals.Stale : (atts : Atts) → Vals atts → Prop
  | .nil, _ => True
  | .field _ f rest, (s, v) => f.Idle s ∧ Vals.Stale rest v
  | .struct _ _ sub rest, ((s, st), v) =>
    ((s.attExists = false ∧ s.value = .none) ∧
        ∀ c, st = some c → c.populated = false ∧ Vals.Stale sub c.atts) ∧
      Vals.Stale rest v
  | .structs _ _ _ _ _ rest, ((s, list), v) =>
    ((s.attExists = false ∧ s.value = .none) ∧ list = []) ∧ Vals.Stale rest v

theorem Vals.stale_fresh (atts : Atts) : Vals.Stale atts (.fresh atts) := by
  induction atts with
  | nil => trivial
  | field name f rest ih => exact ⟨⟨rfl, fun _ _ => rfl⟩, ih⟩
  | struct name al sub rest ihsub ihrest => exact ⟨⟨⟨rfl, rfl⟩, fun c hc => (nomatch hc)⟩, ihrest⟩
  | structs name al sub dim delim rest ihsub ihrest => exact ⟨⟨⟨rfl, rfl⟩, rfl⟩, ihrest⟩

/-- What is seen from the `i`-th attribute on. -/
def Vals.seen (n : Notes) (atts : Atts) (i : Nat) (path : List Nat) (v : Vals atts) : List Seen :=
  (Vals.existing atts i path v).map (Existing.seen n)

variable {atts : Atts}

theorem Vals.existing_of_stale {v : Vals atts} (hv : Vals.Stale atts v) (i : Nat) (path : List Nat) :
    Vals.existing atts i path v = [] := by
  induction atts generalizing i with
  | nil => rfl
  | field name f rest ih =>
    obtain ⟨s, v⟩ := v
    rw [Vals.existing, hv.1.attExists, ih hv.2]
    rfl
  | struct name al sub rest ihsub ihrest =>
    obtain ⟨⟨s, st⟩, v⟩ := v
    rw [Vals.existing, hv.1.1.1, ihrest hv.2]
    rfl
  | structs name al sub dim delim rest ihsub ihrest =>
    obtain ⟨⟨s, list⟩, v⟩ := v
    rw [Vals.existing, hv.1.1.1, ihrest hv.2]
    rfl

section Clones

variable {heapAddr : Nat → Nat} {r : Record} {n : Notes}

/-- What comes after a turn is the same if the turn is, and what is left is. -/
theorem andThen_alike {α β : Type} (own : Notes → α → List Seen)
    (seen : Notes → β → List Seen) {rest rest' : Loop → β × Loop × Flow} {v v' : β} {out out' : α × Loop × Flow}
    (hout : out.2 = out'.2) (hown : ∀ n, own n out.1 = own n out'.1) (hv : ∀ n, seen n v = seen n v')
    (hrest : ∀ l, (rest l).2 = (rest' l).2 ∧ ∀ n, seen n (rest l).1 = seen n (rest' l).1) :
    (andThen rest v out).2 = (andThen rest' v' out').2 ∧
      ∀ n, own n (andThen rest v out).1.1 ++ seen n (andThen rest v out).1.2 =
        own n (andThen rest' v' out').1.1 ++ seen n (andThen rest' v' out').1.2 := by
  obtain ⟨x, l, flow⟩ := out
  obtain ⟨x', l', flow'⟩ := out'
  cases hout
  cases flow with
  | stop why => exact ⟨rfl, fun n => congrArg₂ _ (hown n) (hv n)⟩
  | leave => exact ⟨rfl, fun n => congrArg₂ _ (hown n) (hv n)⟩
  | next => exact ⟨(hrest l).1, fun n => congrArg₂ _ (hown n) ((hrest l).2 n)⟩

theorem populateStruct_alike (heapAddr : Nat → Nat) (al : Bool) (sub : Atts) (path : List Nat)
    (c c' : CloneOf (Vals sub))
    (hsub : ∀ base l,
      (populateAtts heapAddr r al sub 0 path base c.atts l).2 =
          (populateAtts heapAddr r al sub 0 path base c'.atts l).2 ∧
        ∀ n, Vals.seen n sub 0 path (populateAtts heapAddr r al sub 0 path base c.atts l).1 =
          Vals.seen n sub 0 path (populateAtts heapAddr r al sub 0 path base c'.atts l).1) :
    (populateStruct heapAddr r al sub path c n).2 = (populateStruct heapAddr r al sub path c' n).2 ∧
      ((populateStruct heapAddr r al sub path c n).2.2.2.goes = true →
        (populateStruct heapAddr r al sub path c n).1.dataSize =
          (populateStruct heapAddr r al sub path c' n).1.dataSize) ∧
      ∀ m, Vals.seen m sub 0 path (populateStruct heapAddr r al sub path c n).1.atts =
        Vals.seen m sub 0 path (populateStruct heapAddr r al sub path c' n).1.atts := by
  obtain ⟨hout, hseen⟩ := hsub n.next ⟨n, n.next, 0, []⟩
  have hnotes : (populateStruct heapAddr r al sub path c n).2 =
      (populateStruct heapAddr r al sub path c' n).2 := by
    unfold populateStruct
    rcases Flow.goes_or_stop (populateAtts heapAddr r al sub 0 path n.next c.atts
      ⟨n, n.next, 0, []⟩).2.2 with hgoes | ⟨why, hstop⟩
    · rw [populateTmpl_goes hgoes, populateTmpl_goes (hout ▸ hgoes), hout]
    · rw [populateTmpl_stop hstop, populateTmpl_stop (hout ▸ hstop), hout]
  refine ⟨hnotes, fun hgoes => ?_, fun m => ?_⟩
  · rw [populateStruct_dataSize hgoes, populateStruct_dataSize (hnotes ▸ hgoes), hnotes]
  · unfold populateStruct
    rw [(populateTmpl_atts ..).1, (populateTmpl_atts ..).1]
    exact hseen m

def fieldSeen (n : Notes) (f : Field) (owner : List Nat) (s : AttState) : List Seen :=
  (if s.attExists then [(⟨owner, f.array?, s⟩ : Existing)] else []).map (Existing.seen n)

def structSeen (n : Notes) (sub : Atts) (i : Nat) (path : List Nat)
    (a : AttState × Option (CloneOf (Vals sub))) : List Seen :=
  (if a.1.attExists then
      ⟨i :: path, none, a.1⟩ :: structExisting (fun v => Vals.existing sub 0 (i :: path) v) a.2
    else []).map (Existing.seen n)

def structsSeen (n : Notes) (sub : Atts) (dim : Dimension) (delim : Option Delimiter) (i : Nat)
    (path : List Nat) (a : AttState × List (CloneOf (Vals sub))) : List Seen :=
  (if a.1.attExists then
      ⟨i :: path, some (dim, delim), a.1⟩ ::
        listExisting (fun ns v => Vals.existing sub 0 (ns :: i :: path) v) 0 a.2
    else []).map (Existing.seen n)

theorem Alike.fieldSeen {f : Field} {s s' : AttState} (h : Alike f.array? s s') (owner : List Nat)
    (n : Notes) : fieldSeen n f owner s = fieldSeen n f owner s' := by
  unfold Template.fieldSeen
  rw [← h.attExists]
  cases hs : s.attExists with
  | false => rfl
  | true => exact congrArg (fun x => [x]) (h.seen hs owner n)

theorem Vals.seen_field (n : Notes) (name : Option String) (f : Field) (rest : Atts) (i : Nat)
    (path : List Nat) (v : Vals (.field name f rest)) :
    Vals.seen n (.field name f rest) i path v =
      fieldSeen n f (i :: path) v.1 ++ Vals.seen n rest (i + 1) path v.2 := List.map_append

theorem Vals.seen_struct (n : Notes) (name : String) (al : Bool) (sub rest : Atts) (i : Nat)
    (path : List Nat) (v : Vals (.struct name al sub rest)) :
    Vals.seen n (.struct name al sub rest) i path v =
      structSeen n sub i path v.1 ++ Vals.seen n rest (i + 1) path v.2 := List.map_append

theorem Vals.seen_structs (n : Notes) (name : String) (al : Bool) (sub : Atts) (dim : Dimension)
    (delim : Option Delimiter) (rest : Atts) (i : Nat) (path : List Nat)
    (v : Vals (.structs name al sub dim delim rest)) :
    Vals.seen n (.structs name al sub dim delim rest) i path v =
      structsSeen n sub dim delim i path v.1 ++ Vals.seen n rest (i + 1) path v.2 := List.map_append

theorem structEnd_alike (aligned : Bool) (name : String) {sub : Atts} (s s' : AttState) (l : Loop)
    (i : Nat) (path : List Nat) {out out' : CloneOf (Vals sub) × Notes × Env × Flow}
    (hs : s.attExists = false) (hs' : s'.attExists = false) (hvalue : s.value = .none)
    (hvalue' : s'.value = .none) (hout : out.2 = out'.2)
    (hsize : out.2.2.2.goes = true → out.1.dataSize = out'.1.dataSize)
    (hseen : ∀ n, Vals.seen n sub 0 (i :: path) out.1.atts = Vals.seen n sub 0 (i :: path) out'.1.atts) :
    (structEnd aligned name s l out).2 = (structEnd aligned name s' l out').2 ∧
      ∀ n, structSeen n sub i path (structEnd aligned name s l out).1 =
        structSeen n sub i path (structEnd aligned name s' l out').1 := by
  obtain ⟨c, n₁, env, flow⟩ := out
  obtain ⟨c', n₁', env', flow'⟩ := out'
  cases hout
  have hgoes : c.dataSize = c'.dataSize →
      (setStruct aligned name c.dataSize env s { l with notes := n₁ }).2 =
          (setStruct aligned name c'.dataSize env s' { l with notes := n₁ }).2 ∧
        ∀ n, structSeen n sub i path
            ((setStruct aligned name c.dataSize env s { l with notes := n₁ }).1, some c) =
          structSeen n sub i path
            ((setStruct aligned name c'.dataSize env s' { l with notes := n₁ }).1, some c') := by
    intro heq
    rw [← heq]
    unfold setStruct structSeen
    split
    · refine ⟨rfl, fun n => ?_⟩
      dsimp only
      rw [if_pos rfl, if_pos rfl, List.map_cons, List.map_cons]
      refine congrArg₂ _ ?_ (hseen n)
      unfold Existing.seen
      dsimp only
      rw [hvalue, hvalue']
      rfl
    · dsimp only
      rw [hs, hs']
      exact ⟨rfl, fun _ => rfl⟩
  cases flow with
  | stop why =>
    refine ⟨rfl, fun n => ?_⟩
    unfold structSeen structEnd
    dsimp only
    rw [hs, hs']
    rfl
  | leave => exact ⟨congrArg (·, Flow.next) (hgoes (hsize rfl)).1, (hgoes (hsize rfl)).2⟩
  | next => exact ⟨congrArg (·, Flow.next) (hgoes (hsize rfl)).1, (hgoes (hsize rfl)).2⟩

/-- The structs of an array are new ones, whatever the attribute was. -/
theorem structsTurn_alike (heapAddr : Nat → Nat) (aligned al : Bool) (sub : Atts) (dim : Dimension)
    (delim : Option Delimiter) (s s' : AttState) (i : Nat) (path : List Nat) (l : Loop) (hs : s.attExists = false)
    (hs' : s'.attExists = false) (hvalue : s.value = .none) (hvalue' : s'.value = .none) :
    (structsTurn heapAddr r aligned al sub dim delim (i :: path) s [] l).2 =
        (structsTurn heapAddr r aligned al sub dim delim (i :: path) s' [] l).2 ∧
      ∀ n, structsSeen n sub dim delim i path
          (structsTurn heapAddr r aligned al sub dim delim (i :: path) s [] l).1 =
        structsSeen n sub dim delim i path
          (structsTurn heapAddr r aligned al sub dim delim (i :: path) s' [] l).1 := by
  have hdelim : (populateDelimiter l.env delim s l.notes).2 = (populateDelimiter l.env delim s' l.notes).2 ∧
      Filling ⟨0, .rest⟩ delim (populateDelimiter l.env delim s l.notes).1
        (populateDelimiter l.env delim s' l.notes).1 ∧
      (populateDelimiter l.env delim s l.notes).1.value = .none ∧
      (populateDelimiter l.env delim s' l.notes).1.value = .none := by
    rcases delim with - | (- | name | -)
    · exact ⟨rfl, ⟨hs, hs', fun _ h => (nomatch h), fun _ h => (nomatch h)⟩, hvalue, hvalue'⟩
    · exact ⟨rfl, ⟨hs, hs', fun _ h => (nomatch h), fun _ h => (nomatch h)⟩, hvalue, hvalue'⟩
    · exact ⟨rfl, ⟨hs, hs', fun _ h => (nomatch h), fun _ _ => rfl⟩, hvalue, hvalue'⟩
    · exact ⟨rfl, ⟨hs, hs', fun _ h => (nomatch h), fun _ h => (nomatch h)⟩, hvalue, hvalue'⟩
  have hnone : ∀ {s : AttState} {list : List (CloneOf (Vals sub))} {n : Notes}, s.attExists = false →
      structsSeen n sub dim delim i path (s, list) = [] := by
    intro s list n h
    unfold structsSeen
    dsimp only
    rw [h]
    rfl
  unfold structsTurn structsExpected
  dsimp only
  generalize populateDelimiter l.env delim s l.notes = out at *
  generalize populateDelimiter l.env delim s' l.notes = out' at *
  obtain ⟨s₁, n₁⟩ := out
  obtain ⟨s₁', n₁'⟩ := out'
  obtain ⟨rfl, hfill, hv₁, hv₁'⟩ := hdelim
  cases dim.type.value heapAddr l.env (bytesRemaining r l.notes.next) with
  | none => exact ⟨rfl, fun n => (hnone hfill.left).trans (hnone hfill.right).symm⟩
  | some d =>
    dsimp only [Option.map_some]
    split
    · exact ⟨rfl, fun n => (hnone hfill.left).trans (hnone hfill.right).symm⟩
    · generalize populateArrayOfStructs _ _ _ 0 n₁ = out
      obtain ⟨list, n₂, flow⟩ := out
      have hset : (setList dim l.notes.next list.length s₁ n₂).2 =
            (setList dim l.notes.next list.length s₁' n₂).2 ∧
          ∀ n, structsSeen n sub dim delim i path
              ((setList dim l.notes.next list.length s₁ n₂).1, list) =
            structsSeen n sub dim delim i path
              ((setList dim l.notes.next list.length s₁' n₂).1, list) := by
        unfold setList
        split
        · obtain ⟨hnotes, hfilling⟩ := setDimension2_filling (n := n₂) list.length
            hfill.left hfill.right hfill.delimiter
          dsimp only
          rw [hnotes]
          refine ⟨rfl, fun n => ?_⟩
          have hv₂ : (setDimension2 dim list.length s₁ n₂).1.value = .none :=
            (setDimension2_state ..).1.trans hv₁
          have hv₂' : (setDimension2 dim list.length s₁' n₂).1.value = .none :=
            (setDimension2_state ..).1.trans hv₁'
          have hone := (hfilling.value .none).seen rfl (i :: path) n
          generalize (setDimension2 dim list.length s₁ n₂).1 = t at *
          generalize (setDimension2 dim list.length s₁' n₂).1 = t' at *
          rw [← hv₂] at hone
          unfold structsSeen
          dsimp only
          rw [if_pos rfl, if_pos rfl, List.map_cons, List.map_cons]
          refine congrArg (· :: _) (hone.trans ?_)
          rw [hv₂, ← hv₂']
        · exact ⟨rfl, fun n => (hnone hfill.left).trans (hnone hfill.right).symm⟩
      cases flow with
      | stop why => exact ⟨rfl, fun n => (hnone hfill.left).trans (hnone hfill.right).symm⟩
      | leave =>
        dsimp only
        rw [hset.1]
        exact ⟨rfl, hset.2⟩
      | next =>
        dsimp only
        rw [hset.1]
        exact ⟨rfl, hset.2⟩

theorem seen_of_stale {atts : Atts} {v v' : Vals atts} (hv : Vals.Stale atts v)
    (hv' : Vals.Stale atts v') (i : Nat) (path : List Nat) (n : Notes) :
    Vals.seen n atts i path v = Vals.seen n atts i path v' := by
  rw [Vals.seen, Vals.seen, Vals.existing_of_stale hv, Vals.existing_of_stale hv']

/-- A record makes the same of all stale clones, as far as it is seen. -/
theorem populateAtts_alike (aligned : Bool) (atts : Atts) (i : Nat) (path : List Nat) (base : Nat)
    {v v' : Vals atts} (hv : Vals.Stale atts v) (hv' : Vals.Stale atts v') (l : Loop) :
    (populateAtts heapAddr r aligned atts i path base v l).2 =
        (populateAtts heapAddr r aligned atts i path base v' l).2 ∧
      ∀ n, Vals.seen n atts i path (populateAtts heapAddr r aligned atts i path base v l).1 =
        Vals.seen n atts i path (populateAtts heapAddr r aligned atts i path base v' l).1 := by
  induction atts generalizing aligned i path base l with
  | nil => exact ⟨rfl, fun _ => rfl⟩
  | field name f rest ih =>
    obtain ⟨hout, halike⟩ := populateField_alike heapAddr (r := r) (i :: path) aligned
      base name f l hv.1 hv'.1
    rw [populateAtts_field, populateAtts_field]
    simp only [Vals.seen_field]
    exact andThen_alike (fun n => fieldSeen n f (i :: path))
      (fun n => Vals.seen n rest (i + 1) path) hout (halike.fieldSeen (i :: path))
      (seen_of_stale hv.2 hv'.2 (i + 1) path) fun l => ih aligned (i + 1) path base hv.2 hv'.2 l
  | struct name al sub rest ihsub ihrest =>
    have hleave := seen_of_stale hv hv' i path
    rw [populateAtts_struct, populateAtts_struct]
    obtain ⟨⟨⟨hs, hvalue⟩, hst⟩, hrest⟩ := hv
    obtain ⟨⟨⟨hs', hvalue'⟩, hst'⟩, hrest'⟩ := hv'
    generalize startAtt r aligned base _ l = out
    obtain ⟨l₁, leaves⟩ := out
    cases leaves with
    | true => exact ⟨rfl, hleave⟩
    | false =>
      have hclone : ∀ {st : Option (CloneOf (Vals sub))},
          (∀ c, st = some c → c.populated = false ∧ Vals.Stale sub c.atts) →
          Vals.Stale sub (st.getD (cloneTemplate sub)).atts := by
        intro st h
        cases st with
        | none => exact Vals.stale_fresh sub
        | some c => exact (h c rfl).2
      obtain ⟨hnotes, hsize, hseen⟩ := populateStruct_alike (r := r) (n := l₁.notes) heapAddr
        al sub (i :: path) _ _ fun base l => ihsub al 0 (i :: path) base (hclone hst) (hclone hst') l
      obtain ⟨hout, hown⟩ := structEnd_alike aligned name
        { v.1.1 with rawdata := .data (r.addr + l₁.notes.next) }
        { v'.1.1 with rawdata := .data (r.addr + l₁.notes.next) } l₁ i path hs hs' hvalue
        hvalue' hnotes hsize hseen
      simp only [Vals.seen_struct]
      exact andThen_alike (fun n => structSeen n sub i path)
        (fun n => Vals.seen n rest (i + 1) path) hout hown
        (seen_of_stale hrest hrest' (i + 1) path)
        fun l => ihrest aligned (i + 1) path base hrest hrest' l
  | structs name al sub dim delim rest ihsub ihrest =>
    have hleave := seen_of_stale hv hv' i path
    rw [populateAtts_structs, populateAtts_structs]
    obtain ⟨⟨⟨hs, hvalue⟩, hlist⟩, hrest⟩ := hv
    obtain ⟨⟨⟨hs', hvalue'⟩, hlist'⟩, hrest'⟩ := hv'
    generalize startAtt r aligned base _ l = out
    obtain ⟨l₁, leaves⟩ := out
    cases leaves with
    | true => exact ⟨rfl, hleave⟩
    | false =>
      obtain ⟨hout, hown⟩ := structsTurn_alike (r := r) heapAddr aligned al sub dim delim
        { v.1.1 with rawdata := .data (r.addr + l₁.notes.next) }
        { v'.1.1 with rawdata := .data (r.addr + l₁.notes.next) } i path l₁ hs hs' hvalue
        hvalue'
      rw [show v.1.2 = [] from hlist, show v'.1.2 = [] from hlist']
      simp only [Vals.seen_structs]
      exact andThen_alike (fun n => structsSeen n sub dim delim i path)
        (fun n => Vals.seen n rest (i + 1) path) hout hown
        (seen_of_stale hrest hrest' (i + 1) path)
        fun l => ihrest aligned (i + 1) path base hrest hrest' l

end Clones

/-! ## A clone that goes from record to record -/

/-- A constant is never said to exist, and nothing is stored for a bit-field that is an address. -/
structure Field.Clean (f : Field) (s : AttState) : Prop where
  const : f = .const → s.attExists = false
  address : ∀ width, f = .bitField .address width → s.value = .none

/-- What is left in a clone that was populated with a record, or with several. -/
def Vals.Clean : (atts : Atts) → Vals atts → Prop
  | .nil, _ => True
  | .field _ f rest, (s, v) => f.Clean s ∧ Vals.Clean rest v
  | .struct _ _ sub rest, ((s, st), v) =>
    (s.value = .none ∧
        ∀ c, st = some c → (c.populated = true → Vals.Clean sub c.atts) ∧
          (c.populated = false → Vals.Stale sub c.atts)) ∧
      Vals.Clean rest v
  | .structs _ _ _ _ _ rest, ((s, _), v) => s.value = .none ∧ Vals.Clean rest v

theorem Field.Idle.clean {f : Field} {s : AttState} (h : f.Idle s) : f.Clean s :=
  ⟨fun _ => h.attExists, h.address⟩

theorem Vals.Stale.clean {v : Vals atts} (h : Vals.Stale atts v) : Vals.Clean atts v := by
  induction atts with
  | nil => trivial
  | field name f rest ih => exact ⟨h.1.clean, ih h.2⟩
  | struct name al sub rest ihsub ihrest =>
    exact ⟨⟨h.1.1.2, fun c hc => ⟨fun _ => ihsub (h.1.2 c hc).2, fun _ => (h.1.2 c hc).2⟩⟩,
      ihrest h.2⟩
  | structs name al sub dim delim rest ihsub ihrest => exact ⟨h.1.1.2, ihrest h.2⟩

theorem depopulateField_idle {owner : List Nat} {f : Field} {s : AttState} (h : f.Clean s) :
    f.Idle (depopulateField owner f s).1 := by
  cases f with
  | const => exact ⟨h.const rfl, fun _ hf => (nomatch hf)⟩
  | array ty dim delim =>
    unfold depopulateField
    dsimp only
    split <;> exact ⟨rfl, fun _ hf => (nomatch hf)⟩
  | _ => exact ⟨rfl, h.address⟩

theorem depopulateTmpl_stale {α : Type} {body : α → Option (α × List Event)}
    {Clean Stale : α → Prop} (hbody : ∀ v v' es, Clean v → body v = some (v', es) → Stale v')
    {c c' : CloneOf α} {es : List Event} (hclean : c.populated = true → Clean c.atts)
    (hstale : c.populated = false → Stale c.atts) (h : depopulateTmpl atts body c = some (c', es)) :
    c'.populated = false ∧ Stale c'.atts := by
  rcases depopulateTmpl_eq_some h with ⟨hpop, rfl, -⟩ | ⟨hpop, v, hv, rfl⟩
  · exact ⟨hpop, hstale hpop⟩
  · exact ⟨rfl, hbody _ _ _ (hclean hpop) hv⟩

/-- What is left in a clone that was depopulated is stale. -/
theorem depopulateAtts_stale {i : Nat} {path : List Nat} {v v' : Vals atts} {es : List Event}
    (hv : Vals.Clean atts v) (h : depopulateAtts atts i path v = some (v', es)) :
    Vals.Stale atts v' := by
  induction atts generalizing i path es with
  | nil => trivial
  | field name f rest ih =>
    obtain ⟨w, more, hrest, rfl, rfl⟩ := depopulateAtts_field h
    exact ⟨depopulateField_idle hv.1, ih hv.2 hrest⟩
  | struct name al sub rest ihsub ihrest =>
    obtain ⟨st, frees, w, more, hst, hrest, rfl, rfl⟩ := depopulateAtts_struct h
    refine ⟨⟨⟨rfl, hv.1.1⟩, fun c hc => ?_⟩, ihrest hv.2 hrest⟩
    rcases depopulateStruct_eq_some hst with ⟨-, rfl, -⟩ | ⟨c₀, c', hc₀, rfl, hdep⟩
    · cases hc
    · cases hc
      exact depopulateTmpl_stale (fun _ _ _ hw hbody => ihsub hw hbody)
        (hv.1.2 c₀ hc₀).1 (hv.1.2 c₀ hc₀).2 hdep
  | structs name al sub dim delim rest ihsub ihrest =>
    obtain ⟨frees, w, more, -, hrest, rfl, rfl⟩ := depopulateAtts_structs h
    exact ⟨⟨⟨rfl, hv.1⟩, rfl⟩, ihrest hv.2 hrest⟩

section Runs

variable {heapAddr : Nat → Nat} {r : Record} {n : Notes}

variable {s : AttState}

theorem populateField_clean (owner : List Nat) (aligned : Bool) (base : Nat) (name : Option String)
    {f : Field} (l : Loop) (hs : f.Idle s) :
    f.Clean (populateField heapAddr r owner aligned base name f s l).1 := by
  refine ⟨fun hf => ?_, fun width hf => ?_⟩
  · subst hf
    exact hs.attExists
  · subst hf
    have hvalue := hs.address width rfl
    unfold populateField
    dsimp only
    generalize startAtt r aligned base none l = out
    obtain ⟨l₁, leaves⟩ := out
    cases leaves with
    | true => exact hvalue
    | false =>
      dsimp only
      rw [populateBitField_eq]
      split
      · split <;> exact hvalue
      · dsimp only
        split
        · exact hvalue
        · unfold takeBits
          dsimp only
          split <;> cases name <;> exact hvalue

/-- What holds of the attribute and of the others if the process goes on. -/
theorem andThen_goes {α β : Type} {P : α → Prop} {Q : β → Prop} {rest : Loop → β × Loop × Flow}
    {v : β} {out : α × Loop × Flow} (hout : out.2.2.goes = true → P out.1) (hv : Q v)
    (hrest : ∀ l, (rest l).2.2.goes = true → Q (rest l).1)
    (hgoes : (andThen rest v out).2.2.goes = true) :
    P (andThen rest v out).1.1 ∧ Q (andThen rest v out).1.2 := by
  obtain ⟨a, l, flow⟩ := out
  cases flow with
  | stop why => cases hgoes
  | leave => exact ⟨hout rfl, hv⟩
  | next => exact ⟨hout rfl, hrest l hgoes⟩

theorem structsTurn_value {aligned al : Bool} {sub : Atts} {dim : Dimension}
    {delim : Option Delimiter} {path : List Nat} {list : List (CloneOf (Vals sub))} {l : Loop}
    (hs : s.value = .none) :
    (structsTurn heapAddr r aligned al sub dim delim path s list l).1.1.value = .none := by
  unfold structsTurn structsExpected
  have hdelim := (populateDelimiter_state (n := l.notes) l.env delim s).1
  dsimp only
  generalize populateDelimiter l.env delim s l.notes = out at *
  obtain ⟨s₁, n₁⟩ := out
  have hs₁ : s₁.value = .none := hdelim.trans hs
  cases dim.type.value heapAddr l.env (bytesRemaining r l.notes.next) with
  | none => exact hs₁
  | some d =>
    dsimp only [Option.map_some]
    split
    · exact hs₁
    · generalize populateArrayOfStructs _ _ _ 0 n₁ = out
      obtain ⟨list', n₂, flow⟩ := out
      have hset : (setList dim l.notes.next list'.length s₁ n₂).1.value = .none := by
        unfold setList
        split
        · exact (setDimension2_state ..).1.trans hs₁
        · exact hs₁
      cases flow with
      | stop why => exact hs₁
      | leave => exact hset
      | next => exact hset

theorem structEnd_value (aligned : Bool) (name : String) {sub : Atts} (l : Loop)
    (out : CloneOf (Vals sub) × Notes × Env × Flow) (hs : s.value = .none) :
    (structEnd aligned name s l out).1.1.value = .none := by
  obtain ⟨c, n₁, env, flow⟩ := out
  have hset : (setStruct aligned name c.dataSize env s { l with notes := n₁ }).1.value = .none := by
    unfold setStruct
    split <;> exact hs
  cases flow with
  | stop why => exact hs
  | leave => exact hset
  | next => exact hset

theorem structEnd_goes {aligned : Bool} {name : String} {sub : Atts} {l : Loop}
    {out : CloneOf (Vals sub) × Notes × Env × Flow}
    (h : (structEnd aligned name s l out).2.2.goes = true) : out.2.2.2.goes = true := by
  obtain ⟨c, n₁, env, flow⟩ := out
  cases flow with
  | stop why => cases h
  | leave => rfl
  | next => rfl

/-- A stale clone that is populated is clean again. -/
theorem populateAtts_clean (heapAddr : Nat → Nat) (aligned : Bool) (atts : Atts) (i : Nat)
    (path : List Nat) (base : Nat) {v : Vals atts} (hv : Vals.Stale atts v) (l : Loop)
    (hgoes : (populateAtts heapAddr r aligned atts i path base v l).2.2.goes = true) :
    Vals.Clean atts (populateAtts heapAddr r aligned atts i path base v l).1 := by
  induction atts generalizing aligned i path base l with
  | nil => trivial
  | field name f rest ih =>
    rw [populateAtts_field] at hgoes ⊢
    exact andThen_goes (Q := Vals.Clean rest)
      (fun _ => populateField_clean (i :: path) aligned base name l hv.1) hv.2.clean
      (fun l hl => ih aligned (i + 1) path base hv.2 l hl) hgoes
  | struct name al sub rest ihsub ihrest =>
    have hleave := hv.clean
    rw [populateAtts_struct] at hgoes ⊢
    obtain ⟨⟨⟨hs, hvalue⟩, hst⟩, hrest⟩ := hv
    generalize startAtt r aligned base _ l = out at *
    obtain ⟨l₁, leaves⟩ := out
    cases leaves with
    | true => exact hleave
    | false =>
      refine andThen_goes (Q := Vals.Clean rest)
        (P := fun a : AttState × Option (CloneOf (Vals sub)) => a.1.value = .none ∧
          ∀ c, a.2 = some c → (c.populated = true → Vals.Clean sub c.atts) ∧
            (c.populated = false → Vals.Stale sub c.atts)) (fun hend => ?_) hrest.clean
        (fun l hl => ihrest aligned (i + 1) path base hrest l hl) hgoes
      refine ⟨structEnd_value _ _ _ _ hvalue, fun c hc => ?_⟩
      rw [(structEnd_clone ..).1] at hc
      obtain rfl := Option.some_injective _ hc
      have hsub := structEnd_goes hend
      have hstale : Vals.Stale sub (v.1.2.getD (cloneTemplate sub)).atts := by
        cases hst' : v.1.2 with
        | none => exact Vals.stale_fresh sub
        | some c => exact (hst c hst').2
      unfold populateStruct at hsub ⊢
      rcases Flow.goes_or_stop (populateAtts heapAddr r al sub 0 (i :: path) l₁.notes.next
        (v.1.2.getD (cloneTemplate sub)).atts ⟨l₁.notes, l₁.notes.next, 0, []⟩).2.2 with
        hg | ⟨why, hstop⟩
      · rw [populateTmpl_goes hg]
        exact ⟨fun _ => ihsub al 0 (i :: path) _ hstale _ hg, fun h => (nomatch h)⟩
      · rw [populateTmpl_stop hstop] at hsub
        cases hsub
  | structs name al sub dim delim rest ihsub ihrest =>
    have hleave := hv.clean
    rw [populateAtts_structs] at hgoes ⊢
    obtain ⟨⟨⟨hs, hvalue⟩, hlist⟩, hrest⟩ := hv
    generalize startAtt r aligned base _ l = out at *
    obtain ⟨l₁, leaves⟩ := out
    cases leaves with
    | true => exact hleave
    | false =>
      exact andThen_goes (Q := Vals.Clean rest)
        (P := fun a : AttState × List (CloneOf (Vals sub)) => a.1.value = .none)
        (fun _ => structsTurn_value hvalue) hrest.clean
        (fun l hl => ihrest aligned (i + 1) path base hrest l hl) hgoes

end Runs

/-! ## Sessions -/

section Sessions

variable {heapAddr : Nat → Nat} {t : Tmpl}

structure Reusable (c : Clone t) : Prop where
  used : c.populated = true → Vals.Clean t.atts c.atts
  idle : c.populated = false → Vals.Stale t.atts c.atts ∧ c.extra = none

def outcome (out : Clone t × Notes × Flow) : Flow × List Seen × Option AttState :=
  (out.2.2, out.1.seen out.2.1)

theorem reusable_start (t : Tmpl) : Reusable (cloneTemplate t.atts : Clone t) :=
  ⟨fun h => (nomatch h), fun _ => ⟨Vals.stale_fresh t.atts, rfl⟩⟩

theorem depopulateTemplate_stale {c c' : Clone t} {n n' : Notes} (hc : Reusable c)
    (h : depopulateTemplate c n = some (c', n')) :
    c'.populated = false ∧ Vals.Stale t.atts c'.atts ∧ c'.extra = none := by
  obtain ⟨es, hdep, -⟩ := depopulateTemplate_eq_some h
  obtain ⟨hpop, hstale⟩ := depopulateTmpl_stale
    (fun _ _ _ hw hbody => depopulateAtts_stale hw hbody) hc.used (fun hpop => (hc.idle hpop).1) hdep
  refine ⟨hpop, hstale, ?_⟩
  rcases depopulateTmpl_eq_some hdep with ⟨hno, rfl, -⟩ | ⟨-, v, -, rfl⟩
  · exact (hc.idle hno).2
  · rfl

theorem populateStruct_extra (heapAddr : Nat → Nat) (r : Record) (al : Bool) {sub : Atts}
    (path : List Nat) (c : CloneOf (Vals sub)) (n : Notes) :
    (populateStruct heapAddr r al sub path c n).1.extra = c.extra := by
  unfold populateStruct
  rcases Flow.goes_or_stop (populateAtts heapAddr r al sub 0 path n.next c.atts
    ⟨n, n.next, 0, []⟩).2.2 with hgoes | ⟨why, hstop⟩
  · rw [populateTmpl_goes hgoes]
  · rw [populateTmpl_stop hstop]

theorem populateRecord_reusable (heapAddr : Nat → Nat) (r : Record) {c : Clone t}
    (hstale : Vals.Stale t.atts c.atts) (n : Notes)
    (hgoes : (populateRecord heapAddr r c n).2.2.goes = true) :
    Reusable (populateRecord heapAddr r c n).1 := by
  rcases populateRecord_cases heapAddr r c n with ⟨-, heq⟩ | ⟨-, c₁, n₁, env, flow, hout, hcases⟩
  · rw [heq]
    exact ⟨fun _ => hstale.clean, fun h => (nomatch h)⟩
  · have hrun := populateAtts_clean (r := r) heapAddr t.aligned t.atts 0 [] 0 hstale
      ⟨{ n with next := 0, outOfData := false }, 0, 0, []⟩
    have hclean : flow.goes = true → c₁.populated = true ∧ Vals.Clean t.atts c₁.atts := by
      intro hflow
      unfold populateStruct at hout
      rcases Flow.goes_or_stop (populateAtts heapAddr r t.aligned t.atts 0 [] 0 c.atts
        ⟨{ n with next := 0, outOfData := false }, 0, 0, []⟩).2.2 with hg | ⟨why, hstop⟩
      · rw [populateTmpl_goes hg, Prod.mk.injEq] at hout
        obtain ⟨rfl, -⟩ := hout
        exact ⟨rfl, hrun hg⟩
      · rw [populateTmpl_stop hstop] at hout
        cases hout
        cases hflow
    rcases hcases with ⟨why, -, heq⟩ | ⟨hflow, -, heq⟩ | ⟨hflow, -, heq⟩
    · rw [heq] at hgoes
      cases hgoes
    · rw [heq]
      exact ⟨fun _ => (hclean hflow).2,
        fun hpop => absurd (hpop.symm.trans (hclean hflow).1) Bool.noConfusion⟩
    · rw [heq]
      exact ⟨fun _ => (hclean hflow).2,
        fun hpop => absurd (hpop.symm.trans (hclean hflow).1) Bool.noConfusion⟩

/-- The clone of a session that has not ended can be used again. -/
theorem Session.step_reusable {p : Session t} (hp : p.ended = false → Reusable p.clone) (call : Call)
    (hnext : (p.step heapAddr call).ended = false) : Reusable (p.step heapAddr call).clone := by
  unfold Session.step populateTemplate at *
  cases hended : p.ended with
  | true =>
    rw [hended, if_pos rfl] at hnext
    rw [hended] at hnext
    cases hnext
  | false =>
    rw [hended, if_neg Bool.false_ne_true] at hnext
    rw [if_neg Bool.false_ne_true]
    cases hdep : depopulateTemplate p.clone p.notes with
    | none =>
      rw [hdep] at hnext
      cases call <;> cases hnext
    | some out =>
      obtain ⟨c, n⟩ := out
      obtain ⟨hpop, hstale, hextra⟩ := depopulateTemplate_stale (hp hended) hdep
      rw [hdep] at hnext
      cases call with
      | depopulate => exact ⟨fun h => absurd (hpop.symm.trans h) Bool.noConfusion, fun _ => ⟨hstale, hextra⟩⟩
      | populate r =>
        dsimp only [Option.map_some] at hnext ⊢
        have hrecord := populateRecord_reusable heapAddr r hstale n
        generalize populateRecord heapAddr r c n = out at *
        obtain ⟨c', n', flow⟩ := out
        cases flow with
        | stop why => cases hnext
        | leave => exact hrecord rfl
        | next => exact hrecord rfl

theorem run_reusable (t : Tmpl) (calls : List Call)
    (hended : (run (Session.step heapAddr) (Session.start t) calls).ended = false) :
    Reusable (run (Session.step heapAddr) (Session.start t) calls).clone :=
  run_invariant (fun p : Session t => p.ended = false → Reusable p.clone)
    (fun _ call hp => Session.step_reusable hp call) (fun _ => reusable_start t) calls hended

theorem populateRecord_eq {r : Record} (hsize : r.size ≠ 0) (c : Clone t) (n : Notes) :
    populateRecord heapAddr r c n =
      match populateStruct heapAddr r t.aligned t.atts [] c { n with next := 0, outOfData := false } with
      | (c, n, _, .stop why) => (c, n, .stop why)
      | (c, n, _, _) =>
        if n.next < r.size then
          ({ c with extra := some (createExtraDataAtt r n).1 }, (createExtraDataAtt r n).2, .next)
        else (c, n, .next) := by
  unfold populateRecord
  rw [if_neg hsize]
  rfl

/-- A record is shown through a stale clone as it is through a new one. -/
theorem populateRecord_outcome (r : Record) {c : Clone t} (hstale : Vals.Stale t.atts c.atts)
    (hextra : c.extra = none) (n : Notes) :
    outcome (populateRecord heapAddr r c n) =
      outcome (populateRecord heapAddr r (cloneTemplate t.atts : Clone t) n) := by
  have hfresh := Vals.stale_fresh t.atts
  by_cases hsize : r.size = 0
  · unfold populateRecord
    rw [if_pos hsize, if_pos hsize]
    unfold outcome CloneOf.seen CloneOf.existing
    dsimp only
    rw [Vals.existing_of_stale hstale, Vals.existing_of_stale (v := (cloneTemplate t.atts).atts) hfresh,
      hextra]
    rfl
  · obtain ⟨hnotes, -, hseen⟩ := populateStruct_alike (r := r)
      (n := { n with next := 0, outOfData := false }) heapAddr t.aligned t.atts [] c (cloneTemplate t.atts)
      fun base l => populateAtts_alike t.aligned t.atts 0 [] base hstale hfresh l
    have hx := populateStruct_extra heapAddr r t.aligned [] c
      { n with next := 0, outOfData := false }
    have hx' := populateStruct_extra heapAddr r t.aligned []
      (cloneTemplate t.atts) { n with next := 0, outOfData := false }
    rw [hextra] at hx
    rw [populateRecord_eq hsize, populateRecord_eq hsize]
    generalize populateStruct heapAddr r t.aligned t.atts [] c _ = out at *
    generalize populateStruct heapAddr r t.aligned t.atts [] (cloneTemplate t.atts) _ = out' at *
    obtain ⟨c₁, n₁, env, flow⟩ := out
    obtain ⟨c₁', n₁', env', flow'⟩ := out'
    cases hnotes
    have hsame : ∀ m, c₁.seen m = c₁'.seen m := by
      intro m
      unfold CloneOf.seen CloneOf.existing
      rw [show c₁.extra = none from hx, show c₁'.extra = none from hx']
      exact congrArg (·, none) (hseen m)
    have hend : outcome (if n₁.next < r.size then
          ({ c₁ with extra := some (createExtraDataAtt r n₁).1 }, (createExtraDataAtt r n₁).2, Flow.next)
          else (c₁, n₁, .next)) =
        outcome (if n₁.next < r.size then
          ({ c₁' with extra := some (createExtraDataAtt r n₁).1 }, (createExtraDataAtt r n₁).2, Flow.next)
          else (c₁', n₁, .next)) := by
      split
      · refine congrArg (Flow.next, ·) (congrArg (·, some _) ?_)
        exact congrArg Prod.fst (hsame (createExtraDataAtt r n₁).2)
      · exact congrArg (Flow.next, ·) (hsame n₁)
    cases flow with
    | stop why => exact congrArg (Flow.stop why, ·) (hsame n₁)
    | leave => exact hend
    | next => exact hend

/-- A record is shown through a clone as through a new one, whatever was done with the clone
before, exactly if no attribute of the template is in the place of `_EXTRA_DATA_` when the clone is
depopulated. -/
theorem session_reuse_iff (heapAddr : Nat → Nat) (t : Tmpl) (calls : List Call) (r : Record)
    (p : Session t) (hp : p = run (Session.step heapAddr) (Session.start t) calls)
    (hended : p.ended = false) :
    (populateTemplate heapAddr r p.clone p.notes).map outcome =
        (populateTemplate heapAddr r (cloneTemplate t.atts : Clone t)
          (p.step heapAddr .depopulate).notes).map outcome ↔
      p.zaps = false := by
  have hreusable : Reusable p.clone := by
    subst hp
    exact run_reusable t calls hended
  have hzaps := depopulateTemplate_isNone p
  have hfresh : ∀ n, populateTemplate heapAddr r (cloneTemplate t.atts : Clone t) n =
      some (populateRecord heapAddr r (cloneTemplate t.atts) n) := by
    intro n
    have hdep : depopulateTemplate (cloneTemplate t.atts : Clone t) n =
        some (cloneTemplate t.atts, { n with log := n.log ++ [] }) := rfl
    rw [populateTemplate, hdep, List.append_nil]
    rfl
  rw [hfresh]
  unfold Session.step populateTemplate
  rw [hended, if_neg Bool.false_ne_true]
  cases hdep : depopulateTemplate p.clone p.notes with
  | none =>
    rw [hdep] at hzaps
    rw [← hzaps]
    exact ⟨fun h => (nomatch h), fun h => (nomatch h)⟩
  | some out =>
    obtain ⟨c, n⟩ := out
    rw [hdep] at hzaps
    obtain ⟨-, hstale, hextra⟩ := depopulateTemplate_stale hreusable hdep
    rw [← hzaps]
    exact ⟨fun _ => rfl, fun _ => congrArg some (populateRecord_outcome r hstale hextra n)⟩

end Sessions

/-- A record without names, after one with a name. -/
theorem session_reuse_names : (populateTemplate (fun _ => 0) (zerosAt 8192 4 (by decide))
        (run (Session.step fun _ => 0) (Session.start nameList)
          [.populate (zerosAt 4096 5 (by decide))]).clone
        (run (Session.step fun _ => 0) (Session.start nameList)
          [.populate (zerosAt 4096 5 (by decide))]).notes).map outcome =
      (populateTemplate (fun _ => 0) (zerosAt 8192 4 (by decide))
        (cloneTemplate nameList.atts : Clone nameList)
        ((run (Session.step fun _ => 0) (Session.start nameList)
          [.populate (zerosAt 4096 5 (by decide))]).step (fun _ => 0) .depopulate).notes).map outcome :=
  (session_reuse_iff (fun _ => 0) nameList [.populate (zerosAt 4096 5 (by decide))]
    (zerosAt 8192 4 (by decide)) _ rfl (by decide)).2 (by decide)

/-- `{ int _EXTRA_DATA_; }` -/
def extraDataInt : Tmpl := ⟨false, .field (some extraDataAttName) (.scalar .int) .nil⟩

/-- When a clone of this template is populated again, its only attribute is taken away. -/
theorem session_reuse_not_extra_data : extraDataInt.accepted = true ∧
      (populateTemplate (fun _ => 0) (zerosAt 8192 4 (by decide))
          (run (Session.step fun _ => 0) (Session.start extraDataInt)
            [.populate (zerosAt 4096 4 (by decide))]).clone
          (run (Session.step fun _ => 0) (Session.start extraDataInt)
            [.populate (zerosAt 4096 4 (by decide))]).notes).map outcome ≠
        (populateTemplate (fun _ => 0) (zerosAt 8192 4 (by decide))
          (cloneTemplate extraDataInt.atts : Clone extraDataInt)
          ((run (Session.step fun _ => 0) (Session.start extraDataInt)
            [.populate (zerosAt 4096 4 (by decide))]).step (fun _ => 0) .depopulate).notes).map outcome :=
  ⟨by decide, by decide⟩

end Evlog.Template
