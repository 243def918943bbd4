/-
Evlog.Template.RunTheorems — what holds through a run of `populateTmpl`.

A template is populated attribute by attribute, and an attribute may be a
template again. An invariant (`RunInv`) says what holds of the loop between
two attributes of a template, what holds of the notes when a template is
entered or left, and what holds of them where the process stops. If every
step keeps it (`RunInv.Kept`), it is kept by the whole run
(`RunInv.Kept.populateAtts`), whatever the attributes are and however they
are nested.
-/
import Evlog.Template.DepopulateTheorems

namespace Evlog.Template

open Evlog.Lib Evlog.Posix

/-! ## The start of a turn -/

def startNotes (r : Record) (aligned : Bool) (base alignment : Nat) (l : Loop) : Notes :=
  if aligned then alignNextPtr r base alignment (adjustNextPerBitFields l.notes l.bfStart l.bfOffset)
  else l.notes

/-- The loop with which an attribute starts that is no bit-field. -/
def Loop.started (l : Loop) (n : Notes) : Loop := { l with notes := n, bfStart := n.next, bfOffset := 0 }

@[simp] theorem Loop.started_notes (l : Loop) (n : Notes) : (l.started n).notes = n := rfl

theorem startAtt_some (r : Record) (aligned : Bool) (base a : Nat) (l : Loop) :
    startAtt r aligned base (some a) l =
      if bytesRemaining r (startNotes r aligned base a l).next = 0 then
        ({ l.started (startNotes r aligned base a l) with
          notes := (startNotes r aligned base a l).out }, true)
      else
        (l.started (startNotes r aligned base a l), (startNotes r aligned base a l).outOfData) :=
  rfl

theorem startAtt_none (r : Record) (aligned : Bool) (base : Nat) (l : Loop) :
    startAtt r aligned base none l =
      if bytesRemaining r l.notes.next = 0 then ({ l with notes := l.notes.out }, true)
      else (l, l.notes.outOfData) :=
  rfl

/-- How the turn of an attribute starts that is no bit-field. -/
theorem startAtt_cases (r : Record) (aligned : Bool) (base a : Nat) (l : Loop) :
    (∃ n₁ : Notes, n₁.next = (startNotes r aligned base a l).next ∧
        n₁.log = (startNotes r aligned base a l).log ∧
        startAtt r aligned base (some a) l =
          ({ l.started (startNotes r aligned base a l) with notes := n₁ }, true)) ∨
      (bytesRemaining r (startNotes r aligned base a l).next ≠ 0 ∧
        (startNotes r aligned base a l).outOfData = false ∧
        startAtt r aligned base (some a) l = (l.started (startNotes r aligned base a l), false)) := by
  rw [startAtt_some]
  by_cases hleft : bytesRemaining r (startNotes r aligned base a l).next = 0
  · rw [if_pos hleft]
    exact .inl ⟨(startNotes r aligned base a l).out, rfl, rfl, rfl⟩
  · rw [if_neg hleft]
    cases hout : (startNotes r aligned base a l).outOfData with
    | true => exact .inl ⟨startNotes r aligned base a l, rfl, rfl, rfl⟩
    | false => exact .inr ⟨hleft, rfl, rfl⟩

/-! ## The log grows -/

def Grows (n n' : Notes) : Prop := n.log <+: n'.log

def Adds (P : Event → Prop) (n n' : Notes) : Prop := ∃ es, n'.log = n.log ++ es ∧ ∀ e ∈ es, P e

section Grows

variable {r : Record} {n n' n'' : Notes} {P Q : Event → Prop}

theorem Grows.refl (n : Notes) : Grows n n := List.prefix_refl _

theorem Grows.trans (h : Grows n n') (h' : Grows n' n'') : Grows n n'' := List.IsPrefix.trans h h'

theorem Grows.of_eq (h : n'.log = n.log) : Grows n n' := by
  rw [Grows, h]

theorem Grows.mem (h : Grows n n') {e : Event} (he : e ∈ n.log) : e ∈ n'.log :=
  List.IsPrefix.subset h he

theorem grows_log (es : List Event) : Grows n { n with log := n.log ++ es } := List.prefix_append _ _

theorem Grows.emit (h : Grows n n') (e : Event) : Grows n (n'.emit e) :=
  h.trans (List.prefix_append _ _)

theorem Adds.grows (h : Adds P n n') : Grows n n' := by
  obtain ⟨es, hlog, -⟩ := h
  rw [Grows, hlog]
  exact List.prefix_append _ _

theorem Adds.of_eq (h : n'.log = n.log) : Adds P n n' := ⟨[], by rw [h, List.append_nil], by simp⟩

theorem Adds.refl (n : Notes) : Adds P n n := .of_eq rfl

theorem Adds.trans (h : Adds P n n') (h' : Adds P n' n'') : Adds P n n'' := by
  obtain ⟨es, hlog, hes⟩ := h
  obtain ⟨es', hlog', hes'⟩ := h'
  exact ⟨es ++ es', by rw [hlog', hlog, List.append_assoc], List.forall_mem_append.2 ⟨hes, hes'⟩⟩

theorem Adds.mono (hPQ : ∀ e, P e → Q e) (h : Adds P n n') : Adds Q n n' := by
  obtain ⟨es, hlog, hes⟩ := h
  exact ⟨es, hlog, fun e he => hPQ e (hes e he)⟩

theorem Adds.forall (h : Adds P n n') (hPQ : ∀ e, P e → Q e) (hn : ∀ e ∈ n.log, Q e) :
    ∀ e ∈ n'.log, Q e := by
  obtain ⟨es, hlog, hes⟩ := h
  rw [hlog]
  exact List.forall_mem_append.2 ⟨hn, fun e he => hPQ e (hes e he)⟩

theorem adds_emit {e : Event} (he : P e) : Adds P n (n.emit e) := ⟨[e], rfl, by simpa using he⟩

theorem Adds.emit (h : Adds P n n') {e : Event} (he : P e) : Adds P n (n'.emit e) :=
  h.trans (adds_emit he)

theorem adds_setNext (p : Nat) : Adds Event.Plain n (n.setNext p) := ⟨[.next p], rfl, by simp [Event.Plain]⟩

theorem Adds.setNext (h : Adds Event.Plain n n') (p : Nat) : Adds Event.Plain n (n'.setNext p) :=
  h.trans (adds_setNext p)

theorem Adds.setDimension2 (h : Adds P n n') (dim : Dimension) (count : Int) (s : AttState) :
    Adds P n (setDimension2 dim count s n').2 :=
  h.trans (.of_eq (setDimension2_log ..))

theorem adds_collectString : Adds Event.Plain n (collectString r n).1 := by
  unfold collectString
  dsimp only
  split
  · exact adds_emit trivial
  · exact (adds_emit trivial).setNext _

theorem adds_collectWstring : Adds Event.Plain n (collectWstring r n).1 := by
  unfold collectWstring
  dsimp only
  split
  · exact adds_emit trivial
  · exact (adds_emit trivial).setNext _

theorem adds_collectAll {collect : Notes → Notes × Option Nat}
    (hc : ∀ n, Adds Event.Plain n (collect n).1) (nel : Nat) : Adds Event.Plain n (collectAll collect nel n).1 := by
  induction nel generalizing n with
  | zero => exact .refl n
  | succ nel ih =>
    unfold collectAll
    have := hc n
    split
    · rename_i heq
      rwa [heq] at this
    · rename_i heq
      rw [heq] at this
      exact this.trans ih

theorem adds_convScalarArray (owner : List Nat) (ty : BaseType) (p nel : Nat) :
    Adds Event.Plain n (convScalarArray r owner ty p nel n).1 :=
  convScalarArray_log owner ty p nel

theorem adds_convWstring (owner : List Nat) (p len : Nat) :
    Adds Event.Plain n (convWstring r owner p len n).1 := by
  unfold convWstring
  split
  · exact (adds_emit trivial).emit trivial
  · exact adds_emit trivial

theorem adds_convWstringArray (owner : List Nat) (p len : Nat) :
    Adds Event.Plain n (convWstringArray r owner p len n).1 := by
  unfold convWstringArray
  split
  · exact (adds_emit trivial).emit trivial
  · exact .refl n

theorem adds_populateStrings (dim : Dimension) (nel : Int) (s : AttState) :
    Adds Event.Plain n (populateStrings r dim nel s n).2.1 := by
  unfold populateStrings
  have h := adds_collectAll (n := n) (fun _ => adds_collectString (r := r)) nel.toNat
  dsimp only
  split
  · exact (h.setDimension2 ..).emit trivial
  · exact h.setDimension2 ..

theorem adds_populateWstrings (owner : List Nat) (dim : Dimension) (nel : Int) (s : AttState) :
    Adds Event.Plain n (populateWstrings r owner dim nel s n).2.1 := by
  unfold populateWstrings
  have h := adds_collectAll (n := n) (fun _ => adds_collectWstring (r := r)) nel.toNat
  dsimp only
  split
  · exact ((h.setDimension2 ..).trans (adds_convWstringArray ..)).emit trivial
  · exact h.setDimension2 ..

theorem adds_populateScalars (owner : List Nat) (ty : BaseType) (dim : Dimension) (nel : Int)
    (s : AttState) : Adds Event.Plain n (populateScalars r owner ty dim nel s n).2.1 := by
  obtain ⟨n₁, -, hlog, -, heq⟩ := populateScalars_eq (r := r) (n := n) owner ty dim nel s rfl rfl
  have hadds : Adds Event.Plain n n₁ := .of_eq hlog
  rw [heq]
  split
  · exact ((hadds.trans (adds_convScalarArray ..)).setNext _).emit trivial
  · exact hadds

theorem adds_populateElems (owner : List Nat) (ty : BaseType) (dim : Dimension) (nel : Int)
    (s : AttState) : Adds Event.Plain n (populateElems r owner ty dim nel s n).2.1 := by
  cases ty with
  | string => exact adds_populateStrings ..
  | wstring => exact adds_populateWstrings ..
  | _ => exact adds_populateScalars ..

theorem grows_populateArray (heapAddr : Nat → Nat) (owner : List Nat) (ty : BaseType)
    (dim : Dimension) (delim : Option Delimiter) (env : Env) (s : AttState) :
    Grows n (populateArray heapAddr r owner ty dim delim env s n).2.1 := by
  obtain ⟨s₁, n₁, -, -, hlog, hcases⟩ :=
    populateArray_cases (r := r) (n := n) heapAddr owner ty dim delim env s
  have h : Grows n n₁ := .of_eq hlog
  rcases hcases with ⟨-, heq⟩ | ⟨d, -, ⟨-, -, heq⟩ | ⟨-, heq⟩⟩
  · rw [heq]
    exact h
  · rw [heq]
    exact h.emit _
  · rw [heq]
    exact (h.trans (adds_populateElems ..).grows).emit _

theorem adds_populateValue (owner : List Nat) (ty : BaseType) (s : AttState) :
    Adds Event.Plain n (populateValue r owner ty s n).2.1 := by
  cases ty with
  | string =>
    unfold populateValue
    have h := adds_collectString (r := r) (n := n)
    dsimp only
    split
    · rename_i heq
      rwa [heq] at h
    · rename_i heq
      rw [heq] at h
      exact h.emit trivial
  | wstring =>
    unfold populateValue
    have h := adds_collectWstring (r := r) (n := n)
    dsimp only
    split
    · rename_i heq
      rwa [heq] at h
    · rename_i heq
      rw [heq] at h
      exact (h.trans (adds_convWstring ..)).emit trivial
  | _ =>
    unfold populateValue
    dsimp only
    split
    · exact .refl n
    · exact ((adds_emit trivial).setNext _).emit trivial

theorem adds_alignNextPtr (base alignment : Nat) : Adds Event.Plain n (alignNextPtr r base alignment n) := by
  unfold alignNextPtr
  dsimp only
  split <;> exact adds_setNext _

theorem adds_enforceMinSize (base minSize : Nat) : Adds Event.Plain n (enforceMinSize r base minSize n) := by
  unfold enforceMinSize
  dsimp only
  split
  · split <;> exact adds_setNext _
  · exact .refl n

theorem adds_adjustNext (bfStart bfOffset : Nat) :
    Adds Event.Plain n (adjustNextPerBitFields n bfStart bfOffset) := adds_setNext _

theorem adds_finishTmpl (base alignment minSize : Nat) (l : Loop) :
    Adds Event.Plain l.notes (finishTmpl r base alignment minSize l) :=
  ((adds_adjustNext ..).trans (adds_alignNextPtr ..)).trans (adds_enforceMinSize ..)

theorem adds_startNotes (aligned : Bool) (base alignment : Nat) (l : Loop) :
    Adds Event.Plain l.notes (startNotes r aligned base alignment l) := by
  unfold startNotes
  split
  · exact (adds_adjustNext ..).trans (adds_alignNextPtr ..)
  · exact .refl _

theorem adds_storageUnit (base : Nat) (ty : BaseType) (width : Nat) (l : Loop) :
    Adds Event.Plain l.notes (storageUnit r base ty width l).notes := by
  unfold storageUnit
  split
  · exact (adds_adjustNext ..).trans (adds_alignNextPtr ..)
  · exact .refl _

theorem adds_takeBits (base : Nat) (ty : BaseType) (width : Nat) (name : Option String)
    (s : AttState) (l : Loop) : Adds Event.Plain l.notes (takeBits r base ty width name s l).2.notes := by
  unfold takeBits
  have h : Adds Event.Plain l.notes (if name.isSome then
      extractDataFromBitField r base ty l.bfStart l.bfOffset width s l.notes
      else (s, l.notes)).2 := by
    split
    · exact ((adds_emit trivial).emit trivial).emit trivial
    · exact .refl _
  dsimp only
  split
  · exact h.setNext _
  · exact h

def Event.NoArray : Event → Prop
  | .array _ => False
  | _ => True

theorem Event.Plain.noArray {e : Event} (h : e.Plain) : e.NoArray := by
  cases e with
  | array a => exact h
  | _ => trivial

/-- Before anything is done with a bit-field, it is noted. -/
theorem adds_noted (base : Nat) (ty : BaseType) (width : Nat) (name : Option String)
    (s : AttState) (l : Loop) :
    Adds Event.Plain (l.noted base ty width).notes (populateBitField r base ty width name s l).2.notes := by
  rw [populateBitField_eq]
  have hout (l' : Loop) : Adds Event.Plain l'.notes (outOfData r l').notes := adds_setNext _
  have h := adds_storageUnit (r := r) base ty width (l.noted base ty width)
  split
  · split
    · exact hout _
    · exact .refl _
  · dsimp only
    split
    · exact h.trans (hout _)
    · exact h.trans (adds_takeBits ..)

theorem adds_populateBitField (base : Nat) (ty : BaseType) (width : Nat) (name : Option String)
    (s : AttState) (l : Loop) :
    Adds Event.NoArray l.notes (populateBitField r base ty width name s l).2.notes :=
  .trans (adds_emit (e := .bitField ⟨base, l.notes.next, l.bfStart, l.bfOffset, ty, width⟩) trivial)
    ((adds_noted base ty width name s l).mono fun _ => Event.Plain.noArray)

theorem grows_populateBitField (base : Nat) (ty : BaseType) (width : Nat) (name : Option String)
    (s : AttState) (l : Loop) : Grows l.notes (populateBitField r base ty width name s l).2.notes :=
  (adds_populateBitField ..).grows

end Grows

/-! ## Which templates are meant -/

structure Shape where
  /-- Whether templates may be aligned, or not. -/
  tmpl : Bool → Prop
  field : Bool → Option String → Field → Prop
  /-- A struct may stand in a template. -/
  nests : Bool → Bool → Prop
  /-- The dimension of an array of structs. -/
  dim : Bool → DimType → Prop

def Atts.Has (k : Shape) : Bool → Atts → Prop
  | _, .nil => True
  | aligned, .field name f rest => k.field aligned name f ∧ rest.Has k aligned
  | aligned, .struct _ al sub rest =>
    (k.nests aligned al ∧ k.tmpl al) ∧ sub.Has k al ∧ rest.Has k aligned
  | aligned, .structs _ al sub dim _ rest =>
    (k.nests aligned al ∧ k.tmpl al ∧ k.dim aligned dim.type) ∧ sub.Has k al ∧ rest.Has k aligned

def anyShape : Shape := ⟨fun _ => True, fun _ _ _ => True, fun _ _ => True, fun _ _ => True⟩

theorem Atts.has_any (aligned : Bool) (atts : Atts) : atts.Has anyShape aligned := by
  induction atts generalizing aligned with
  | nil => trivial
  | field name f rest ih => exact ⟨trivial, ih aligned⟩
  | struct name al sub rest ihsub ihrest => exact ⟨⟨trivial, trivial⟩, ihsub al, ihrest aligned⟩
  | structs name al sub dim delim rest ihsub ihrest =>
    exact ⟨⟨trivial, trivial, trivial⟩, ihsub al, ihrest aligned⟩

/-! ## Invariants -/

/-- What holds of the loop of a template, of the notes between templates,
and of the notes where the process stops. -/
structure RunInv where
  loop : Bool → Nat → Loop → Prop
  notes : Notes → Prop
  stop : Notes → Prop

def RunInv.after (I : RunInv) (aligned : Bool) (base : Nat) (l : Loop) : Flow → Prop
  | .stop _ => I.stop l.notes
  | _ => I.loop aligned base l

def RunInv.done (I : RunInv) (n : Notes) : Flow → Prop
  | .stop _ => I.stop n
  | _ => I.notes n

/-- Every step keeps the invariant. -/
structure RunInv.Kept (I : RunInv) (k : Shape) (heapAddr : Nat → Nat) (r : Record) : Prop where
  enter : ∀ {aligned n}, k.tmpl aligned → I.notes n → I.loop aligned n.next ⟨n, n.next, 0, []⟩
  env : ∀ {aligned base l} (env : Env), I.loop aligned base l → I.loop aligned base { l with env }
  out : ∀ {aligned base l}, I.loop aligned base l →
    I.loop aligned base { l with notes := l.notes.out }
  start : ∀ {aligned base l} (a : Nat), I.loop aligned base l → I.notes (startNotes r aligned base a l)
  /-- The loop goes on, or is left, after an attribute that is no bit-field. -/
  resume : ∀ {aligned base n₀ n} (l : Loop), I.loop aligned base l → I.notes n₀ → Grows n₀ n →
    I.notes n → I.loop aligned base { l.started n₀ with notes := n } ∧
      I.loop aligned base (nextAttr aligned { l.started n₀ with notes := n })
  value : ∀ {aligned name n} (owner : List Nat) (ty : BaseType) (s : AttState),
    k.field aligned name (.scalar ty) → I.notes n → I.notes (populateValue r owner ty s n).2.1
  array : ∀ {aligned name n} (owner : List Nat) (ty : BaseType) (dim : Dimension)
    (delim : Option Delimiter) (env : Env) (s : AttState), k.field aligned name (.array ty dim delim) →
    I.notes n →
    I.done (populateArray heapAddr r owner ty dim delim env s n).2.1
      (populateArray heapAddr r owner ty dim delim env s n).2.2
  bits : ∀ {aligned base l} (ty : BaseType) (width : Nat) (name : Option String) (s : AttState),
    k.field aligned name (.bitField ty width) → I.loop aligned base l →
    I.loop aligned base (populateBitField r base ty width name s l).2
  shared : ∀ {n n'}, I.notes n → n'.next = n.next → n'.log = n.log → I.notes n'
  struct : ∀ {n₀ n}, I.notes n₀ → Grows n₀ n → I.notes n →
    I.notes (n.emit (.struct n₀.next (n.next - n₀.next)))
  frees : ∀ {n es}, I.notes n → Frees es →
    I.notes { n with log := n.log ++ es }
  finish : ∀ {aligned base l} (alignment minSize : Nat), I.loop aligned base l →
    I.notes (if aligned then finishTmpl r base alignment minSize l else l.notes)
  stop : ∀ {n}, I.notes n → I.stop n

/-! ## A template, and its attributes -/

section Runs

variable {I : RunInv} {k : Shape} {heapAddr : Nat → Nat} {r : Record}

def endNotes (r : Record) (aligned : Bool) (base alignment minSize : Nat) (l : Loop) : Notes :=
  if aligned then finishTmpl r base alignment minSize l else l.notes

def Flow.goes : Flow → Bool
  | .stop _ => false
  | _ => true

theorem populateTmpl_stop {α : Type} {aligned : Bool} {alignment minSize : Nat}
    {body : Nat → α → Loop → α × Loop × Flow} {c : CloneOf α} {n : Notes} {why : Stop}
    (h : (body n.next c.atts ⟨n, n.next, 0, []⟩).2.2 = .stop why) :
    populateTmpl r aligned alignment minSize body c n =
      ({ c with atts := (body n.next c.atts ⟨n, n.next, 0, []⟩).1 },
        (body n.next c.atts ⟨n, n.next, 0, []⟩).2.1.notes,
        (body n.next c.atts ⟨n, n.next, 0, []⟩).2.1.env, .stop why) := by
  unfold populateTmpl
  dsimp only
  generalize body n.next c.atts ⟨n, n.next, 0, []⟩ = out at *
  obtain ⟨v, l, flow⟩ := out
  dsimp only at h
  subst h
  rfl

theorem populateTmpl_goes {α : Type} {aligned : Bool} {alignment minSize : Nat}
    {body : Nat → α → Loop → α × Loop × Flow} {c : CloneOf α} {n : Notes}
    (h : (body n.next c.atts ⟨n, n.next, 0, []⟩).2.2.goes = true) :
    populateTmpl r aligned alignment minSize body c n =
      ({ c with
          atts := (body n.next c.atts ⟨n, n.next, 0, []⟩).1
          dataSize :=
            (endNotes r aligned n.next alignment minSize
              (body n.next c.atts ⟨n, n.next, 0, []⟩).2.1).next - n.next
          populated := true },
        endNotes r aligned n.next alignment minSize (body n.next c.atts ⟨n, n.next, 0, []⟩).2.1,
        (body n.next c.atts ⟨n, n.next, 0, []⟩).2.1.env, .next) := by
  unfold populateTmpl
  dsimp only
  generalize body n.next c.atts ⟨n, n.next, 0, []⟩ = out at *
  obtain ⟨v, l, flow⟩ := out
  cases flow with
  | stop why => cases h
  | next => rfl
  | leave => rfl

theorem Flow.goes_or_stop (flow : Flow) : flow.goes = true ∨ ∃ why, flow = .stop why := by
  cases flow with
  | stop why => exact .inr ⟨why, rfl⟩
  | next => exact .inl rfl
  | leave => exact .inl rfl

theorem RunInv.after_goes {aligned : Bool} {base : Nat} {l : Loop} {flow : Flow}
    (hgoes : flow.goes = true) (h : I.after aligned base l flow) : I.loop aligned base l := by
  cases flow with
  | stop why => cases hgoes
  | next => exact h
  | leave => exact h

theorem RunInv.done_goes {n : Notes} {flow : Flow} (hgoes : flow.goes = true) (h : I.done n flow) :
    I.notes n := by
  cases flow with
  | stop why => cases hgoes
  | next => exact h
  | leave => exact h

theorem RunInv.Kept.done (hI : I.Kept k heapAddr r) {n : Notes} {flow : Flow} (h : I.notes n) :
    I.done n flow := by
  cases flow with
  | stop why => exact hI.stop h
  | next => exact h
  | leave => exact h

theorem RunInv.Kept.populateTmpl {α : Type} (hI : I.Kept k heapAddr r) {aligned : Bool}
    (ht : k.tmpl aligned) (alignment minSize : Nat) {body : Nat → α → Loop → α × Loop × Flow}
    (hbody : ∀ base v l, I.loop aligned base l → Grows l.notes (body base v l).2.1.notes ∧
      I.after aligned base (body base v l).2.1 (body base v l).2.2)
    (c : CloneOf α) {n : Notes} (h : I.notes n) :
    Grows n (populateTmpl r aligned alignment minSize body c n).2.1 ∧
      I.done (populateTmpl r aligned alignment minSize body c n).2.1
        (populateTmpl r aligned alignment minSize body c n).2.2.2 := by
  obtain ⟨hgrows, hafter⟩ := hbody n.next c.atts ⟨n, n.next, 0, []⟩ (hI.enter ht h)
  rcases Flow.goes_or_stop (body n.next c.atts ⟨n, n.next, 0, []⟩).2.2 with hgoes | ⟨why, hstop⟩
  · rw [populateTmpl_goes hgoes]
    refine ⟨hgrows.trans ?_, hI.finish alignment minSize (I.after_goes hgoes hafter)⟩
    unfold endNotes
    split
    · exact (adds_finishTmpl ..).grows
    · exact .refl _
  · rw [populateTmpl_stop hstop]
    rw [hstop] at hafter
    exact ⟨hgrows, hafter⟩

theorem populateArrayOfStructs_stop {α : Type} {run : Nat → Notes → CloneOf α × Notes × Env × Flow}
    {free : Nat → CloneOf α → Option (List Event)} {nel ns : Nat} {n : Notes} {why : Stop}
    (h : (run ns n).2.2.2 = .stop why) :
    populateArrayOfStructs run free (nel + 1) ns n = ([(run ns n).1], (run ns n).2.1, .stop why) := by
  rw [populateArrayOfStructs]
  generalize run ns n = out at *
  obtain ⟨st, n', env, flow⟩ := out
  dsimp only at h
  subst h
  rfl

theorem populateArrayOfStructs_goes {α : Type} {run : Nat → Notes → CloneOf α × Notes × Env × Flow}
    {free : Nat → CloneOf α → Option (List Event)} {nel ns : Nat} {n : Notes}
    (h : (run ns n).2.2.2.goes = true) :
    populateArrayOfStructs run free (nel + 1) ns n =
      if (run ns n).1.dataSize = 0 then
        match free ns (run ns n).1 with
        | none => ([], (run ns n).2.1, .stop .undefined)
        | some frees => ([], { (run ns n).2.1 with log := (run ns n).2.1.log ++ frees }, .next)
      else if (run ns n).2.1.outOfData then ([(run ns n).1], (run ns n).2.1, .next)
      else
        ((run ns n).1 :: (populateArrayOfStructs run free nel (ns + 1) (run ns n).2.1).1,
          (populateArrayOfStructs run free nel (ns + 1) (run ns n).2.1).2) := by
  rw [populateArrayOfStructs]
  generalize run ns n = out at *
  obtain ⟨st, n', env, flow⟩ := out
  cases flow with
  | stop why => cases h
  | next => rfl
  | leave => rfl

theorem RunInv.Kept.populateArrayOfStructs {α : Type} (hI : I.Kept k heapAddr r)
    {run : Nat → Notes → CloneOf α × Notes × Env × Flow}
    {free : Nat → CloneOf α → Option (List Event)}
    (hrun : ∀ ns n, I.notes n → Grows n (run ns n).2.1 ∧ I.done (run ns n).2.1 (run ns n).2.2.2)
    (hfree : ∀ ns c es, free ns c = some es → Frees es) (nel ns : Nat) {n : Notes} (h : I.notes n) :
    Grows n (populateArrayOfStructs run free nel ns n).2.1 ∧
      I.done (populateArrayOfStructs run free nel ns n).2.1
        (populateArrayOfStructs run free nel ns n).2.2 := by
  induction nel generalizing ns n with
  | zero => exact ⟨.refl n, h⟩
  | succ nel ih =>
    obtain ⟨hgrows, hdone⟩ := hrun ns n h
    rcases Flow.goes_or_stop (run ns n).2.2.2 with hgoes | ⟨why, hstop⟩
    · have hn' := I.done_goes hgoes hdone
      rw [populateArrayOfStructs_goes hgoes]
      split
      · cases hfrees : free ns (run ns n).1 with
        | none => exact ⟨hgrows, hI.stop hn'⟩
        | some frees =>
          exact ⟨hgrows.trans (grows_log _), hI.frees hn' (hfree _ _ _ hfrees)⟩
      · split
        · exact ⟨hgrows, hn'⟩
        · exact ⟨hgrows.trans (ih (ns + 1) hn').1, (ih (ns + 1) hn').2⟩
    · rw [populateArrayOfStructs_stop hstop]
      rw [hstop] at hdone
      exact ⟨hgrows, hdone⟩

theorem RunInv.Kept.found (hI : I.Kept k heapAddr r) {aligned : Bool} {base : Nat} {l : Loop}
    (name : Option String) (ty : BaseType) (s : AttState) (h : I.loop aligned base l) :
    I.loop aligned base (l.found name ty s) := by
  unfold Loop.found
  split
  · split
    · exact hI.env _ h
    · exact h
  · exact h

theorem found_notes (l : Loop) (name : Option String) (ty : BaseType) (s : AttState) :
    (l.found name ty s).notes = l.notes := by
  unfold Loop.found
  split
  · split <;> rfl
  · rfl

theorem found_bfStart (l : Loop) (name : Option String) (ty : BaseType) (s : AttState) :
    (l.found name ty s).bfStart = l.bfStart := by
  unfold Loop.found
  split
  · split <;> rfl
  · rfl

theorem found_bfOffset (l : Loop) (name : Option String) (ty : BaseType) (s : AttState) :
    (l.found name ty s).bfOffset = l.bfOffset := by
  unfold Loop.found
  split
  · split <;> rfl
  · rfl

theorem nextAttr_notes (aligned : Bool) (l : Loop) : (nextAttr aligned l).notes = l.notes := by
  unfold nextAttr
  split <;> rfl

/-- The end of a turn, after what became of the attribute. -/
def turnEnd (aligned : Bool) (name : Option String) (ty : BaseType) (l : Loop) :
    AttState × Notes × Flow → AttState × Loop × Flow
  | (s, n, .next) => (s, (nextAttr aligned { l with notes := n }).found name ty s, .next)
  | (s, n, flow) => (s, { l with notes := n }, flow)

theorem populateField_scalar (owner : List Nat) (aligned : Bool) (base : Nat) (name : Option String)
    (ty : BaseType) (s : AttState) (l : Loop) :
    populateField heapAddr r owner aligned base name (.scalar ty) s l =
      match startAtt r aligned base (some (archTypeInfo r.arch ty).align) l with
      | (l, true) => (s, l, .leave)
      | (l, false) =>
        turnEnd aligned name ty l
          (populateValue r owner ty { s with rawdata := .data (r.addr + l.notes.next) } l.notes) :=
  rfl

theorem populateField_array (owner : List Nat) (aligned : Bool) (base : Nat) (name : Option String)
    (ty : BaseType) (dim : Dimension) (delim : Option Delimiter) (s : AttState) (l : Loop) :
    populateField heapAddr r owner aligned base name (.array ty dim delim) s l =
      match startAtt r aligned base (some (archTypeInfo r.arch ty).align) l with
      | (l, true) => (s, l, .leave)
      | (l, false) =>
        turnEnd aligned name ty l
          (populateArray heapAddr r owner ty dim delim l.env
            { s with rawdata := .data (r.addr + l.notes.next) } l.notes) :=
  rfl

theorem RunInv.Kept.turnEnd (hI : I.Kept k heapAddr r) {aligned : Bool} {base : Nat}
    (name : Option String) (ty : BaseType) {l : Loop} {n₀ : Notes} (h : I.loop aligned base l)
    (hn₀ : I.notes n₀) (out : AttState × Notes × Flow) (hgrows : Grows n₀ out.2.1)
    (hdone : I.done out.2.1 out.2.2) :
    Grows n₀ (turnEnd aligned name ty (l.started n₀) out).2.1.notes ∧
      I.after aligned base (turnEnd aligned name ty (l.started n₀) out).2.1
        (turnEnd aligned name ty (l.started n₀) out).2.2 := by
  obtain ⟨s, n, flow⟩ := out
  cases flow with
  | stop why => exact ⟨hgrows, hdone⟩
  | leave => exact ⟨hgrows, (hI.resume l h hn₀ hgrows hdone).1⟩
  | next =>
    dsimp only [Template.turnEnd]
    rw [found_notes, nextAttr_notes]
    exact ⟨hgrows, hI.found _ _ _ (hI.resume l h hn₀ hgrows hdone).2⟩

/-- Where an attribute starts, the loop is left or goes on. -/
theorem RunInv.Kept.startAtt (hI : I.Kept k heapAddr r) {aligned : Bool} {base : Nat} {l : Loop}
    (a : Nat) (h : I.loop aligned base l) :
    (∃ l', startAtt r aligned base (some a) l = (l', true) ∧ Grows l.notes l'.notes ∧
        I.after aligned base l' .leave) ∨
      startAtt r aligned base (some a) l = (l.started (startNotes r aligned base a l), false) ∧
        I.notes (startNotes r aligned base a l) ∧ Grows l.notes (startNotes r aligned base a l) := by
  have hn₀ := hI.start a h
  have hgrows := (adds_startNotes (r := r) aligned base a l).grows
  rcases startAtt_cases r aligned base a l with ⟨n₁, hnext, hlog, heq⟩ | ⟨-, -, heq⟩
  · exact .inl ⟨_, heq, hgrows.trans (.of_eq hlog),
      (hI.resume l h hn₀ (.of_eq hlog) (hI.shared hn₀ hnext hlog)).1⟩
  · exact .inr ⟨heq, hn₀, hgrows⟩

/-- A turn for an attribute that is no struct keeps the invariant. -/
theorem RunInv.Kept.populateField (hI : I.Kept k heapAddr r) (owner : List Nat) {aligned : Bool}
    {base : Nat} {name : Option String} {f : Field} (s : AttState) {l : Loop}
    (hf : k.field aligned name f) (h : I.loop aligned base l) :
    Grows l.notes (populateField heapAddr r owner aligned base name f s l).2.1.notes ∧
      I.after aligned base (populateField heapAddr r owner aligned base name f s l).2.1
        (populateField heapAddr r owner aligned base name f s l).2.2 := by
  cases f with
  | const => exact ⟨.refl _, h⟩
  | bitField ty width =>
    unfold Template.populateField
    dsimp only
    rw [startAtt_none]
    by_cases hleft : bytesRemaining r l.notes.next = 0
    · rw [if_pos hleft]
      exact ⟨.of_eq rfl, hI.out h⟩
    · rw [if_neg hleft]
      cases hout : l.notes.outOfData with
      | true => exact ⟨.refl _, h⟩
      | false =>
        dsimp only
        rw [found_notes]
        exact ⟨grows_populateBitField .., hI.found _ _ _ (hI.bits ty width name _ hf h)⟩
  | scalar ty =>
    rw [populateField_scalar]
    generalize (archTypeInfo r.arch ty).align = a
    rcases hI.startAtt a h with ⟨l', heq, hleft⟩ | ⟨heq, hn₀, hgrows⟩
    · rw [heq]
      exact hleft
    · rw [heq]
      have hend := hI.turnEnd name ty h hn₀
        (populateValue r owner ty
          { s with rawdata := .data (r.addr + (startNotes r aligned base a l).next) } _)
        (adds_populateValue ..).grows (hI.done (hI.value owner ty _ hf hn₀))
      exact ⟨hgrows.trans hend.1, hend.2⟩
  | array ty dim delim =>
    rw [populateField_array]
    generalize (archTypeInfo r.arch ty).align = a
    rcases hI.startAtt a h with ⟨l', heq, hleft⟩ | ⟨heq, hn₀, hgrows⟩
    · rw [heq]
      exact hleft
    · rw [heq]
      have hend := hI.turnEnd name ty h hn₀
        (populateArray heapAddr r owner ty dim delim l.env
          { s with rawdata := .data (r.addr + (startNotes r aligned base a l).next) } _)
        (grows_populateArray ..) (hI.array owner ty dim delim _ _ hf hn₀)
      exact ⟨hgrows.trans hend.1, hend.2⟩

/-! ## All attributes -/

def populateStruct (heapAddr : Nat → Nat) (r : Record) (al : Bool) (sub : Atts) (path : List Nat)
    (c : CloneOf (Vals sub)) (n : Notes) : CloneOf (Vals sub) × Notes × Env × Flow :=
  populateTmpl r al (tmAlignment al sub) sub.minSize
    (fun base v l => populateAtts heapAddr r al sub 0 path base v l) c n

/-- The rest of the attributes comes after a turn, if the loop goes on. -/
def andThen {α β : Type} (rest : Loop → β × Loop × Flow) (v : β) :
    α × Loop × Flow → (α × β) × Loop × Flow
  | (st, l, .next) => ((st, (rest l).1), (rest l).2)
  | (st, l, flow) => ((st, v), l, flow)

theorem populateAtts_field (aligned : Bool) (name : Option String) (f : Field) (rest : Atts)
    (i : Nat) (path : List Nat) (base : Nat) (v : Vals (.field name f rest)) (l : Loop) :
    populateAtts heapAddr r aligned (.field name f rest) i path base v l =
      andThen (populateAtts heapAddr r aligned rest (i + 1) path base v.2) v.2
        (populateField heapAddr r (i :: path) aligned base name f v.1 l) := by
  obtain ⟨s, v⟩ := v
  rw [populateAtts]
  generalize populateField heapAddr r (i :: path) aligned base name f s l = out
  obtain ⟨s', l', flow⟩ := out
  cases flow <;> rfl

def structEnd (aligned : Bool) (name : String) {sub : Atts} (s : AttState) (l : Loop) :
    CloneOf (Vals sub) × Notes × Env × Flow →
      (AttState × Option (CloneOf (Vals sub))) × Loop × Flow
  | (c, n, _, .stop why) => ((s, some c), { l with notes := n }, .stop why)
  | (c, n, env, _) =>
    (((setStruct aligned name c.dataSize env s { l with notes := n }).1, some c),
      (setStruct aligned name c.dataSize env s { l with notes := n }).2, .next)

theorem populateAtts_struct (aligned : Bool) (name : String) (al : Bool) (sub rest : Atts) (i : Nat)
    (path : List Nat) (base : Nat) (v : Vals (.struct name al sub rest)) (l : Loop) :
    populateAtts heapAddr r aligned (.struct name al sub rest) i path base v l =
      match startAtt r aligned base (some (tmAlignment al sub)) l with
      | (l, true) => (v, l, .leave)
      | (l, false) =>
        andThen (populateAtts heapAddr r aligned rest (i + 1) path base v.2) v.2
          (structEnd aligned name { v.1.1 with rawdata := .data (r.addr + l.notes.next) } l
            (populateStruct heapAddr r al sub (i :: path) (v.1.2.getD (cloneTemplate sub))
              l.notes)) := by
  obtain ⟨⟨s, st⟩, v⟩ := v
  rw [populateAtts]
  generalize startAtt r aligned base (some (tmAlignment al sub)) l = out
  obtain ⟨l, leaves⟩ := out
  cases leaves with
  | true => rfl
  | false =>
    dsimp only
    change (match populateStruct heapAddr r al sub (i :: path) (st.getD (cloneTemplate sub)) l.notes with
      | (c, n, _, .stop why) => _
      | (c, n, env, _) => _) = _
    generalize populateStruct heapAddr r al sub (i :: path) (st.getD (cloneTemplate sub)) l.notes = out
    obtain ⟨c, n, env, flow⟩ := out
    cases flow <;> rfl

def structsTurn (heapAddr : Nat → Nat) (r : Record) (aligned al : Bool) (sub : Atts) (dim : Dimension)
    (delim : Option Delimiter) (path : List Nat) (s : AttState) (list : List (CloneOf (Vals sub)))
    (l : Loop) : (AttState × List (CloneOf (Vals sub))) × Loop × Flow :=
  match structsExpected heapAddr r dim delim l.env s l.notes with
  | (s, n, none) => ((s, list), { l with notes := n }, .stop .assertion)
  | (s, n, some nel) =>
    if dim.type.fromAtt ∧ nel ≤ 0 then ((s, list), nextAttr aligned { l with notes := n }, .next)
    else
      match populateArrayOfStructs
          (fun ns n => populateStruct heapAddr r al sub (ns :: path) (cloneTemplate sub) n)
          (freeStruct sub path) nel.toNat 0 n with
      | (list, n, .stop why) => ((s, list), { l with notes := n }, .stop why)
      | (list, n, _) =>
        (((setList dim l.notes.next list.length s n).1, list),
          nextAttr aligned { l with notes := (setList dim l.notes.next list.length s n).2 }, .next)

theorem populateAtts_structs (aligned : Bool) (name : String) (al : Bool) (sub : Atts)
    (dim : Dimension) (delim : Option Delimiter) (rest : Atts) (i : Nat) (path : List Nat)
    (base : Nat) (v : Vals (.structs name al sub dim delim rest)) (l : Loop) :
    populateAtts heapAddr r aligned (.structs name al sub dim delim rest) i path base v l =
      match startAtt r aligned base (some (tmAlignment al sub)) l with
      | (l, true) => (v, l, .leave)
      | (l, false) =>
        andThen (populateAtts heapAddr r aligned rest (i + 1) path base v.2) v.2
          (structsTurn heapAddr r aligned al sub dim delim (i :: path)
            { v.1.1 with rawdata := .data (r.addr + l.notes.next) } v.1.2 l) := by
  obtain ⟨⟨s, list⟩, v⟩ := v
  rw [populateAtts]
  generalize startAtt r aligned base (some (tmAlignment al sub)) l = out
  obtain ⟨l, leaves⟩ := out
  cases leaves with
  | true => rfl
  | false =>
    unfold structsTurn
    dsimp only
    generalize structsExpected heapAddr r dim delim l.env _ l.notes = out
    obtain ⟨s', n, nel⟩ := out
    cases nel with
    | none => rfl
    | some nel =>
      dsimp only
      by_cases hnel : dim.type.fromAtt ∧ nel ≤ 0
      · rw [if_pos hnel, if_pos hnel]
        rfl
      · rw [if_neg hnel, if_neg hnel]
        change (match populateArrayOfStructs
            (fun ns n => populateStruct heapAddr r al sub (ns :: i :: path) (cloneTemplate sub) n)
            (freeStruct sub (i :: path)) nel.toNat 0 n with
          | (list, n, .stop why) => _
          | (list, n, _) => _) = _
        generalize populateArrayOfStructs _ _ nel.toNat 0 n = out
        obtain ⟨list', n', flow⟩ := out
        cases flow <;> rfl

theorem setDimension2_shared (hI : I.Kept k heapAddr r) (dim : Dimension) (count : Int)
    (s : AttState) {n : Notes} (h : I.notes n) : I.notes (setDimension2 dim count s n).2 :=
  hI.shared h (setDimension2_next ..) (setDimension2_log ..)

theorem populateStruct_dataSize {al : Bool} {sub : Atts} {path : List Nat} {c : CloneOf (Vals sub)}
    {n : Notes} (h : (populateStruct heapAddr r al sub path c n).2.2.2.goes = true) :
    (populateStruct heapAddr r al sub path c n).1.dataSize =
      (populateStruct heapAddr r al sub path c n).2.1.next - n.next := by
  unfold populateStruct at *
  rcases Flow.goes_or_stop (populateAtts heapAddr r al sub 0 path n.next c.atts
    ⟨n, n.next, 0, []⟩).2.2 with hgoes | ⟨why, hstop⟩
  · rw [populateTmpl_goes hgoes]
  · rw [populateTmpl_stop hstop] at h
    cases h

theorem RunInv.Kept.structEnd (hI : I.Kept k heapAddr r) {aligned : Bool} {base : Nat}
    (name : String) {sub : Atts} (s : AttState) {l : Loop} {n₀ : Notes} (h : I.loop aligned base l)
    (hn₀ : I.notes n₀) (out : CloneOf (Vals sub) × Notes × Env × Flow) (hgrows : Grows n₀ out.2.1)
    (hdone : I.done out.2.1 out.2.2.2)
    (hsize : out.2.2.2.goes = true → out.1.dataSize = out.2.1.next - n₀.next) :
    Grows n₀ (structEnd aligned name s (l.started n₀) out).2.1.notes ∧
      I.after aligned base (structEnd aligned name s (l.started n₀) out).2.1
        (structEnd aligned name s (l.started n₀) out).2.2 := by
  obtain ⟨c, n, env, flow⟩ := out
  -- it goes on with what was taken, if anything was
  have hgoes : I.notes n → c.dataSize = n.next - n₀.next →
      Grows n₀ (setStruct aligned name c.dataSize env s { l.started n₀ with notes := n }).2.notes ∧
        I.loop aligned base
          (setStruct aligned name c.dataSize env s { l.started n₀ with notes := n }).2 := by
    intro hn hsize
    unfold setStruct
    split
    · rename_i hpos
      dsimp only
      rw [nextAttr_notes, show n.next - c.dataSize = n₀.next by omega, hsize]
      have hgrows' : Grows n₀ (n.emit (.struct n₀.next (n.next - n₀.next))) := hgrows.emit _
      have henv := hI.env (l.env ++ env.map fun e => (name :: e.1, e.2)) h
      exact ⟨hgrows', (hI.resume _ henv hn₀ hgrows' (hI.struct hn₀ hgrows hn)).2⟩
    · rw [nextAttr_notes]
      exact ⟨hgrows, (hI.resume l h hn₀ hgrows hn).2⟩
  cases flow with
  | stop why => exact ⟨hgrows, hdone⟩
  | leave => exact hgoes hdone (hsize rfl)
  | next => exact hgoes hdone (hsize rfl)

theorem RunInv.Kept.structsTurn (hI : I.Kept k heapAddr r) {aligned al : Bool} {base : Nat}
    {sub : Atts} (dim : Dimension) (delim : Option Delimiter) (path : List Nat) (s : AttState)
    (list : List (CloneOf (Vals sub))) {l : Loop} {n₀ : Notes} (h : I.loop aligned base l)
    (hn₀ : I.notes n₀)
    (hrun : ∀ path c n, I.notes n →
      Grows n (populateStruct heapAddr r al sub path c n).2.1 ∧
        I.done (populateStruct heapAddr r al sub path c n).2.1
          (populateStruct heapAddr r al sub path c n).2.2.2) :
    Grows n₀
        (structsTurn heapAddr r aligned al sub dim delim path s list (l.started n₀)).2.1.notes ∧
      I.after aligned base
        (structsTurn heapAddr r aligned al sub dim delim path s list (l.started n₀)).2.1
        (structsTurn heapAddr r aligned al sub dim delim path s list (l.started n₀)).2.2 := by
  unfold Template.structsTurn structsExpected
  dsimp only [Loop.started]
  have hn₁ : I.notes (populateDelimiter l.env delim s n₀).2 :=
    hI.shared hn₀ (populateDelimiter_next ..) (populateDelimiter_log ..)
  have hgrows₁ : Grows n₀ (populateDelimiter l.env delim s n₀).2 :=
    .of_eq (populateDelimiter_log ..)
  generalize populateDelimiter l.env delim s n₀ = out at *
  obtain ⟨s₁, n₁⟩ := out
  cases dim.type.value heapAddr l.env (bytesRemaining r n₀.next) with
  | none => exact ⟨hgrows₁, hI.stop hn₁⟩
  | some d =>
    dsimp only [Option.map_some]
    split
    · rw [nextAttr_notes]
      exact ⟨hgrows₁, (hI.resume l h hn₀ hgrows₁ hn₁).2⟩
    · obtain ⟨hgrows₂, hdone⟩ := hI.populateArrayOfStructs
        (fun ns n => hrun (ns :: path) (cloneTemplate sub) n)
        (fun ns c es (hc : freeStruct sub path ns c = some es) => freeStruct_frees hc)
        (toInt (toLong d)).toNat 0 hn₁
      generalize Template.populateArrayOfStructs _ _ _ 0 n₁ = out at *
      obtain ⟨list', n₂, flow⟩ := out
      have hgrows : Grows n₀ n₂ := hgrows₁.trans hgrows₂
      have hgoes : I.notes n₂ → Grows n₀ (setList dim n₀.next list'.length s₁ n₂).2 ∧
          I.notes (setList dim n₀.next list'.length s₁ n₂).2 := by
        intro hn₂
        unfold setList
        split
        · dsimp only
          have hgrows' : Grows n₀ (setDimension2 dim list'.length s₁ n₂).2 :=
            hgrows.trans (.of_eq (setDimension2_log ..))
          exact ⟨hgrows'.emit _, hI.struct hn₀ hgrows' (setDimension2_shared hI dim _ _ hn₂)⟩
        · exact ⟨hgrows, hn₂⟩
      cases flow with
      | stop why => exact ⟨hgrows, hdone⟩
      | leave =>
        dsimp only
        rw [nextAttr_notes]
        exact ⟨(hgoes hdone).1, (hI.resume l h hn₀ (hgoes hdone).1 (hgoes hdone).2).2⟩
      | next =>
        dsimp only
        rw [nextAttr_notes]
        exact ⟨(hgoes hdone).1, (hI.resume l h hn₀ (hgoes hdone).1 (hgoes hdone).2).2⟩

theorem RunInv.andThen {aligned : Bool} {base : Nat} {n : Notes} {α β : Type}
    {rest : Loop → β × Loop × Flow} (v : β)
    (hrest : ∀ l, I.loop aligned base l → Grows l.notes (rest l).2.1.notes ∧
      I.after aligned base (rest l).2.1 (rest l).2.2) {out : α × Loop × Flow}
    (hgrows : Grows n out.2.1.notes) (hafter : I.after aligned base out.2.1 out.2.2) :
    Grows n (andThen rest v out).2.1.notes ∧
      I.after aligned base (andThen rest v out).2.1 (andThen rest v out).2.2 := by
  obtain ⟨st, l, flow⟩ := out
  cases flow with
  | stop why => exact ⟨hgrows, hafter⟩
  | leave => exact ⟨hgrows, hafter⟩
  | next => exact ⟨hgrows.trans (hrest l hafter).1, (hrest l hafter).2⟩

/-- An invariant that every step keeps is kept by the loop over the
attributes, however they are nested. -/
theorem RunInv.Kept.populateAtts (hI : I.Kept k heapAddr r) {aligned : Bool} {atts : Atts}
    (hk : atts.Has k aligned) (i : Nat) (path : List Nat) {base : Nat} (v : Vals atts) {l : Loop}
    (h : I.loop aligned base l) :
    Grows l.notes (populateAtts heapAddr r aligned atts i path base v l).2.1.notes ∧
      I.after aligned base (populateAtts heapAddr r aligned atts i path base v l).2.1
        (populateAtts heapAddr r aligned atts i path base v l).2.2 := by
  induction atts generalizing aligned i path base l with
  | nil => exact ⟨.refl _, h⟩
  | field name f rest ih =>
    obtain ⟨hf, hrest⟩ := hk
    rw [populateAtts_field]
    obtain ⟨hgrows, hafter⟩ := hI.populateField (i :: path) v.1 hf h
    exact RunInv.andThen v.2 (fun l hl => ih hrest (i + 1) path v.2 hl) hgrows hafter
  | struct name al sub rest ihsub ihrest =>
    obtain ⟨⟨-, ht⟩, hsub, hrest⟩ := hk
    rw [populateAtts_struct]
    rcases hI.startAtt (tmAlignment al sub) h with ⟨l', heq, hleft⟩ | ⟨heq, hn₀, hgrows⟩
    · rw [heq]
      exact hleft
    · rw [heq]
      obtain ⟨hgrows', hdone⟩ := hI.populateTmpl ht (tmAlignment al sub) sub.minSize
        (fun base v l => ihsub hsub 0 (i :: path) v) (v.1.2.getD (cloneTemplate sub)) hn₀
      obtain ⟨hend, hafter⟩ := hI.structEnd name
        { v.1.1 with rawdata := .data (r.addr + (startNotes r aligned base (tmAlignment al sub) l).next) }
        h hn₀ (populateStruct heapAddr r al sub (i :: path) _ _) hgrows' hdone
        populateStruct_dataSize
      exact RunInv.andThen v.2 (fun l hl => ihrest hrest (i + 1) path v.2 hl) (hgrows.trans hend)
        hafter
  | structs name al sub dim delim rest ihsub ihrest =>
    obtain ⟨⟨-, ht, -⟩, hsub, hrest⟩ := hk
    rw [populateAtts_structs]
    rcases hI.startAtt (tmAlignment al sub) h with ⟨l', heq, hleft⟩ | ⟨heq, hn₀, hgrows⟩
    · rw [heq]
      exact hleft
    · rw [heq]
      have hrun (path : List Nat) (c : CloneOf (Vals sub)) (n : Notes) (hn : I.notes n) :=
        hI.populateTmpl ht (tmAlignment al sub) sub.minSize
          (fun base v l => ihsub hsub 0 path v) c hn
      obtain ⟨hend, hafter⟩ := hI.structsTurn dim delim (i :: path)
        { v.1.1 with rawdata := .data (r.addr + (startNotes r aligned base (tmAlignment al sub) l).next) }
        v.1.2 h hn₀ hrun
      exact RunInv.andThen v.2 (fun l hl => ihrest hrest (i + 1) path v.2 hl) (hgrows.trans hend)
        hafter

theorem RunInv.Kept.populateStruct (hI : I.Kept k heapAddr r) {aligned : Bool} {atts : Atts}
    (ht : k.tmpl aligned) (hk : atts.Has k aligned) (path : List Nat) (c : CloneOf (Vals atts)) {n : Notes}
    (h : I.notes n) :
    Grows n (populateStruct heapAddr r aligned atts path c n).2.1 ∧
      I.done (populateStruct heapAddr r aligned atts path c n).2.1
        (populateStruct heapAddr r aligned atts path c n).2.2.2 :=
  hI.populateTmpl ht (tmAlignment aligned atts) atts.minSize
    (fun _ v _ hl => hI.populateAtts hk 0 path v hl) c h

def eventsInv (Q : Event → Prop) : RunInv where
  loop _ _ l := ∀ e ∈ l.notes.log, Q e
  notes n := ∀ e ∈ n.log, Q e
  stop n := ∀ e ∈ n.log, Q e

/-- To keep to a kind of events is a matter of arrays and bit-fields. -/
theorem eventsInv_kept {Q : Event → Prop} (hplain : ∀ e, e.Plain → Q e)
    (harray : ∀ {aligned name ty dim delim}, k.field aligned name (.array ty dim delim) →
      ∀ owner env s n, (∀ e ∈ n.log, Q e) →
        ∀ e ∈ (populateArray heapAddr r owner ty dim delim env s n).2.1.log, Q e)
    (hbits : ∀ {aligned name ty width}, k.field aligned name (.bitField ty width) →
      ∀ b, Q (.bitField b)) : (eventsInv Q).Kept k heapAddr r where
  enter _ h := h
  env _ h := h
  out h := h
  start _ h := (adds_startNotes ..).forall hplain h
  resume := by
    intro aligned base n₀ n l _ _ _ hn
    refine ⟨hn, ?_⟩
    dsimp only [eventsInv]
    rwa [nextAttr_notes]
  value _ _ _ _ h := (adds_populateValue ..).forall hplain h
  array := by
    intro aligned name n owner ty dim delim env s hf h
    have hlog := harray hf owner env s n h
    generalize Template.populateArray heapAddr r owner ty dim delim env s n = out at *
    obtain ⟨s', n', flow⟩ := out
    cases flow <;> exact hlog
  bits := by
    intro aligned base l ty width name s hf h
    have hnoted : ∀ e ∈ (l.noted base ty width).notes.log, Q e :=
      List.forall_mem_append.2 ⟨h, List.forall_mem_singleton.2 (hbits hf _)⟩
    exact (adds_noted ..).forall hplain hnoted
  shared := by
    intro n n' h _ hlog
    dsimp only [eventsInv] at *
    rwa [hlog]
  struct _ _ h := List.forall_mem_append.2 ⟨h, List.forall_mem_singleton.2 (hplain _ trivial)⟩
  frees := by
    intro n es h hfrees
    refine List.forall_mem_append.2 ⟨h, fun e he => ?_⟩
    obtain ⟨o, p, rfl⟩ := hfrees e he
    exact hplain _ trivial
  finish := by
    intro aligned base l alignment minSize h
    split
    · exact (adds_finishTmpl ..).forall hplain h
    · exact h
  stop h := h

theorem anyInv_kept (heapAddr : Nat → Nat) (r : Record) :
    (eventsInv fun _ => True).Kept anyShape heapAddr r :=
  eventsInv_kept (fun _ _ => trivial) (fun _ _ _ _ _ _ _ _ => trivial) fun _ _ => trivial

theorem grows_populateStruct (aligned : Bool) (atts : Atts) (path : List Nat)
    (c : CloneOf (Vals atts)) (n : Notes) :
    Grows n (populateStruct heapAddr r aligned atts path c n).2.1 :=
  ((anyInv_kept heapAddr r).populateStruct trivial (Atts.has_any aligned atts) path c
    fun _ _ => trivial).1

end Runs

/-! ## Whole records -/

/-- A record without data is not looked at. Otherwise the template is
populated, and what is left goes to `_EXTRA_DATA_`. -/
theorem populateRecord_cases (heapAddr : Nat → Nat) {t : Tmpl} (r : Record) (c : Clone t)
    (n : Notes) :
    (r.size = 0 ∧
        populateRecord heapAddr r c n = ({ c with dataSize := 0, populated := true }, n, .next)) ∨
      (r.size ≠ 0 ∧ ∃ c₁ n₁ env flow,
        populateStruct heapAddr r t.aligned t.atts [] c { n with next := 0, outOfData := false } =
          (c₁, n₁, env, flow) ∧
        ((∃ why, flow = .stop why ∧ populateRecord heapAddr r c n = (c₁, n₁, .stop why)) ∨
          (flow.goes = true ∧ r.size ≤ n₁.next ∧ populateRecord heapAddr r c n = (c₁, n₁, .next)) ∨
          (flow.goes = true ∧ n₁.next < r.size ∧ populateRecord heapAddr r c n =
            ({ c₁ with extra := some (createExtraDataAtt r n₁).1 }, (createExtraDataAtt r n₁).2,
              .next)))) := by
  unfold populateRecord
  split
  · rename_i hsize
    exact .inl ⟨hsize, rfl⟩
  · rename_i hsize
    have hst : populateTmpl r t.aligned (tmAlignment t.aligned t.atts) t.atts.minSize
        (populateAtts heapAddr r t.aligned t.atts 0 []) c { n with next := 0, outOfData := false } =
        populateStruct heapAddr r t.aligned t.atts [] c
          { n with next := 0, outOfData := false } := rfl
    rw [hst]
    generalize populateStruct heapAddr r t.aligned t.atts [] c _ = out
    obtain ⟨c₁, n₁, env, flow⟩ := out
    refine .inr ⟨hsize, c₁, n₁, env, flow, rfl, ?_⟩
    rcases Flow.goes_or_stop flow with hgoes | ⟨why, rfl⟩
    · rcases Nat.lt_or_ge n₁.next r.size with hlt | hge
      · refine .inr (.inr ⟨hgoes, hlt, ?_⟩)
        cases flow with
        | stop why => cases hgoes
        | next => exact if_pos hlt
        | leave => exact if_pos hlt
      · refine .inr (.inl ⟨hgoes, hge, ?_⟩)
        cases flow with
        | stop why => cases hgoes
        | next => exact if_neg hge.not_gt
        | leave => exact if_neg hge.not_gt
    · exact .inl ⟨why, rfl, rfl⟩

def populateLog (heapAddr : Nat → Nat) {t : Tmpl} (r : Record) (c : Clone t) (n : Notes) :
    List Event :=
  (populateRecord heapAddr r c { n with log := [] }).2.1.log

/-- What every step keeps, holds when a record has been populated, up to
`_EXTRA_DATA_`. -/
theorem RunInv.Kept.populateLog {I : RunInv} {k : Shape} {heapAddr : Nat → Nat} {r : Record}
    (hI : I.Kept k heapAddr r) {t : Tmpl} (ht : k.tmpl t.aligned) (hk : t.atts.Has k t.aligned) (c : Clone t) {n : Notes}
    (h : I.notes { n with next := 0, outOfData := false, log := [] }) :
    ∃ n₁ flow, I.done n₁ flow ∧
      (populateLog heapAddr r c n = n₁.log ∨
        (flow.goes = true ∧ n₁.next < r.size ∧
          populateLog heapAddr r c n = n₁.log ++ [.extra n₁.next (r.size - n₁.next)])) := by
  unfold Template.populateLog
  rcases populateRecord_cases heapAddr r c { n with log := [] } with
    ⟨-, heq⟩ | ⟨-, c₁, n₁, env, flow, hout, hcases⟩
  · exact ⟨_, .next, h, .inl (by rw [heq])⟩
  · have hrun := (hI.populateStruct ht hk [] c h).2
    rw [hout] at hrun
    refine ⟨n₁, flow, hrun, ?_⟩
    rcases hcases with ⟨why, -, heq⟩ | ⟨-, -, heq⟩ | ⟨hgoes, hlt, heq⟩
    · exact .inl (by rw [heq])
    · exact .inl (by rw [heq])
    · exact .inr ⟨hgoes, hlt, by rw [heq]; rfl⟩

/-- Whatever keeps to a kind of events, logs only such events. -/
theorem populateLog_forall {Q : Event → Prop} {k : Shape} {heapAddr : Nat → Nat} {r : Record}
    (hI : (eventsInv Q).Kept k heapAddr r) (hextra : ∀ p n, Q (.extra p n)) {t : Tmpl}
    (ht : k.tmpl t.aligned) (hk : t.atts.Has k t.aligned) (c : Clone t) (n : Notes) :
    ∀ e ∈ populateLog heapAddr r c n, Q e := by
  have hn : (eventsInv Q).notes { n with next := 0, outOfData := false, log := [] } :=
    fun _ he => nomatch he
  obtain ⟨n₁, flow, hdone, hlog⟩ := hI.populateLog ht hk c hn
  have hn₁ : ∀ e ∈ n₁.log, Q e := by
    cases flow <;> exact hdone
  rcases hlog with hlog | ⟨-, -, hlog⟩
  · rwa [hlog]
  · rw [hlog]
    exact List.forall_mem_append.2 ⟨hn₁, List.forall_mem_singleton.2 (hextra _ _)⟩

end Evlog.Template
