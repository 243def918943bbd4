/-
Evlog.Template.HeapTheorems — the arrays that are allocated for a clone, and
freed.

What an array attribute points to tells `depopulateTemplate` whether it is
to be freed: it is, unless that is where the attribute starts in the record
(`ta_rawdata`). `Vals.ptrs` are the arrays that were allocated for a clone
and that its attributes point to, and `Vals.Settled` says that what they
point to otherwise is where they start. Populating a clone keeps the
account of the arrays (`populateAtts_held`); depopulating one does when it
is settled (`depopulateAtts_released`), and frees what is no array when it
is not (`settled_of_depopulateAtts`).
-/
import Evlog.Template.MoveTheorems

namespace Evlog.Template

open Evlog.Lib Evlog.Posix

/-! ## The account -/

/-- The account of the arrays is right, and these are held. -/
def Notes.Held (n : Notes) (owned : List (List Nat × Nat)) : Prop :=
  HeapEvent.Held (heapEvents n.log) n.heap owned

/-- Nothing is allocated or freed. -/
structure Inert (n n' : Notes) : Prop where
  heap : n'.heap = n.heap
  events : heapEvents n'.log = heapEvents n.log

section Inert

variable {n n' n'' : Notes}

theorem Inert.refl (n : Notes) : Inert n n := ⟨rfl, rfl⟩

theorem Inert.trans (h : Inert n n') (h' : Inert n' n'') : Inert n n'' :=
  ⟨h'.heap.trans h.heap, h'.events.trans h.events⟩

theorem Inert.of_eq (hheap : n'.heap = n.heap) (hlog : n'.log = n.log) : Inert n n' :=
  ⟨hheap, by rw [hlog]⟩

theorem Moved.inert (h : Moved n n') : Inert n n' := ⟨h.heap, h.events⟩

theorem Inert.held (h : Inert n n') {owned : List (List Nat × Nat)} :
    n'.Held owned ↔ n.Held owned := by
  rw [Notes.Held, Notes.Held, h.heap, h.events]

theorem Inert.emit (h : Inert n n') {e : Event} (he : e.heap = none) : Inert n (n'.emit e) :=
  h.trans (moved_emit he).inert

theorem inert_setDimension2 (dim : Dimension) (count : Int) (s : AttState) :
    Inert n (setDimension2 dim count s n).2 := by
  refine .of_eq ?_ (setDimension2_log ..)
  unfold setDimension2
  split <;> rfl

theorem inert_populateDelimiter (env : Env) (delim : Option Delimiter) (s : AttState) :
    Inert n (populateDelimiter env delim s n).2 := by
  refine .of_eq ?_ (populateDelimiter_log ..)
  unfold populateDelimiter
  split <;> rfl

end Inert

/-! ## One array is allocated -/

/-- Nothing is allocated, or one array is, for the attribute. -/
inductive HeapStep (owner : List Nat) (n n' : Notes) : Option Nat → Prop
  | inert (h : Inert n n') : HeapStep owner n n' none
  | alloc (hheap : n'.heap = n.heap + 1)
      (hevents : heapEvents n'.log = heapEvents n.log ++ [.alloc owner n.heap]) :
      HeapStep owner n n' (some n.heap)

/-- Where an attribute points: it keeps what it had, or it points to where it is in
the record, or to an array of its own. -/
inductive Filled (p old : Ptr) : Ptr → Option Nat → Prop
  | kept : Filled p old old none
  | record : Filled p old p none
  | heap (id : Nat) : Filled p old (.heap id) (some id)

section Arrays

variable {r : Record} {owner : List Nat} {n n' n'' : Notes} {b : Option Nat}

theorem HeapStep.after (h : HeapStep owner n n' b) (h₀ : Inert n'' n) : HeapStep owner n'' n' b := by
  cases h with
  | inert h => exact .inert (h₀.trans h)
  | alloc hheap hevents =>
    rw [h₀.heap]
    exact .alloc (hheap.trans (by rw [h₀.heap])) (by rw [hevents, h₀.events, h₀.heap])

theorem HeapStep.then (h : HeapStep owner n n' b) (h' : Inert n' n'') : HeapStep owner n n'' b := by
  cases h with
  | inert h => exact .inert (h.trans h')
  | alloc hheap hevents => exact .alloc (h'.heap.trans hheap) (h'.events.trans hevents)

theorem HeapStep.held (h : HeapStep owner n n' b) {owned : List (List Nat × Nat)}
    (hn : n.Held owned) : n'.Held ((b.map fun id => (owner, id)).toList ++ owned) := by
  cases h with
  | inert h => exact h.held.mpr hn
  | alloc hheap hevents =>
    rw [Notes.Held, hheap, hevents]
    exact HeapEvent.Held.alloc hn owner

theorem heapStep_alloc : HeapStep owner n (n.alloc owner).1 (some n.heap) :=
  .alloc rfl (by rw [alloc_log, heapEvents_append]; rfl)

theorem convScalarArray_heap (ty : BaseType) (p nel : Nat) (old : Ptr) :
    ∃ b, HeapStep owner n (convScalarArray r owner ty p nel n).1 b ∧
      Filled (.data (r.addr + p)) old (convScalarArray r owner ty p nel n).2.valArray b := by
  unfold convScalarArray
  split
  · exact ⟨none, .inert (.refl n), .record⟩
  · exact ⟨some n.heap, heapStep_alloc.after (moved_emit rfl).inert, .heap _⟩

theorem convWstringArray_heap (p len : Nat) (old : Ptr) :
    ∃ b, HeapStep owner n (convWstringArray r owner p len n).1 b ∧
      Filled (.data (r.addr + p)) old (convWstringArray r owner p len n).2.valArray b := by
  unfold convWstringArray
  split
  · exact ⟨some n.heap, heapStep_alloc.after (moved_emit rfl).inert, .heap _⟩
  · exact ⟨none, .inert (.refl n), .record⟩

theorem convWstring_heap (p len : Nat) :
    ∃ b, HeapStep owner n (convWstring r owner p len n).1 b := by
  unfold convWstring
  split
  · exact ⟨some n.heap, heapStep_alloc.after (moved_emit rfl).inert⟩
  · exact ⟨none, .inert (moved_emit rfl).inert⟩

/-- Neither `td_dimension2` nor the delimiter is where an attribute points to. -/
theorem setDimension2_state (dim : Dimension) (count : Int) (s : AttState) :
    (setDimension2 dim count s n).1.value = s.value
      ∧ (setDimension2 dim count s n).1.rawdata = s.rawdata := by
  unfold setDimension2
  split <;> exact ⟨rfl, rfl⟩

theorem populateDelimiter_state (env : Env) (delim : Option Delimiter) (s : AttState) :
    (populateDelimiter env delim s n).1.value = s.value
      ∧ (populateDelimiter env delim s n).1.rawdata = s.rawdata := by
  unfold populateDelimiter
  split <;> exact ⟨rfl, rfl⟩

/-- What becomes of an array attribute, and of the heap. -/
structure Arrayed (r : Record) (owner : List Nat) (p : Nat) (s s' : AttState) (n n' : Notes) :
    Prop where
  rawdata : s'.rawdata = s.rawdata
  heap : ∃ b, HeapStep owner n n' b ∧
    Filled (.data (r.addr + p)) s.value.valArray s'.value.valArray b

theorem populateStrings_heap (dim : Dimension) (nel : Int) (s : AttState) :
    Arrayed r owner n.next s (populateStrings r dim nel s n).1 n
      (populateStrings r dim nel s n).2.1 := by
  unfold populateStrings
  have h := (moved_collectAll (n := n) (fun _ => moved_collectString (r := r)) nel.toNat).inert
  dsimp only
  have hdim := h.trans (inert_setDimension2 dim (collectAll (collectString r) nel.toNat n).2 s)
  obtain ⟨hvalue, hraw⟩ := setDimension2_state (n := (collectAll (collectString r) nel.toNat n).1)
    dim (collectAll (collectString r) nel.toNat n).2 s
  split
  · exact ⟨hraw, none, .inert (hdim.emit rfl), .record⟩
  · exact ⟨hraw, none, .inert hdim, hvalue ▸ .kept⟩

theorem populateWstrings_heap (dim : Dimension) (nel : Int) (s : AttState) :
    Arrayed r owner n.next s (populateWstrings r owner dim nel s n).1 n
      (populateWstrings r owner dim nel s n).2.1 := by
  unfold populateWstrings
  have h := (moved_collectAll (n := n) (fun _ => moved_collectWstring (r := r)) nel.toNat).inert
  dsimp only
  have hdim := h.trans (inert_setDimension2 dim (collectAll (collectWstring r) nel.toNat n).2 s)
  obtain ⟨hvalue, hraw⟩ := setDimension2_state (n := (collectAll (collectWstring r) nel.toNat n).1)
    dim (collectAll (collectWstring r) nel.toNat n).2 s
  split
  · obtain ⟨b, hstep, hfilled⟩ := convWstringArray_heap (r := r)
      (n := (setDimension2 dim (collectAll (collectWstring r) nel.toNat n).2 s
        (collectAll (collectWstring r) nel.toNat n).1).2) n.next
      ((setDimension2 dim (collectAll (collectWstring r) nel.toNat n).2 s
        (collectAll (collectWstring r) nel.toNat n).1).2.next - n.next) s.value.valArray
    exact ⟨hraw, b, (hstep.after hdim).then (moved_emit rfl).inert, hfilled⟩
  · exact ⟨hraw, none, .inert hdim, hvalue ▸ .kept⟩

theorem populateScalars_heap (ty : BaseType) (dim : Dimension) (nel : Int) (s : AttState) :
    Arrayed r owner n.next s (populateScalars r owner ty dim nel s n).1 n
      (populateScalars r owner ty dim nel s n).2.1 := by
  obtain ⟨n₀, hn₀⟩ : ∃ n₀, n₀ =
      if bytesRemaining r n.next < (toInt ((archTypeInfo r.arch ty).size * nel) % 2 ^ 64).toNat then
        n.out
      else n := ⟨_, rfl⟩
  have hinert : Inert n n₀ := by
    rw [hn₀]
    split
    · exact moved_out.inert
    · exact .refl n
  have hnext : n₀.next = n.next := by
    rw [hn₀]
    split <;> rfl
  unfold populateScalars
  dsimp only
  rw [← hn₀]
  generalize (if bytesRemaining r n.next <
    (toInt ((archTypeInfo r.arch ty).size * nel) % 2 ^ 64).toNat then _ else nel) = count
  have hdim := hinert.trans (inert_setDimension2 dim count s)
  have hnext' : (setDimension2 dim count s n₀).2.next = n.next := by
    rw [setDimension2_next, hnext]
  obtain ⟨hvalue, hraw⟩ := setDimension2_state (n := n₀) dim count s
  split
  · obtain ⟨b, hstep, hfilled⟩ := convScalarArray_heap (r := r)
      (n := (setDimension2 dim count s n₀).2) ty n.next count.toNat s.value.valArray
    rw [hnext']
    exact ⟨hraw, b, ((hstep.after hdim).then (moved_setNext _).inert).then (moved_emit rfl).inert, hfilled⟩
  · exact ⟨hraw, none, .inert hdim, hvalue ▸ .kept⟩

theorem populateElems_heap (ty : BaseType) (dim : Dimension) (nel : Int) (s : AttState) :
    Arrayed r owner n.next s (populateElems r owner ty dim nel s n).1 n
      (populateElems r owner ty dim nel s n).2.1 := by
  cases ty with
  | string => exact populateStrings_heap dim nel s
  | wstring => exact populateWstrings_heap dim nel s
  | _ => exact populateScalars_heap _ dim nel s

theorem populateArray_heap (heapAddr : Nat → Nat) (ty : BaseType) (dim : Dimension)
    (delim : Option Delimiter) (env : Env) (s : AttState) :
    Arrayed r owner n.next s (populateArray heapAddr r owner ty dim delim env s n).1 n
      (populateArray heapAddr r owner ty dim delim env s n).2.1 := by
  have hdelim := inert_populateDelimiter (n := n) env delim s
  obtain ⟨hvalue, hraw⟩ := populateDelimiter_state (n := n) env delim s
  have hnext := populateDelimiter_next n s env delim
  unfold populateArray
  dsimp only
  generalize populateDelimiter env delim s n = out at *
  obtain ⟨s₁, n₁⟩ := out
  cases dim.type.value heapAddr env (bytesRemaining r n.next) with
  | none => exact ⟨hraw, none, .inert hdelim, hvalue ▸ .kept⟩
  | some d =>
    dsimp only at *
    split
    · exact ⟨hraw, none, .inert (hdelim.emit rfl), hvalue ▸ .kept⟩
    · obtain ⟨hraw', b, hstep, hfilled⟩ := populateElems_heap (r := r) (n := n₁) ty
        dim (toInt (toLong d)) s₁
      rw [hnext, hvalue] at hfilled
      have helems : Arrayed r owner n.next s (populateElems r owner ty dim (toInt (toLong d)) s₁ n₁).1 n
          ((populateElems r owner ty dim (toInt (toLong d)) s₁ n₁).2.1.emit
            (.array ⟨dim.type.fromAtt, ty, n.next, d,
              (populateElems r owner ty dim (toInt (toLong d)) s₁ n₁).2.2⟩)) :=
        ⟨hraw'.trans hraw, b, (hstep.after hdelim).then (moved_emit rfl).inert, hfilled⟩
      cases ty <;> exact helems

/-- A string of wide characters may be converted too, and is never freed. -/
theorem populateValue_heap (ty : BaseType) (s : AttState) :
    ∃ b, HeapStep owner n (populateValue r owner ty s n).2.1 b := by
  cases ty with
  | string =>
    unfold populateValue
    have h := moved_collectString (r := r) (n := n)
    dsimp only
    split
    · rename_i heq
      rw [heq] at h
      exact ⟨none, .inert h.inert⟩
    · rename_i heq
      rw [heq] at h
      exact ⟨none, .inert (h.emit rfl).inert⟩
  | wstring =>
    unfold populateValue
    have h := moved_collectWstring (r := r) (n := n)
    dsimp only
    split
    · rename_i heq
      rw [heq] at h
      exact ⟨none, .inert h.inert⟩
    · rename_i n₁ len heq
      rw [heq] at h
      obtain ⟨b, hstep⟩ := convWstring_heap (r := r) (n := n₁) n.next len
      exact ⟨b, (hstep.after h.inert).then (moved_emit rfl).inert⟩
  | _ =>
    unfold populateValue
    dsimp only
    split
    · exact ⟨none, .inert moved_out.inert⟩
    · exact ⟨none, .inert (((moved_emit rfl).setNext _).emit rfl).inert⟩

end Arrays

/-! ## The arrays of a clone -/

def Ptr.block (owner : List Nat) : Ptr → List (List Nat × Nat)
  | .heap id => [(owner, id)]
  | _ => []

def fieldPtrs (owner : List Nat) (f : Field) (s : AttState) : List (List Nat × Nat) :=
  match f with
  | .array _ _ _ => s.value.valArray.block owner
  | _ => []

/-- The arrays of the structs in a list, from the `ns`-th on. -/
def listPtrs {α : Type} (ptrs : Nat → α → List (List Nat × Nat)) :
    Nat → List (CloneOf α) → List (List Nat × Nat)
  | _, [] => []
  | ns, c :: cs => ptrs ns c.atts ++ listPtrs ptrs (ns + 1) cs

def structPtrs {α : Type} (ptrs : α → List (List Nat × Nat)) : Option (CloneOf α) → List (List Nat × Nat)
  | none => []
  | some c => ptrs c.atts

/-- The arrays that are the clone's, from the `i`-th attribute on. -/
def Vals.ptrs : (atts : Atts) → (i : Nat) → (path : List Nat) → Vals atts → List (List Nat × Nat)
  | .nil, _, _, _ => []
  | .field _ f rest, i, path, (s, v) => fieldPtrs (i :: path) f s ++ Vals.ptrs rest (i + 1) path v
  | .struct _ _ sub rest, i, path, ((_, st), v) =>
    structPtrs (fun v => Vals.ptrs sub 0 (i :: path) v) st ++ Vals.ptrs rest (i + 1) path v
  | .structs _ _ sub _ _ rest, i, path, ((_, list), v) =>
    listPtrs (fun ns v => Vals.ptrs sub 0 (ns :: i :: path) v) 0 list ++ Vals.ptrs rest (i + 1) path v

/-- What the attribute has of a record is where it starts in it. -/
def Field.Settled (f : Field) (s : AttState) : Prop :=
  match f with
  | .array _ _ _ => ∀ a, s.value.valArray = .data a → s.rawdata = .data a
  | _ => True

/-- This holds of all attributes, and in all structs that are populated. -/
def Vals.Settled : (atts : Atts) → Vals atts → Prop
  | .nil, _ => True
  | .field _ f rest, (s, v) => f.Settled s ∧ Vals.Settled rest v
  | .struct _ _ sub rest, ((_, st), v) =>
    (∀ c, st = some c → c.populated = true → Vals.Settled sub c.atts) ∧ Vals.Settled rest v
  | .structs _ _ sub _ _ rest, ((_, list), v) =>
    (∀ c ∈ list, c.populated = true → Vals.Settled sub c.atts) ∧ Vals.Settled rest v

theorem Vals.ptrs_fresh (atts : Atts) (i : Nat) (path : List Nat) :
    Vals.ptrs atts i path (.fresh atts) = [] := by
  induction atts generalizing i with
  | nil => rfl
  | field name f rest ih =>
    have hf : fieldPtrs (i :: path) f .zero = [] := by
      cases f <;> rfl
    exact (congrArg₂ _ hf (ih (i + 1))).trans (List.append_nil _)
  | struct name al sub rest ihsub ihrest => exact ihrest (i + 1)
  | structs name al sub dim delim rest ihsub ihrest => exact ihrest (i + 1)

/-! ## What depopulating does to the account -/

/-- Of the arrays some are freed, and others may be the clone's still. -/
def Released (es : List Event) (before now : List (List Nat × Nat)) : Prop :=
  ∃ ps, heapEvents es = HeapEvent.frees ps ∧ (ps ++ now).Subperm before

section Released

variable {es es' : List Event} {before before' now now' : List (List Nat × Nat)}

theorem released_nil (ps : List (List Nat × Nat)) : Released [] ps ps := ⟨[], rfl, .refl ps⟩

theorem Released.append (h : Released es before now) (h' : Released es' before' now') :
    Released (es ++ es') (before ++ before') (now ++ now') := by
  obtain ⟨ps, hes, hsub⟩ := h
  obtain ⟨ps', hes', hsub'⟩ := h'
  refine ⟨ps ++ ps', by rw [heapEvents_append, hes, hes', HeapEvent.frees, HeapEvent.frees,
    HeapEvent.frees, List.map_append], ?_⟩
  have hperm : (ps ++ ps' ++ (now ++ now')).Perm ((ps ++ now) ++ (ps' ++ now')) := by
    rw [List.append_assoc, List.append_assoc]
    exact (List.perm_append_comm_assoc ps' now now').append_left ps
  exact hperm.subperm.trans (hsub.append hsub')

theorem Released.all (h : Released es before now) : Released es before [] := by
  obtain ⟨ps, hes, hsub⟩ := h
  refine ⟨ps, hes, ?_⟩
  rw [List.append_nil]
  exact (List.sublist_append_left ps now).subperm.trans hsub

/-- The account stays right when arrays of a clone are freed. -/
theorem Released.held {n : Notes} {others : List (List Nat × Nat)} (h : Released es before now)
    (hn : n.Held (before ++ others)) : { n with log := n.log ++ es }.Held (now ++ others) := by
  obtain ⟨ps, hes, hsub⟩ := h
  have hheld : n.Held (ps ++ (now ++ others)) := by
    refine HeapEvent.Held.subperm hn ?_
    rw [← List.append_assoc]
    exact hsub.append (.refl others)
  rw [Notes.Held, heapEvents_append, hes]
  exact HeapEvent.Held.frees hheld

theorem depopulateField_released {owner : List Nat} {f : Field} {s : AttState} (hs : f.Settled s) :
    Released (depopulateField owner f s).2 (fieldPtrs owner f s)
      (fieldPtrs owner f (depopulateField owner f s).1) := by
  cases f with
  | array ty dim delim =>
    unfold depopulateField
    dsimp only
    split
    · exact released_nil _
    · rename_i hne
      unfold fieldPtrs
      dsimp only
      cases hp : s.value.valArray with
      | null => exact ⟨[], rfl, .refl []⟩
      | data a =>
        rw [hp, hs a hp] at hne
        exact absurd rfl hne
      | heap id => exact ⟨[(owner, id)], rfl, .refl _⟩
  | _ => exact released_nil []

theorem depopulateTmpl_released {α : Type} {atts : Atts} {body : α → Option (α × List Event)}
    {ptrs : α → List (List Nat × Nat)} {Settled : α → Prop}
    (hbody : ∀ v v' es, Settled v → body v = some (v', es) → Released es (ptrs v) (ptrs v'))
    {c c' : CloneOf α} (hc : c.populated = true → Settled c.atts)
    (h : depopulateTmpl atts body c = some (c', es)) : Released es (ptrs c.atts) (ptrs c'.atts) := by
  rcases depopulateTmpl_eq_some h with ⟨-, rfl, rfl⟩ | ⟨hpop, v, hv, rfl⟩
  · exact released_nil _
  · exact hbody _ _ _ (hc hpop) hv

theorem freeArrayOfStructs_released {α : Type} {free : Nat → CloneOf α → Option (List Event)}
    {ptrs : Nat → α → List (List Nat × Nat)} {Settled : CloneOf α → Prop}
    (hfree : ∀ ns c es, Settled c → free ns c = some es → Released es (ptrs ns c.atts) []) {ns : Nat}
    {list : List (CloneOf α)} (hlist : ∀ c ∈ list, Settled c)
    (h : freeArrayOfStructs free ns list = some es) : Released es (listPtrs ptrs ns list) [] := by
  induction list generalizing ns es with
  | nil =>
    cases h
    exact released_nil []
  | cons c cs ih =>
    obtain ⟨frees, more, hc, hcs, rfl⟩ := freeArrayOfStructs_cons h
    rw [List.forall_mem_cons] at hlist
    exact (hfree _ _ _ hlist.1 hc).append (ih hlist.2 hcs)

/-- Depopulating a settled clone frees arrays of its own. -/
theorem depopulateAtts_released {atts : Atts} {i : Nat} {path : List Nat} {v v' : Vals atts}
    (hs : Vals.Settled atts v) (h : depopulateAtts atts i path v = some (v', es)) :
    Released es (Vals.ptrs atts i path v) (Vals.ptrs atts i path v') := by
  induction atts generalizing i path es with
  | nil =>
    cases h
    exact released_nil []
  | field name f rest ih =>
    obtain ⟨w, more, hrest, rfl, rfl⟩ := depopulateAtts_field h
    exact (depopulateField_released hs.1).append (ih hs.2 hrest)
  | struct name al sub rest ihsub ihrest =>
    obtain ⟨st, frees, w, more, hst, hrest, rfl, rfl⟩ := depopulateAtts_struct h
    obtain ⟨⟨s, st₀⟩, v⟩ := v
    refine Released.append ?_ (ihrest hs.2 hrest)
    rcases depopulateStruct_eq_some hst with ⟨rfl, rfl, rfl⟩ | ⟨c, c', rfl, rfl, hc⟩
    · exact released_nil []
    · exact depopulateTmpl_released
        (fun _ _ _ hv hbody => ihsub hv hbody)
        (hs.1 c rfl) hc
  | structs name al sub dim delim rest ihsub ihrest =>
    obtain ⟨frees, w, more, hfree, hrest, rfl, rfl⟩ := depopulateAtts_structs h
    refine Released.append ?_ (ihrest hs.2 hrest)
    refine freeArrayOfStructs_released
      (fun ns c es hc hes => ?_)
      hs.1 hfree
    obtain ⟨c', hc'⟩ := freeStruct_eq_some hes
    exact (depopulateTmpl_released
      (fun _ _ _ hv hbody => ihsub hv hbody)
      hc hc').all

theorem freeStruct_released {sub : Atts} {path : List Nat} {ns : Nat} {c : CloneOf (Vals sub)}
    (hc : c.populated = true → Vals.Settled sub c.atts) (h : freeStruct sub path ns c = some es) :
    Released es (Vals.ptrs sub 0 (ns :: path) c.atts) [] := by
  obtain ⟨c', hc'⟩ := freeStruct_eq_some h
  exact (depopulateTmpl_released
   
    (fun _ _ _ hv hbody => depopulateAtts_released hv hbody) hc hc').all

end Released

/-! ## What is freed that was never allocated -/

def OnlyBlocks (es : List Event) : Prop := ∀ o, .free o none ∉ heapEvents es

theorem onlyBlocks_append {es es' : List Event} :
    OnlyBlocks (es ++ es') ↔ OnlyBlocks es ∧ OnlyBlocks es' := by
  unfold OnlyBlocks
  rw [heapEvents_append]
  simp only [List.mem_append, not_or, forall_and]

theorem onlyBlocks_of_proper {es : List Event} (h : HeapEvent.Proper (heapEvents es)) :
    OnlyBlocks es := by
  intro o hmem
  obtain ⟨pre, post, heq⟩ := List.append_of_mem hmem
  obtain ⟨id, hid, -⟩ := h pre o none post heq
  cases hid

theorem settled_of_depopulateField {owner : List Nat} {f : Field} {s : AttState}
    (h : OnlyBlocks (depopulateField owner f s).2) : f.Settled s := by
  cases f with
  | array ty dim delim =>
    intro a ha
    by_contra hne
    unfold depopulateField at h
    dsimp only at h
    rw [ha, if_neg (Ne.symm hne)] at h
    exact h owner (List.mem_singleton_self _)
  | _ => trivial

theorem settled_of_depopulateTmpl {α : Type} {atts : Atts} {body : α → Option (α × List Event)}
    {Settled : α → Prop} (hbody : ∀ v v' es, body v = some (v', es) → OnlyBlocks es → Settled v)
    {c c' : CloneOf α} {es : List Event} (h : depopulateTmpl atts body c = some (c', es))
    (hes : OnlyBlocks es) (hpop : c.populated = true) : Settled c.atts := by
  rcases depopulateTmpl_eq_some h with ⟨hno, -, -⟩ | ⟨-, v, hv, -⟩
  · rw [hno] at hpop
    cases hpop
  · exact hbody _ _ _ hv hes

theorem settled_of_freeArrayOfStructs {α : Type} {free : Nat → CloneOf α → Option (List Event)}
    {Settled : CloneOf α → Prop}
    (hfree : ∀ ns c es, free ns c = some es → OnlyBlocks es → Settled c) {ns : Nat}
    {list : List (CloneOf α)} {es : List Event} (h : freeArrayOfStructs free ns list = some es)
    (hes : OnlyBlocks es) : ∀ c ∈ list, Settled c := by
  induction list generalizing ns es with
  | nil => exact fun c hc => nomatch hc
  | cons c cs ih =>
    obtain ⟨frees, more, hc, hcs, rfl⟩ := freeArrayOfStructs_cons h
    rw [onlyBlocks_append] at hes
    exact List.forall_mem_cons.mpr ⟨hfree _ _ _ hc hes.1, ih hcs hes.2⟩

/-- If only arrays are freed when a clone is depopulated, it was settled. -/
theorem settled_of_depopulateAtts {atts : Atts} {i : Nat} {path : List Nat} {v v' : Vals atts}
    {es : List Event} (h : depopulateAtts atts i path v = some (v', es)) (hes : OnlyBlocks es) :
    Vals.Settled atts v := by
  induction atts generalizing i path es with
  | nil => trivial
  | field name f rest ih =>
    obtain ⟨w, more, hrest, rfl, rfl⟩ := depopulateAtts_field h
    rw [onlyBlocks_append] at hes
    exact ⟨settled_of_depopulateField hes.1, ih hrest hes.2⟩
  | struct name al sub rest ihsub ihrest =>
    obtain ⟨st, frees, w, more, hst, hrest, rfl, rfl⟩ := depopulateAtts_struct h
    rw [onlyBlocks_append] at hes
    refine ⟨fun c hc hpop => ?_, ihrest hrest hes.2⟩
    rcases depopulateStruct_eq_some hst with ⟨hnone, -, -⟩ | ⟨c₁, c', hc₁, rfl, hdep⟩
    · rw [hc] at hnone
      cases hnone
    · obtain rfl : c₁ = c := Option.some_injective _ (hc₁.symm.trans hc)
      exact settled_of_depopulateTmpl (fun _ _ _ hbody => ihsub hbody) hdep hes.1 hpop
  | structs name al sub dim delim rest ihsub ihrest =>
    obtain ⟨frees, w, more, hfree, hrest, rfl, rfl⟩ := depopulateAtts_structs h
    rw [onlyBlocks_append] at hes
    refine ⟨settled_of_freeArrayOfStructs (fun ns c es hc hblocks hpop => ?_) hfree hes.1,
      ihrest hrest hes.2⟩
    obtain ⟨c', hc'⟩ := freeStruct_eq_some hc
    exact settled_of_depopulateTmpl (fun _ _ _ hbody => ihsub hbody) hc' hblocks hpop

/-! ## What populating does to the account -/

section Held

variable {heapAddr : Nat → Nat} {r : Record} {n n' : Notes} {as bs cs : List (List Nat × Nat)}

theorem Notes.Held.swap (h : n.Held (as ++ (bs ++ cs))) : n.Held (bs ++ (as ++ cs)) :=
  HeapEvent.Held.subperm h (List.perm_append_comm_assoc ..).symm.subperm

theorem Notes.Held.drop (h : n.Held (as ++ bs)) : n.Held bs :=
  HeapEvent.Held.subperm h (List.sublist_append_right as bs).subperm

/-- An array attribute has what it had, or what was allocated for it. -/
theorem Arrayed.held {owner : List Nat} {p : Nat} {s s' : AttState}
    (h : Arrayed r owner p s s' n n') (hn : n.Held (s.value.valArray.block owner ++ bs)) :
    n'.Held (s'.value.valArray.block owner ++ bs) := by
  obtain ⟨-, b, hstep, hfilled⟩ := h
  generalize s.value.valArray = old at *
  generalize s'.value.valArray = new at *
  have hheld := hstep.held hn
  cases hfilled with
  | kept => exact hheld
  | record => exact Notes.Held.drop hheld
  | heap id => exact Notes.Held.drop (Notes.Held.swap hheld)

theorem populateField_held (owner : List Nat) (aligned : Bool) (base : Nat) (name : Option String)
    (f : Field) (s : AttState) {l : Loop} (h : l.notes.Held (fieldPtrs owner f s ++ bs)) :
    (populateField heapAddr r owner aligned base name f s l).2.1.notes.Held
      (fieldPtrs owner f (populateField heapAddr r owner aligned base name f s l).1 ++ bs) := by
  cases f with
  | const => exact h
  | bitField ty width =>
    unfold populateField
    have hstart := startAtt_bits_moved (r := r) aligned base l
    dsimp only
    generalize startAtt r aligned base none l = out at *
    obtain ⟨l₁, leaves⟩ := out
    cases leaves with
    | true => exact hstart.inert.held.mpr h
    | false =>
      dsimp only
      rw [found_notes]
      exact (hstart.trans (moved_populateBitField ..)).inert.held.mpr h
  | scalar ty =>
    rw [populateField_scalar]
    have hstart := startAtt_moved (r := r) aligned base (archTypeInfo r.arch ty).align l
    generalize startAtt r aligned base _ l = out at *
    obtain ⟨l₁, leaves⟩ := out
    have h₁ : l₁.notes.Held bs := hstart.inert.held.mpr h
    cases leaves with
    | true => exact h₁
    | false =>
      dsimp only
      rw [(turnEnd_notes ..).1]
      obtain ⟨b, hstep⟩ := populateValue_heap (r := r) (n := l₁.notes) ty
        { s with rawdata := .data (r.addr + l₁.notes.next) }
      exact (hstep.held h₁).drop
  | array ty dim delim =>
    rw [populateField_array]
    have hstart := startAtt_moved (r := r) aligned base (archTypeInfo r.arch ty).align l
    generalize startAtt r aligned base _ l = out at *
    obtain ⟨l₁, leaves⟩ := out
    have h₁ : l₁.notes.Held (s.value.valArray.block owner ++ bs) := hstart.inert.held.mpr h
    cases leaves with
    | true => exact h₁
    | false =>
      dsimp only
      rw [(turnEnd_notes ..).1, (turnEnd_notes ..).2]
      exact (populateArray_heap (r := r) (n := l₁.notes) heapAddr ty dim delim
        l₁.env { s with rawdata := .data (r.addr + l₁.notes.next) }).held h₁

/-- What an array attribute has of a record it has from this one. -/
theorem Arrayed.settled {owner : List Nat} {p : Nat} {s s' : AttState} {ty : BaseType}
    {dim : Dimension} {delim : Option Delimiter} (h : Arrayed r owner p s s' n n')
    (hs : ∀ a, s.value.valArray ≠ .data a) (hraw : s.rawdata = .data (r.addr + p)) :
    (Field.array ty dim delim).Settled s' := by
  obtain ⟨hraw', b, -, hfilled⟩ := h
  intro a ha
  generalize s.value.valArray = old at *
  generalize s'.value.valArray = new at *
  cases hfilled with
  | kept => exact absurd ha (hs a)
  | record =>
    rw [hraw', hraw]
    exact ha
  | heap id => cases ha

theorem populateField_settled (owner : List Nat) (aligned : Bool) (base : Nat) (name : Option String)
    (f : Field) (l : Loop) :
    f.Settled (populateField heapAddr r owner aligned base name f .zero l).1 := by
  cases f with
  | array ty dim delim =>
    rw [populateField_array]
    generalize startAtt r aligned base _ l = out
    obtain ⟨l₁, leaves⟩ := out
    cases leaves with
    | true => exact fun a ha => nomatch ha
    | false =>
      dsimp only
      rw [(turnEnd_notes ..).2]
      exact (populateArray_heap (r := r) (n := l₁.notes) heapAddr ty dim delim
        l₁.env { AttState.zero with rawdata := .data (r.addr + l₁.notes.next) }).settled
          (fun a ha => nomatch ha) rfl
  | _ => trivial

/-- What holds of an attribute after its turn, and of the others, holds of them all. -/
theorem andThen_forall {α β : Type} {P : α → Prop} {Q : β → Prop} {rest : Loop → β × Loop × Flow}
    {v : β} {out : α × Loop × Flow} (hout : P out.1) (hv : Q v) (hrest : ∀ l, Q (rest l).1) :
    P (andThen rest v out).1.1 ∧ Q (andThen rest v out).1.2 := by
  obtain ⟨a, l, flow⟩ := out
  cases flow with
  | stop why => exact ⟨hout, hv⟩
  | leave => exact ⟨hout, hv⟩
  | next => exact ⟨hout, hrest l⟩

theorem Vals.settled_fresh (atts : Atts) : Vals.Settled atts (.fresh atts) := by
  induction atts with
  | nil => trivial
  | field name f rest ih =>
    refine ⟨?_, ih⟩
    cases f <;> first | trivial | exact fun a ha => nomatch ha
  | struct name al sub rest ihsub ihrest => exact ⟨fun c hc => (nomatch hc), ihrest⟩
  | structs name al sub dim delim rest ihsub ihrest => exact ⟨fun c hc => (nomatch hc), ihrest⟩

/-- A new clone is settled when it has been populated. -/
theorem populateAtts_settled (aligned : Bool) (atts : Atts) (i : Nat) (path : List Nat) (base : Nat)
    (l : Loop) : Vals.Settled atts (populateAtts heapAddr r aligned atts i path base (.fresh atts) l).1 := by
  induction atts generalizing aligned i path base l with
  | nil => trivial
  | field name f rest ih =>
    rw [populateAtts_field]
    exact andThen_forall (Q := Vals.Settled rest)
      (populateField_settled (i :: path) aligned base name f l) (Vals.settled_fresh rest)
      fun l => ih aligned (i + 1) path base l
  | struct name al sub rest ihsub ihrest =>
    rw [populateAtts_struct]
    generalize startAtt r aligned base _ l = out
    obtain ⟨l₁, leaves⟩ := out
    cases leaves with
    | true => exact Vals.settled_fresh (.struct name al sub rest)
    | false =>
      refine andThen_forall (Q := Vals.Settled rest)
        (P := fun a : AttState × Option (CloneOf (Vals sub)) =>
          ∀ c, a.2 = some c → c.populated = true → Vals.Settled sub c.atts) ?_
        (Vals.settled_fresh rest) fun l => ihrest aligned (i + 1) path base l
      intro c hc hpop
      rw [(structEnd_clone ..).1] at hc
      obtain rfl := Option.some_injective _ hc
      unfold populateStruct
      rw [(populateTmpl_atts ..).1]
      exact ihsub al 0 (i :: path) _ _
  | structs name al sub dim delim rest ihsub ihrest =>
    rw [populateAtts_structs]
    generalize startAtt r aligned base _ l = out
    obtain ⟨l₁, leaves⟩ := out
    cases leaves with
    | true => exact Vals.settled_fresh (.structs name al sub dim delim rest)
    | false =>
      refine andThen_forall (Q := Vals.Settled rest)
        (P := fun a : AttState × List (CloneOf (Vals sub)) =>
          ∀ c ∈ a.2, c.populated = true → Vals.Settled sub c.atts) ?_
        (Vals.settled_fresh rest) fun l => ihrest aligned (i + 1) path base l
      rcases structsTurn_list (r := r) aligned al sub dim delim (i :: path)
        _ [] l₁ with hlist | ⟨nel, n, hlist⟩
      · rw [show (Vals.fresh (.structs name al sub dim delim rest)).1.2 = [] from rfl, hlist]
        exact fun c hc => nomatch hc
      · rw [show (Vals.fresh (.structs name al sub dim delim rest)).1.2 = [] from rfl, hlist]
        refine populateArrayOfStructs_forall (fun ns n hpop => ?_) nel 0
        unfold populateStruct
        rw [(populateTmpl_atts ..).1]
        exact ihsub al 0 (ns :: i :: path) _ _

theorem populateStruct_settled (al : Bool) (sub : Atts) (path : List Nat) :
    Vals.Settled sub (populateStruct heapAddr r al sub path (cloneTemplate sub) n).1.atts := by
  unfold populateStruct
  rw [(populateTmpl_atts ..).1]
  exact populateAtts_settled al sub 0 path _ _

theorem populateArrayOfStructs_held {α : Type} {ptrs : Nat → α → List (List Nat × Nat)}
    {run : Nat → Notes → CloneOf α × Notes × Env × Flow}
    {free : Nat → CloneOf α → Option (List Event)}
    (hrun : ∀ ns n bs, n.Held bs → (run ns n).2.1.Held (ptrs ns (run ns n).1.atts ++ bs))
    (hfree : ∀ ns n es, free ns (run ns n).1 = some es → Released es (ptrs ns (run ns n).1.atts) [])
    (nel ns : Nat) (hn : n.Held bs) :
    (populateArrayOfStructs run free nel ns n).2.1.Held
      (listPtrs ptrs ns (populateArrayOfStructs run free nel ns n).1 ++ bs) := by
  induction nel generalizing ns n bs with
  | zero => exact hn
  | succ nel ih =>
    have hheld := hrun ns n bs hn
    rcases Flow.goes_or_stop (run ns n).2.2.2 with hgoes | ⟨why, hstop⟩
    · rw [populateArrayOfStructs_goes hgoes]
      split
      · cases hfrees : free ns (run ns n).1 with
        | none => exact hheld.drop
        | some frees => exact (hfree ns n frees hfrees).held hheld
      · split
        · rw [listPtrs, listPtrs, List.append_nil]
          exact hheld
        · rw [listPtrs, List.append_assoc]
          exact (ih (ns + 1) hheld).swap
    · rw [populateArrayOfStructs_stop hstop, listPtrs, listPtrs, List.append_nil]
      exact hheld

/-- The arrays of an attribute and of the others, after a turn. -/
theorem andThen_held {α β : Type} (own : α → List (List Nat × Nat)) (ptrs : β → List (List Nat × Nat))
    {rest : Loop → β × Loop × Flow} {v : β} {out : α × Loop × Flow}
    (hrest : ∀ l bs, l.notes.Held (ptrs v ++ bs) → (rest l).2.1.notes.Held (ptrs (rest l).1 ++ bs))
    (hout : out.2.1.notes.Held (own out.1 ++ (ptrs v ++ bs))) :
    (andThen rest v out).2.1.notes.Held
      (own (andThen rest v out).1.1 ++ ptrs (andThen rest v out).1.2 ++ bs) := by
  obtain ⟨a, l, flow⟩ := out
  rw [List.append_assoc]
  cases flow with
  | stop why => exact hout
  | leave => exact hout
  | next => exact (hrest l _ hout.swap).swap

theorem structsTurn_held {aligned al : Bool} {sub : Atts} {dim : Dimension} {delim : Option Delimiter}
    {path : List Nat} (s : AttState) (list : List (CloneOf (Vals sub))) {l : Loop}
    (hrun : ∀ ns n bs, n.Held bs →
      (populateStruct heapAddr r al sub (ns :: path) (cloneTemplate sub) n).2.1.Held
        (Vals.ptrs sub 0 (ns :: path)
          (populateStruct heapAddr r al sub (ns :: path) (cloneTemplate sub) n).1.atts ++ bs))
    (hn : l.notes.Held (listPtrs (fun ns v => Vals.ptrs sub 0 (ns :: path) v) 0 list ++ bs)) :
    (structsTurn heapAddr r aligned al sub dim delim path s list l).2.1.notes.Held
      (listPtrs (fun ns v => Vals.ptrs sub 0 (ns :: path) v) 0
        (structsTurn heapAddr r aligned al sub dim delim path s list l).1.2 ++ bs) := by
  unfold structsTurn structsExpected
  have hdelim := inert_populateDelimiter (n := l.notes) l.env delim s
  dsimp only
  generalize populateDelimiter l.env delim s l.notes = out at *
  obtain ⟨s₁, n₁⟩ := out
  have hn₁ := hdelim.held.mpr hn
  cases dim.type.value heapAddr l.env (bytesRemaining r l.notes.next) with
  | none => exact hn₁
  | some d =>
    dsimp only [Option.map_some]
    split
    · rw [nextAttr_notes]
      exact hn₁
    · have hheld := populateArrayOfStructs_held
        hrun
        (fun ns n es h => freeStruct_released (fun _ => populateStruct_settled ..) h)
        (toInt (toLong d)).toNat 0 hn₁.drop
      generalize populateArrayOfStructs _ _ _ 0 n₁ = out at *
      obtain ⟨list', n₂, flow⟩ := out
      have hset : Inert n₂ (setList dim l.notes.next list'.length s₁ n₂).2 := by
        unfold setList
        split
        · exact (inert_setDimension2 ..).emit rfl
        · exact .refl n₂
      cases flow with
      | stop why => exact hheld
      | leave =>
        dsimp only
        rw [nextAttr_notes]
        exact hset.held.mpr hheld
      | next =>
        dsimp only
        rw [nextAttr_notes]
        exact hset.held.mpr hheld

theorem populateStruct_held_of {al : Bool} {sub : Atts} {path : List Nat} {c : CloneOf (Vals sub)}
    (hsub : ∀ base l, l.notes.Held (Vals.ptrs sub 0 path c.atts ++ bs) →
      (populateAtts heapAddr r al sub 0 path base c.atts l).2.1.notes.Held
        (Vals.ptrs sub 0 path (populateAtts heapAddr r al sub 0 path base c.atts l).1 ++ bs))
    (hn : n.Held (Vals.ptrs sub 0 path c.atts ++ bs)) :
    (populateStruct heapAddr r al sub path c n).2.1.Held
      (Vals.ptrs sub 0 path (populateStruct heapAddr r al sub path c n).1.atts ++ bs) := by
  obtain ⟨hatts, hmoved⟩ := populateTmpl_atts (r := r) (n := n) al (tmAlignment al sub) sub.minSize
    (fun base v l => populateAtts heapAddr r al sub 0 path base v l) c
  unfold populateStruct
  rw [hatts]
  exact hmoved.inert.held.mpr (hsub n.next _ hn)

/-- The account of the arrays is kept when a clone is populated, new or not. -/
theorem populateAtts_held (aligned : Bool) (atts : Atts) (i : Nat) (path : List Nat) (base : Nat)
    (v : Vals atts) {l : Loop} (hn : l.notes.Held (Vals.ptrs atts i path v ++ bs)) :
    (populateAtts heapAddr r aligned atts i path base v l).2.1.notes.Held
      (Vals.ptrs atts i path (populateAtts heapAddr r aligned atts i path base v l).1 ++ bs) := by
  induction atts generalizing aligned i path base l bs with
  | nil => exact hn
  | field name f rest ih =>
    rw [populateAtts_field]
    obtain ⟨s, v⟩ := v
    rw [Vals.ptrs, List.append_assoc] at hn
    exact andThen_held (fieldPtrs (i :: path) f) (Vals.ptrs rest (i + 1) path)
      (fun l bs h => ih aligned (i + 1) path base v h)
      (populateField_held (i :: path) aligned base name f s hn)
  | struct name al sub rest ihsub ihrest =>
    rw [populateAtts_struct]
    have hstart := startAtt_moved (r := r) aligned base (tmAlignment al sub) l
    generalize startAtt r aligned base _ l = out at *
    obtain ⟨l₁, leaves⟩ := out
    have hn₁ := hstart.inert.held.mpr hn
    cases leaves with
    | true => exact hn₁
    | false =>
      obtain ⟨⟨s, st⟩, v⟩ := v
      rw [Vals.ptrs, List.append_assoc] at hn₁
      refine andThen_held
        (fun a : AttState × Option (CloneOf (Vals sub)) =>
          structPtrs (fun v => Vals.ptrs sub 0 (i :: path) v) a.2)
        (Vals.ptrs rest (i + 1) path) (fun l bs h => ihrest aligned (i + 1) path base v h) ?_
      dsimp only
      rw [(structEnd_clone ..).1]
      refine (structEnd_clone ..).2.inert.held.mpr ?_
      have hclone : l₁.notes.Held
          (Vals.ptrs sub 0 (i :: path) (st.getD (cloneTemplate sub)).atts ++
            (Vals.ptrs rest (i + 1) path v ++ bs)) := by
        cases st with
        | none =>
          rw [Option.getD_none, cloneTemplate, Vals.ptrs_fresh]
          exact hn₁
        | some c => exact hn₁
      exact populateStruct_held_of (fun base l h => ihsub al 0 (i :: path) base _ h) hclone
  | structs name al sub dim delim rest ihsub ihrest =>
    rw [populateAtts_structs]
    have hstart := startAtt_moved (r := r) aligned base (tmAlignment al sub) l
    generalize startAtt r aligned base _ l = out at *
    obtain ⟨l₁, leaves⟩ := out
    have hn₁ := hstart.inert.held.mpr hn
    cases leaves with
    | true => exact hn₁
    | false =>
      obtain ⟨⟨s, list⟩, v⟩ := v
      rw [Vals.ptrs, List.append_assoc] at hn₁
      refine andThen_held
        (fun a : AttState × List (CloneOf (Vals sub)) =>
          listPtrs (fun ns v => Vals.ptrs sub 0 (ns :: i :: path) v) 0 a.2)
        (Vals.ptrs rest (i + 1) path) (fun l bs h => ihrest aligned (i + 1) path base v h) ?_
      refine structsTurn_held _ list (fun ns n bs hbs => ?_) hn₁
      refine populateStruct_held_of (fun base l h => ihsub al 0 (ns :: i :: path) base _ h) ?_
      rw [cloneTemplate, Vals.ptrs_fresh]
      exact hbs

theorem populateStruct_held (heapAddr : Nat → Nat) (al : Bool) {sub : Atts} {path : List Nat}
    {c : CloneOf (Vals sub)}
    (hn : n.Held (Vals.ptrs sub 0 path c.atts ++ bs)) :
    (populateStruct heapAddr r al sub path c n).2.1.Held
      (Vals.ptrs sub 0 path (populateStruct heapAddr r al sub path c n).1.atts ++ bs) :=
  populateStruct_held_of (fun base _ h => populateAtts_held al sub 0 path base c.atts h) hn

end Held

end Evlog.Template
