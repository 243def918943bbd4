/-
Evlog.Template.MoveTheorems — what an attribute takes leaves the rest alone.

Most of what is done for an attribute moves `pn_next` and says so in the
log. The arrays that are allocated, and what is shared by clones, stay as
they are (`Moved`).
-/
import Evlog.Lib.HeapTrace
import Evlog.Template.RunTheorems

namespace Evlog.Template

open Evlog.Lib Evlog.Posix

/-! ## The trace -/

/-- An event as one of the heap. To free a null pointer is nothing. -/
def Event.heap : Event → Option (HeapEvent (List Nat))
  | .alloc owner id => some (.alloc owner id)
  | .free owner (.heap id) => some (.free owner (some id))
  | .free owner (.data _) => some (.free owner none)
  | _ => none

def heapEvents (es : List Event) : List (HeapEvent (List Nat)) := es.filterMap Event.heap

@[simp] theorem heapEvents_append (es es' : List Event) :
    heapEvents (es ++ es') = heapEvents es ++ heapEvents es' := List.filterMap_append

/-- Nothing is allocated or freed, and nothing that is shared is set. -/
structure Moved (n n' : Notes) : Prop where
  heap : n'.heap = n.heap
  events : heapEvents n'.log = heapEvents n.log
  dims : n'.dims = n.dims
  delims : n'.delims = n.delims

section Moved

variable {r : Record} {n n' n'' : Notes}

theorem Moved.refl (n : Notes) : Moved n n := ⟨rfl, rfl, rfl, rfl⟩

theorem Moved.trans (h : Moved n n') (h' : Moved n' n'') : Moved n n'' :=
  ⟨h'.heap.trans h.heap, h'.events.trans h.events, h'.dims.trans h.dims, h'.delims.trans h.delims⟩

theorem moved_emit {e : Event} (he : e.heap = none) : Moved n (n.emit e) := by
  refine ⟨rfl, ?_, rfl, rfl⟩
  have hnone : heapEvents [e] = [] := by
    rw [heapEvents, List.filterMap_cons, he]
    rfl
  rw [emit_log, heapEvents_append, hnone, List.append_nil]

theorem Moved.emit (h : Moved n n') {e : Event} (he : e.heap = none) : Moved n (n'.emit e) :=
  h.trans (moved_emit he)

theorem moved_setNext (p : Nat) : Moved n (n.setNext p) :=
  ⟨rfl, (heapEvents_append n.log [.next p]).trans (List.append_nil _), rfl, rfl⟩

theorem Moved.setNext (h : Moved n n') (p : Nat) : Moved n (n'.setNext p) :=
  h.trans (moved_setNext p)

theorem moved_out : Moved n n.out := ⟨rfl, rfl, rfl, rfl⟩

theorem moved_collectString : Moved n (collectString r n).1 := by
  unfold collectString
  dsimp only
  split
  · exact (moved_emit rfl).trans moved_out
  · exact (moved_emit rfl).setNext _

theorem moved_collectWstring : Moved n (collectWstring r n).1 := by
  unfold collectWstring
  dsimp only
  split
  · exact (moved_emit rfl).trans moved_out
  · exact (moved_emit rfl).setNext _

theorem moved_collectAll {collect : Notes → Notes × Option Nat}
    (hc : ∀ n, Moved n (collect n).1) (nel : Nat) : Moved n (collectAll collect nel n).1 := by
  induction nel generalizing n with
  | zero => exact .refl n
  | succ nel ih =>
    unfold collectAll
    have := hc n
    split
    · rename_i heq
      rwa [heq] at this
    · rename_i heq
      rw [heq] at this
      exact this.trans ih

theorem moved_alignNextPtr (base alignment : Nat) : Moved n (alignNextPtr r base alignment n) := by
  unfold alignNextPtr
  dsimp only
  split
  · exact (moved_setNext _).trans moved_out
  · exact moved_setNext _

theorem moved_enforceMinSize (base minSize : Nat) : Moved n (enforceMinSize r base minSize n) := by
  unfold enforceMinSize
  dsimp only
  split
  · split
    · exact (moved_setNext _).trans moved_out
    · exact moved_setNext _
  · exact .refl n

theorem moved_adjustNext (bfStart bfOffset : Nat) :
    Moved n (adjustNextPerBitFields n bfStart bfOffset) := moved_setNext _

theorem moved_endNotes (aligned : Bool) (base alignment minSize : Nat) (l : Loop) :
    Moved l.notes (endNotes r aligned base alignment minSize l) := by
  unfold endNotes
  split
  · exact ((moved_adjustNext ..).trans (moved_alignNextPtr ..)).trans (moved_enforceMinSize ..)
  · exact .refl _

theorem moved_startNotes (aligned : Bool) (base alignment : Nat) (l : Loop) :
    Moved l.notes (startNotes r aligned base alignment l) := by
  unfold startNotes
  split
  · exact (moved_adjustNext ..).trans (moved_alignNextPtr ..)
  · exact .refl _

theorem moved_storageUnit (base : Nat) (ty : BaseType) (width : Nat) (l : Loop) :
    Moved l.notes (storageUnit r base ty width l).notes := by
  unfold storageUnit
  split
  · exact (moved_adjustNext ..).trans (moved_alignNextPtr ..)
  · exact .refl _

theorem moved_takeBits (base : Nat) (ty : BaseType) (width : Nat) (name : Option String)
    (s : AttState) (l : Loop) : Moved l.notes (takeBits r base ty width name s l).2.notes := by
  unfold takeBits
  have h : Moved l.notes (if name.isSome then
      extractDataFromBitField r base ty l.bfStart l.bfOffset width s l.notes
      else (s, l.notes)).2 := by
    split
    · exact ((moved_emit rfl).emit rfl).emit rfl
    · exact .refl _
  dsimp only
  split
  · exact h.setNext _
  · exact h

theorem moved_outOfData (l : Loop) : Moved l.notes (outOfData r l).notes :=
  (moved_setNext _).trans moved_out

theorem moved_populateBitField (base : Nat) (ty : BaseType) (width : Nat) (name : Option String)
    (s : AttState) (l : Loop) :
    Moved l.notes (populateBitField r base ty width name s l).2.notes := by
  rw [populateBitField_eq]
  have hnoted : Moved l.notes (l.noted base ty width).notes := moved_emit rfl
  have hunit := hnoted.trans (moved_storageUnit (r := r) base ty width (l.noted base ty width))
  split
  · split
    · exact hnoted.trans (moved_outOfData _)
    · exact hnoted
  · dsimp only
    split
    · exact hunit.trans (moved_outOfData _)
    · exact hunit.trans (moved_takeBits ..)

/-- The start of a turn, when the loop is left there, and when it is not. -/
theorem startAtt_moved (aligned : Bool) (base a : Nat) (l : Loop) :
    Moved l.notes (startAtt r aligned base (some a) l).1.notes := by
  rw [startAtt_some]
  have h := moved_startNotes (r := r) aligned base a l
  split
  · exact h.trans moved_out
  · exact h

theorem startAtt_bits_moved (aligned : Bool) (base : Nat) (l : Loop) :
    Moved l.notes (startAtt r aligned base none l).1.notes := by
  rw [startAtt_none]
  split
  · exact moved_out
  · exact .refl _

end Moved

/-! ## What becomes of the states -/

section States

variable {heapAddr : Nat → Nat} {r : Record} {n : Notes}

theorem turnEnd_notes (aligned : Bool) (name : Option String) (ty : BaseType) (l : Loop)
    (out : AttState × Notes × Flow) :
    (turnEnd aligned name ty l out).2.1.notes = out.2.1 ∧ (turnEnd aligned name ty l out).1 = out.1 := by
  obtain ⟨s, n, flow⟩ := out
  cases flow with
  | stop why => exact ⟨rfl, rfl⟩
  | leave => exact ⟨rfl, rfl⟩
  | next =>
    dsimp only [turnEnd]
    rw [found_notes, nextAttr_notes]
    exact ⟨rfl, rfl⟩

/-- Behind the attributes of a template there is nothing more to allocate. -/
theorem populateTmpl_atts {α : Type} (aligned : Bool) (alignment minSize : Nat)
    (body : Nat → α → Loop → α × Loop × Flow) (c : CloneOf α) :
    (populateTmpl r aligned alignment minSize body c n).1.atts =
        (body n.next c.atts ⟨n, n.next, 0, []⟩).1 ∧
      Moved (body n.next c.atts ⟨n, n.next, 0, []⟩).2.1.notes
        (populateTmpl r aligned alignment minSize body c n).2.1 := by
  rcases Flow.goes_or_stop (body n.next c.atts ⟨n, n.next, 0, []⟩).2.2 with hgoes | ⟨why, hstop⟩
  · rw [populateTmpl_goes hgoes]
    exact ⟨rfl, moved_endNotes ..⟩
  · rw [populateTmpl_stop hstop]
    exact ⟨rfl, .refl _⟩

theorem structEnd_clone (aligned : Bool) (name : String) {sub : Atts} (s : AttState) (l : Loop)
    (out : CloneOf (Vals sub) × Notes × Env × Flow) :
    (structEnd aligned name s l out).1.2 = some out.1 ∧
      Moved out.2.1 (structEnd aligned name s l out).2.1.notes := by
  obtain ⟨c, n, env, flow⟩ := out
  have hset : Moved n (setStruct aligned name c.dataSize env s { l with notes := n }).2.notes := by
    unfold setStruct
    split
    · dsimp only
      rw [nextAttr_notes]
      exact moved_emit rfl
    · rw [nextAttr_notes]
      exact .refl n
  cases flow with
  | stop why => exact ⟨rfl, .refl n⟩
  | leave => exact ⟨rfl, hset⟩
  | next => exact ⟨rfl, hset⟩

/-- What holds of all structs that are populated, holds of the list of them. -/
theorem populateArrayOfStructs_forall {α : Type} {P : CloneOf α → Prop}
    {run : Nat → Notes → CloneOf α × Notes × Env × Flow}
    {free : Nat → CloneOf α → Option (List Event)} (hrun : ∀ ns n, P (run ns n).1) (nel ns : Nat) :
    ∀ c ∈ (populateArrayOfStructs run free nel ns n).1, P c := by
  induction nel generalizing ns n with
  | zero => exact fun c hc => nomatch hc
  | succ nel ih =>
    rcases Flow.goes_or_stop (run ns n).2.2.2 with hgoes | ⟨why, hstop⟩
    · rw [populateArrayOfStructs_goes hgoes]
      split
      · cases free ns (run ns n).1 <;> exact fun c hc => nomatch hc
      · split
        · exact List.forall_mem_singleton.mpr (hrun ns n)
        · exact List.forall_mem_cons.mpr ⟨hrun ns n, ih (ns + 1)⟩
    · rw [populateArrayOfStructs_stop hstop]
      exact List.forall_mem_singleton.mpr (hrun ns n)

/-- A list of structs is what it was, or it is made of structs that were populated. -/
theorem structsTurn_list (aligned al : Bool) (sub : Atts) (dim : Dimension) (delim : Option Delimiter)
    (path : List Nat) (s : AttState) (list : List (CloneOf (Vals sub))) (l : Loop) :
    (structsTurn heapAddr r aligned al sub dim delim path s list l).1.2 = list ∨
      ∃ nel n, (structsTurn heapAddr r aligned al sub dim delim path s list l).1.2 =
        (populateArrayOfStructs
          (fun ns n => populateStruct heapAddr r al sub (ns :: path) (cloneTemplate sub) n)
          (freeStruct sub path) nel 0 n).1 := by
  unfold structsTurn
  generalize structsExpected heapAddr r dim delim l.env s l.notes = out
  obtain ⟨s₁, n₁, nel⟩ := out
  cases nel with
  | none => exact .inl rfl
  | some nel =>
    dsimp only
    split
    · exact .inl rfl
    · refine .inr ⟨nel.toNat, n₁, ?_⟩
      generalize populateArrayOfStructs _ _ nel.toNat 0 n₁ = out
      obtain ⟨list', n₂, flow⟩ := out
      cases flow <;> rfl

end States

end Evlog.Template
