/-
Evlog.Template.BlockTheorems — a template is populated from the data of the
record, and nothing else.

`pn_next` is kept in the data, whatever the template and the data are, up
to two exceptions. An array of scalars can be given a size of which only
the lower bits count (`ArrayStep.wraps`), and a storage unit is moved on by
the size of an `int` from where the last attribute ended, not from where
the unit starts (`BitFieldStep.overruns`). `populateRecord_inBlock_iff`
says that everything is in the data as long as neither happens, and that
something is not as soon as one does.

The second one may be seen late: the next attribute that is no bit-field, or
the end of the template, moves `pn_next` out of the data (`Pending`).
-/
import Evlog.Template.RunTheorems

namespace Evlog.Template

open Evlog.Lib Evlog.Posix

variable {r : Record}

/-! ## What can go wrong -/

/-- The storage unit is moved on too far: it goes on behind the last
attribute, and its bits end behind the data. -/
def BitFieldStep.overruns (r : Record) (b : BitFieldStep) : Prop :=
  b.width ≠ 0 ∧
    startsUnit (8 * (archTypeInfo r.arch b.ty).size) b.base b.bfStart b.bfOffset b.width = false ∧
    b.bfStart + bitsToBytes (b.bfOffset + b.width) ≤ r.size ∧ 32 ≤ b.bfOffset + b.width ∧
    r.size < b.next + bitsToBytes (b.bfOffset + b.width)

instance (r : Record) (b : BitFieldStep) : Decidable (b.overruns r) :=
  inferInstanceAs (Decidable (_ ∧ _ ∧ _ ∧ _ ∧ _))

def Event.Good (r : Record) : Event → Prop
  | .array a => ¬a.wraps r
  | .bitField b => ¬b.overruns r
  | _ => True

instance (r : Record) (e : Event) : Decidable (e.Good r) :=
  match e with
  | .array a => inferInstanceAs (Decidable ¬a.wraps r)
  | .bitField b => inferInstanceAs (Decidable ¬b.overruns r)
  | .next _ | .read _ _ | .att _ _ | .struct _ _ | .bits _ _ _ | .extra _ _ | .alloc _ _
  | .free _ _ => inferInstanceAs (Decidable True)

theorem Event.Plain.good {e : Event} (h : e.Plain) : e.Good r := by
  cases e with
  | array a => exact h.elim
  | bitField b => exact h.elim
  | _ => trivial

/-- Everything so far is in the data, and no step went wrong. -/
def Clean (r : Record) (es : List Event) : Prop := ∀ e ∈ es, e.InBlock r ∧ e.Good r

def Bad (r : Record) (es : List Event) : Prop := (∃ e ∈ es, ¬e.Good r) ∧ ∃ e ∈ es, ¬e.InBlock r

variable {es : List Event}

theorem clean_append {es' : List Event} : Clean r (es ++ es') ↔ Clean r es ∧ Clean r es' :=
  List.forall_mem_append

theorem clean_singleton {e : Event} : Clean r [e] ↔ e.InBlock r ∧ e.Good r := by simp [Clean]

variable {n n' : Notes} {len base width : Nat}

theorem Took.clean (h : Took r n n' len es) : Clean r es :=
  fun e he => ⟨h.inBlock e he, (h.plain e he).good⟩

theorem Bad.mono (hgrows : Grows n n') (h : Bad r n.log) : Bad r n'.log := by
  obtain ⟨⟨e, he, hgood⟩, e', he', hin⟩ := h
  exact ⟨⟨e, hgrows.mem he, hgood⟩, e', hgrows.mem he', hin⟩

theorem Clean.not_bad (h : Clean r es) : ¬Bad r es := by
  rintro ⟨⟨e, he, hgood⟩, -⟩
  exact hgood (h e he).2

/-- If everything is in the data then no step went wrong, and conversely. -/
theorem inBlock_iff_good (h : Clean r es ∨ Bad r es) :
    (∀ e ∈ es, e.InBlock r) ↔ ∀ e ∈ es, e.Good r := by
  rcases h with hclean | ⟨⟨e, he, hgood⟩, e', he', hin⟩
  · exact ⟨fun _ e he => (hclean e he).2, fun _ e he => (hclean e he).1⟩
  · exact ⟨fun hall => absurd (hall e' he') hin, fun hall => absurd (hall e he) hgood⟩

/-! ## The invariant -/

/-- Both places are in the data. -/
structure Inside (r : Record) (l : Loop) : Prop where
  clean : Clean r l.notes.log
  next : l.notes.next ≤ r.size
  bits : l.bfStart + bitsToBytes l.bfOffset ≤ r.size

/-- A storage unit was moved on too far, and it is not seen yet. -/
structure Pending (r : Record) (aligned : Bool) (l : Loop) : Prop where
  aligned : aligned = true
  bad : ∃ e ∈ l.notes.log, ¬e.Good r
  start : l.bfStart ≤ r.size
  bits : r.size < l.bfStart + bitsToBytes l.bfOffset

/-- The notes between templates. -/
structure NotesInside (r : Record) (n : Notes) : Prop where
  clean : Clean r n.log
  next : n.next ≤ r.size

/-- Either everything is in the data, or something is known not to be. -/
def blockInv (r : Record) : RunInv where
  loop aligned _ l := Inside r l ∨ Bad r l.notes.log ∨ Pending r aligned l
  notes n := NotesInside r n ∨ Bad r n.log
  stop n := Clean r n.log ∨ Bad r n.log

def acceptedShape : Shape where
  tmpl _ := True
  field aligned name f := f.accepted aligned name = true
  nests aligned al := (al || !aligned) = true
  dim aligned d := d.accepted aligned = true

variable {aligned : Bool}

theorem Atts.Has.of_accepted {atts : Atts} (h : atts.accepted aligned = true) :
    atts.Has acceptedShape aligned := by
  induction atts generalizing aligned with
  | nil => trivial
  | field name f rest ih =>
    rw [Atts.accepted, Bool.and_eq_true] at h
    exact ⟨h.1, ih h.2⟩
  | struct name al sub rest ihsub ihrest =>
    simp only [Atts.accepted, Bool.and_eq_true] at h
    exact ⟨⟨h.1.1, trivial⟩, ihsub h.1.2, ihrest h.2⟩
  | structs name al sub dim delim rest ihsub ihrest =>
    simp only [Atts.accepted, Bool.and_eq_true] at h
    exact ⟨⟨h.1.1.1, trivial, h.1.2⟩, ihsub h.1.1.2, ihrest h.2⟩

/-! ### Moving on -/

theorem le_alignDataPtr (p base a : Nat) : p ≤ alignDataPtr p base a := by
  unfold alignDataPtr
  split <;> omega

theorem NotesInside.setNext (h : Clean r n.log) {p : Nat} (hp : p ≤ r.size) :
    NotesInside r (n.setNext p) :=
  ⟨clean_append.2 ⟨h, clean_singleton.2 ⟨hp, trivial⟩⟩, hp⟩

theorem NotesInside.alignNextPtr (h : NotesInside r n) (base a : Nat) :
    NotesInside r (alignNextPtr r base a n) := by
  unfold Template.alignNextPtr
  dsimp only
  split
  · exact ⟨(NotesInside.setNext h.clean le_rfl).clean, le_rfl⟩
  · exact .setNext h.clean (by omega)

theorem NotesInside.enforceMinSize (h : NotesInside r n) (base minSize : Nat) :
    NotesInside r (enforceMinSize r base minSize n) := by
  unfold Template.enforceMinSize
  dsimp only
  split
  · split
    · exact ⟨(NotesInside.setNext h.clean le_rfl).clean, le_rfl⟩
    · exact .setNext h.clean (by omega)
  · exact h

variable {l : Loop}

/-- Where bits are folded back that end behind the data, this is seen. -/
theorem Pending.adjust (h : Pending r aligned l) :
    Bad r (adjustNextPerBitFields l.notes l.bfStart l.bfOffset).log := by
  obtain ⟨e, he, hgood⟩ := h.bad
  refine ⟨⟨e, List.mem_append_left _ he, hgood⟩, _,
    List.mem_append_right _ (List.mem_singleton_self _), ?_⟩
  have hbits := h.bits
  dsimp only [Event.InBlock]
  omega

theorem Pending.alignNextPtr (h : Pending r aligned l) (base a : Nat) :
    Bad r (alignNextPtr r base a (adjustNextPerBitFields l.notes l.bfStart l.bfOffset)).log :=
  h.adjust.mono (adds_alignNextPtr base a).grows

theorem Inside.adjust (h : Inside r l) :
    NotesInside r (adjustNextPerBitFields l.notes l.bfStart l.bfOffset) :=
  .setNext h.clean h.bits

/-! ### Bit-fields -/

theorem bitsToBytes_zero : bitsToBytes 0 = 0 := rfl

theorem bitsToBytes_bytes (b : Nat) : bitsToBytes (8 * b) = b := by
  unfold bitsToBytes
  omega

theorem bitsToBytes_mono {b b' : Nat} (h : b ≤ b') : bitsToBytes b ≤ bitsToBytes b' := by
  unfold bitsToBytes
  omega

theorem NotesInside.inside (h : NotesInside r l.notes) (hstart : l.bfStart ≤ r.size)
    (hoffset : l.bfOffset = 0) : Inside r l :=
  ⟨h.clean, h.next, by rwa [hoffset, bitsToBytes_zero]⟩

theorem Inside.outOfData (h : Inside r l) : Inside r (outOfData r l) :=
  ⟨(NotesInside.setNext h.clean le_rfl).clean, le_rfl, h.bits⟩

theorem Pending.outOfData (h : Pending r aligned l) : Pending r aligned (outOfData r l) := by
  obtain ⟨e, he, hgood⟩ := h.bad
  exact ⟨h.aligned, ⟨e, List.mem_append_left _ he, hgood⟩, h.start, h.bits⟩

theorem Inside.storageUnit (h : Inside r l) (base : Nat) (ty : BaseType) (width : Nat) :
    Inside r (storageUnit r base ty width l) := by
  unfold Template.storageUnit
  split
  · have hn := h.adjust.alignNextPtr base (archTypeInfo r.arch ty).align
    exact NotesInside.inside hn hn.next rfl
  · exact h

variable {ty : BaseType}

theorem extract_clean {bfStart bfOffset : Nat} {s : AttState} (h : Clean r n.log) (hw : width ≠ 0)
    (hfits : bfStart + bitsToBytes (bfOffset + width) ≤ r.size) :
    Clean r (extractDataFromBitField r base ty bfStart bfOffset width s n).2.log := by
  have hend : bfStart + bfOffset / 8 +
      (bfStart + (bfOffset + width - 1) / 8 + 1 - (bfStart + bfOffset / 8)) ≤ r.size := by
    unfold bitsToBytes at hfits
    omega
  unfold extractDataFromBitField
  dsimp only
  rw [emit_log, emit_log, emit_log]
  refine clean_append.2 ⟨clean_append.2 ⟨clean_append.2 ⟨h, ?_⟩, ?_⟩, ?_⟩
  · exact clean_singleton.2 ⟨hend, trivial⟩
  · exact clean_singleton.2 ⟨hend, trivial⟩
  · exact clean_singleton.2 ⟨trivial, trivial⟩

/-- A bit-field that does not go wrong takes its bits from the data. -/
theorem Inside.takeBits (h : Inside r l) (base : Nat) (ty : BaseType) (name : Option String)
    (s : AttState) (hw : width ≠ 0) (hfits : l.bfStart + bitsToBytes (l.bfOffset + width) ≤ r.size)
    (hnext : 32 ≤ l.bfOffset + width →
      l.notes.next + bitsToBytes (l.bfOffset + width) ≤ r.size) :
    Inside r (takeBits r base ty width name s l).2 := by
  unfold Template.takeBits
  obtain ⟨sn, hsn⟩ : ∃ sn, sn =
      if name.isSome then extractDataFromBitField r base ty l.bfStart l.bfOffset width s l.notes
      else (s, l.notes) := ⟨_, rfl⟩
  have hn : NotesInside r sn.2 ∧ sn.2.next = l.notes.next := by
    rw [hsn]
    split
    · exact ⟨⟨extract_clean h.clean hw hfits, h.next⟩, rfl⟩
    · exact ⟨⟨h.clean, h.next⟩, rfl⟩
  rw [← hsn]
  dsimp only
  split
  · rename_i hunit
    have hend := hnext hunit
    rw [← hn.2] at hend
    have hfour : sn.2.next + 4 + bitsToBytes (l.bfOffset + width - 32) ≤ r.size := by
      unfold bitsToBytes at *
      omega
    exact ⟨(NotesInside.setNext hn.1.clean (by omega)).clean, by dsimp only [setNext_next]; omega,
      hfour⟩
  · exact ⟨hn.1.clean, hn.1.next, hfits⟩

/-- A bit-field that goes wrong is seen to, or it will be. -/
theorem takeBits_overruns (hbad : ∃ e ∈ l.notes.log, ¬e.Good r) (base : Nat) (ty : BaseType)
    (name : Option String) (s : AttState) (hunit : 32 ≤ l.bfOffset + width)
    (hover : r.size < l.notes.next + bitsToBytes (l.bfOffset + width)) :
    Bad r (takeBits r base ty width name s l).2.notes.log ∨
      Pending r true (takeBits r base ty width name s l).2 := by
  unfold takeBits
  obtain ⟨sn, hsn⟩ : ∃ sn, sn =
      if name.isSome then extractDataFromBitField r base ty l.bfStart l.bfOffset width s l.notes
      else (s, l.notes) := ⟨_, rfl⟩
  have hn : Grows l.notes sn.2 ∧ sn.2.next = l.notes.next := by
    rw [hsn]
    split
    · exact ⟨(((Grows.refl _).emit _).emit _).emit _, rfl⟩
    · exact ⟨.refl _, rfl⟩
  obtain ⟨e, he, hgood⟩ := hbad
  have hmem : e ∈ (sn.2.setNext (sn.2.next + 4)).log := List.mem_append_left _ (hn.1.mem he)
  rw [← hsn, if_pos hunit]
  rw [← hn.2] at hover
  rcases Nat.lt_or_ge r.size (sn.2.next + 4) with hout | hin
  · refine .inl ⟨⟨e, hmem, hgood⟩, .next (sn.2.next + 4),
      List.mem_append_right _ (List.mem_singleton_self _), ?_⟩
    dsimp only [Event.InBlock]
    omega
  · refine .inr ⟨rfl, ⟨e, hmem, hgood⟩, hin, ?_⟩
    dsimp only
    unfold bitsToBytes at *
    omega

theorem storageUnit_bits
    (h : startsUnit (8 * (archTypeInfo r.arch ty).size) base l.bfStart l.bfOffset width = true) :
    (storageUnit r base ty width l).bfStart = (storageUnit r base ty width l).notes.next := by
  rw [storageUnit, if_pos h]

theorem storageUnit_of_not
    (h : startsUnit (8 * (archTypeInfo r.arch ty).size) base l.bfStart l.bfOffset width = false) :
    storageUnit r base ty width l = l := by
  rw [storageUnit, if_neg (by rw [h]; exact Bool.false_ne_true)]

theorem Inside.noted (h : Inside r l)
    (hgood : ¬BitFieldStep.overruns r ⟨base, l.notes.next, l.bfStart, l.bfOffset, ty, width⟩) :
    Inside r (l.noted base ty width) :=
  ⟨clean_append.2 ⟨h.clean, clean_singleton.2 ⟨trivial, hgood⟩⟩, h.next, h.bits⟩

theorem Inside.populateBitField (h : Inside r l) (base : Nat) (ty : BaseType) (width : Nat)
    (name : Option String) (s : AttState) :
    (blockInv r).loop true base (populateBitField r base ty width name s l).2 := by
  rw [populateBitField_eq]
  by_cases hover :
      BitFieldStep.overruns r ⟨base, l.notes.next, l.bfStart, l.bfOffset, ty, width⟩
  · -- the unit is not a new one
    have hbad : ∃ e ∈ (l.noted base ty width).notes.log, ¬e.Good r :=
      ⟨_, List.mem_append_right _ (List.mem_singleton_self _), fun hgood => hgood hover⟩
    obtain ⟨hw, hstarts, hfits, hunit, hend⟩ := hover
    dsimp only at hw hstarts hfits hunit hend
    rw [if_neg hw]
    dsimp only
    rw [storageUnit_of_not (l := l.noted base ty width) hstarts, bytesRemaining_of_le (by dsimp only [Loop.noted]; omega),
      if_neg (by dsimp only [Loop.noted] at *; omega)]
    exact .inr (takeBits_overruns hbad base ty name s hunit hend)
  · have hnoted := h.noted hover
    split
    · split
      · exact .inl hnoted.outOfData
      · rename_i hlt
        refine .inl ⟨hnoted.clean, hnoted.next, ?_⟩
        have hle := le_alignDataPtr (l.bfStart + bitsToBytes l.bfOffset) base
          (archTypeInfo r.arch ty).size
        dsimp only [zeroWidthEnd, Loop.noted] at *
        rw [bitsToBytes_bytes]
        omega
    · rename_i hw
      dsimp only
      have hin := hnoted.storageUnit base ty width
      have hstart := (Nat.le_add_right _ _).trans hin.bits
      rw [bytesRemaining_of_le hstart]
      split
      · exact .inl hin.outOfData
      · rename_i hleft
        have hfits := (Nat.le_sub_iff_add_le' hstart).1 (Nat.not_lt.1 hleft)
        refine .inl (hin.takeBits base ty name s hw hfits fun hunit => ?_)
        cases hstarts : startsUnit (8 * (archTypeInfo r.arch ty).size) base
          (l.noted base ty width).bfStart (l.noted base ty width).bfOffset width with
        | true => rwa [storageUnit_bits hstarts] at hfits
        | false =>
          rw [storageUnit_of_not hstarts] at hunit hfits ⊢
          by_contra hend
          exact hover ⟨hw, hstarts, hfits, hunit, Nat.lt_of_not_le hend⟩

theorem Pending.noted (h : Pending r aligned l) (base : Nat) (ty : BaseType) (width : Nat) :
    Pending r aligned (l.noted base ty width) := by
  obtain ⟨e, he, hgood⟩ := h.bad
  exact ⟨h.aligned, ⟨e, List.mem_append_left _ he, hgood⟩, h.start, h.bits⟩

/-- No bit-field is taken from bits that end behind the data. -/
theorem Pending.populateBitField (h : Pending r aligned l) (base : Nat) (ty : BaseType)
    (width : Nat) (name : Option String) (s : AttState) :
    (blockInv r).loop aligned base (populateBitField r base ty width name s l).2 := by
  have hnoted := h.noted base ty width
  rw [populateBitField_eq]
  split
  · have hle := le_alignDataPtr (l.bfStart + bitsToBytes l.bfOffset) base
      (archTypeInfo r.arch ty).size
    have hbits := h.bits
    rw [if_pos (by dsimp only [zeroWidthEnd]; omega)]
    exact .inr (.inr hnoted.outOfData)
  · dsimp only
    cases hstarts : startsUnit (8 * (archTypeInfo r.arch ty).size) base
          (l.noted base ty width).bfStart (l.noted base ty width).bfOffset width with
    | true =>
      have hbad : Bad r (storageUnit r base ty width (l.noted base ty width)).notes.log := by
        rw [storageUnit, if_pos hstarts]
        exact hnoted.alignNextPtr base (archTypeInfo r.arch ty).align
      refine .inr (.inl ?_)
      split
      · exact hbad.mono (adds_setNext _).grows
      · exact hbad.mono (adds_takeBits ..).grows
    | false =>
      have hmono := bitsToBytes_mono (Nat.le_add_right l.bfOffset width)
      have hbits := h.bits
      have hstart := h.start
      rw [storageUnit_of_not hstarts, bytesRemaining_of_le hnoted.start, if_pos]
      · exact .inr (.inr hnoted.outOfData)
      · dsimp only [Loop.noted]
        omega

/-! ## The run -/

theorem blockInv_shared (h : (blockInv r).notes n) (hnext : n'.next = n.next)
    (hlog : n'.log = n.log) : (blockInv r).notes n' := by
  rcases h with h | h
  · exact .inl ⟨hlog ▸ h.clean, hnext ▸ h.next⟩
  · exact .inr (hlog ▸ h)

/-- What was in the data before it is found to be, still is. -/
theorem blockInv_next_le {n₀ : Notes} (hn₀ : (blockInv r).notes n₀) (hgrows : Grows n₀ n)
    (hn : NotesInside r n) : n₀.next ≤ r.size := by
  rcases hn₀ with hn₀ | hn₀
  · exact hn₀.next
  · exact absurd (hn₀.mono hgrows) hn.clean.not_bad

theorem Took.inside (h : Took r n n' len es) (hn : NotesInside r n) : NotesInside r n' :=
  ⟨by rw [h.log]; exact clean_append.2 ⟨hn.clean, h.clean⟩, by rw [h.next]; exact h.fits⟩

/-- An array of scalars that is given a wrong size has bytes behind the
data. -/
theorem Overflowed.bad {m : Notes} (h : Overflowed r n m) {a : ArrayStep} (ha : a.wraps r) :
    Bad r (m.emit (.array a)).log := by
  obtain ⟨es, hlog, -, p, len, hmem, hlt⟩ := h.log
  rw [emit_log, hlog]
  refine ⟨⟨.array a, by simp, fun hgood => hgood ha⟩, .att p len, by simp [hmem], ?_⟩
  dsimp only [Event.InBlock]
  omega

theorem blockInv_kept (heapAddr : Nat → Nat) (r : Record) :
    (blockInv r).Kept acceptedShape heapAddr r where
  enter := by
    intro aligned n _ h
    rcases h with h | h
    · exact .inl (NotesInside.inside h h.next rfl)
    · exact .inr (.inl h)
  env := by
    intro aligned base l env h
    rcases h with h | h | h
    · exact .inl ⟨h.clean, h.next, h.bits⟩
    · exact .inr (.inl h)
    · exact .inr (.inr ⟨h.aligned, h.bad, h.start, h.bits⟩)
  out := by
    intro aligned base l h
    rcases h with h | h | h
    · exact .inl ⟨h.clean, h.next, h.bits⟩
    · exact .inr (.inl h)
    · exact .inr (.inr ⟨h.aligned, h.bad, h.start, h.bits⟩)
  start := by
    intro aligned base l a h
    unfold startNotes
    rcases h with h | h | h
    · split
      · exact .inl (h.adjust.alignNextPtr base a)
      · exact .inl ⟨h.clean, h.next⟩
    · split
      · exact .inr (h.mono ((adds_adjustNext ..).trans (adds_alignNextPtr ..)).grows)
      · exact .inr h
    · rw [if_pos h.aligned]
      exact .inr (h.alignNextPtr base a)
  resume := by
    intro aligned base n₀ n l _ hn₀ hgrows hn
    rcases hn with hn | hn
    · have h₀ := blockInv_next_le hn₀ hgrows hn
      have hnext := hn.next
      refine ⟨.inl (NotesInside.inside hn h₀ rfl), .inl ?_⟩
      unfold nextAttr
      split
      · refine ⟨hn.clean, hn.next, ?_⟩
        dsimp only [Loop.started]
        rw [bitsToBytes_bytes]
        omega
      · exact NotesInside.inside hn h₀ rfl
    · refine ⟨.inr (.inl hn), .inr (.inl ?_)⟩
      rwa [nextAttr_notes]
  value := by
    intro aligned name n owner ty s _ h
    rcases h with h | h
    · obtain ⟨len, es, htook⟩ := (populateValue_spec owner ty s h.next).took
      exact .inl (htook.inside h)
    · exact .inr (h.mono (adds_populateValue owner ty s).grows)
  array := by
    intro aligned name n owner ty dim delim env s _ h
    rcases h with h | h
    · have hspec := populateArray_spec heapAddr owner ty dim delim env s h.next
      generalize populateArray heapAddr r owner ty dim delim env s n = out at *
      obtain ⟨s', n', flow⟩ := out
      dsimp only at hspec
      cases hspec with
      | stop hlog hnext => exact .inl (hlog ▸ h.clean)
      | took a hty hstart hwraps htook heq =>
        have hin := htook.inside h
        refine .inl ⟨?_, ?_⟩
        · rw [heq]
          exact clean_append.2 ⟨hin.clean, clean_singleton.2 ⟨trivial, hwraps⟩⟩
        · rw [heq]
          exact hin.next
      | overflowed a hty hstart hwraps hover heq =>
        rw [heq]
        exact .inr (hover.bad hwraps)
    · have hbad := h.mono (grows_populateArray (r := r) heapAddr owner ty dim delim env s)
      generalize populateArray heapAddr r owner ty dim delim env s n = out at *
      obtain ⟨s', n', flow⟩ := out
      cases flow <;> exact .inr hbad
  bits := by
    intro aligned base l ty width name s hf h
    rcases h with h | h | h
    · have haligned : aligned = true := by
        dsimp only [acceptedShape, Field.accepted] at hf
        simp only [Bool.and_eq_true] at hf
        exact hf.1.1.1
      subst haligned
      exact h.populateBitField base ty width name s
    · exact .inr (.inl (h.mono (grows_populateBitField ..)))
    · exact h.populateBitField base ty width name s
  shared := blockInv_shared
  struct := by
    intro n₀ n hn₀ hgrows hn
    rcases hn with hn | hn
    · have h₀ := blockInv_next_le hn₀ hgrows hn
      have hnext := hn.next
      have hin : n₀.next + (n.next - n₀.next) ≤ r.size := by omega
      exact .inl ⟨clean_append.2 ⟨hn.clean, clean_singleton.2 ⟨hin, trivial⟩⟩, hn.next⟩
    · exact .inr (hn.mono (List.prefix_append _ _))
  frees := by
    intro n es h hfrees
    rcases h with h | h
    · refine .inl ⟨clean_append.2 ⟨h.clean, fun e he => ?_⟩, h.next⟩
      obtain ⟨o, p, rfl⟩ := hfrees e he
      exact ⟨trivial, trivial⟩
    · exact .inr (h.mono (grows_log es))
  finish := by
    intro aligned base l alignment minSize h
    rcases h with h | h | h
    · split
      · exact .inl ((h.adjust.alignNextPtr base alignment).enforceMinSize base minSize)
      · exact .inl ⟨h.clean, h.next⟩
    · split
      · exact .inr (h.mono (adds_finishTmpl ..).grows)
      · exact .inr h
    · rw [if_pos h.aligned]
      exact .inr ((h.alignNextPtr base alignment).mono (adds_enforceMinSize ..).grows)
  stop := by
    intro n h
    rcases h with h | h
    · exact .inl h.clean
    · exact .inr h

/-! ## Whole records -/

/-- A record is populated from its data only, as long as no array of
scalars is given a wrong size and no storage unit is moved on too far, and
not any more if one is. -/
theorem populateRecord_inBlock_iff (heapAddr : Nat → Nat) {t : Tmpl} (ht : t.accepted = true)
    (r : Record) (c : Clone t) (n : Notes) :
    (∀ e ∈ populateLog heapAddr r c n, e.InBlock r) ↔ ∀ e ∈ populateLog heapAddr r c n, e.Good r := by
  refine inBlock_iff_good ?_
  have hn : (blockInv r).notes { n with next := 0, outOfData := false, log := [] } :=
    .inl ⟨by simp [Clean], Nat.zero_le _⟩
  obtain ⟨n₁, flow, hdone, hlog⟩ := (blockInv_kept heapAddr r).populateLog trivial (.of_accepted ht) c hn
  rcases hlog with hlog | ⟨hgoes, hlt, hlog⟩
  · rw [hlog]
    cases flow with
    | stop why => exact hdone
    | next => exact (blockInv_kept heapAddr r).stop hdone
    | leave => exact (blockInv_kept heapAddr r).stop hdone
  · rw [hlog]
    have hend : n₁.next + (r.size - n₁.next) ≤ r.size := by omega
    rcases (blockInv r).done_goes hgoes hdone with h | h
    · exact .inl (clean_append.2 ⟨h.clean, clean_singleton.2 ⟨hend, trivial⟩⟩)
    · exact .inr (h.mono (grows_log [.extra n₁.next (r.size - n₁.next)]))

def fourBytes : Record := ⟨0, fun _ => 1, 4, by decide, .noArch⟩

/-- `struct { short s; int b : width; int c : 8; }` -/
def shortAndBits (width : Nat) : Tmpl where
  aligned := true
  atts :=
    .field (some "s") (.scalar .short)
      (.field (some "b") (.bitField .int width) (.field (some "c") (.bitField .int 8) .nil))

/-- The bit-fields `b` and `c` are in the `int` that `s` is in. -/
theorem populateRecord_inBlock_bitFields : (shortAndBits 4).accepted = true ∧
      ∀ e ∈ populateLog (t := shortAndBits 4) (fun _ => 0) fourBytes (cloneTemplate _) .start,
        e.InBlock fourBytes :=
  ⟨by decide, (populateRecord_inBlock_iff (fun _ => 0) (t := shortAndBits 4) (by decide) fourBytes
    (cloneTemplate _) .start).2 (by decide)⟩

/-- After a `b` of 16 bits the storage unit goes on at byte 6 of four, and
`c` is read there. -/
theorem populateRecord_not_inBlock : (shortAndBits 16).accepted = true ∧
      ¬∀ e ∈ populateLog (t := shortAndBits 16) (fun _ => 0) fourBytes (cloneTemplate _) .start,
        e.InBlock fourBytes := by
  refine ⟨by decide, fun hall => ?_⟩
  have hread : 6 + 1 ≤ fourBytes.size := hall (.read 6 1) (by decide)
  exact absurd hread (by decide)

end Evlog.Template
