/-
Evlog.Lib.BitPattern — words against patterns of bits.

A pattern asks for some of the bits of a word and says nothing of the
others. Two masks stand for it where they have its ones and its zeros
(`Stand`), and a word is then tested against the masks as a whole
(`Stand.accepts_iff`). `shiftIn` is how a mask comes out of a row of
characters, the last one of which is bit 0.

Of a list of patterns, `unreported` are those that are accepted and ask
for a bit that none of the ones before has asked for. They are some of the
patterns, in order, and ask for every bit that an accepted pattern asks
for (`cover`).
-/
import Mathlib.Data.List.Basic
import Mathlib.Data.List.Induction
import Mathlib.Tactic.Common

namespace Evlog.Lib

variable {w : Nat}

/-! ## Masks -/

def Accepts (ones zeros v : BitVec w) : Prop := v &&& ones = ones ∧ v &&& zeros = 0

instance (ones zeros v : BitVec w) : Decidable (Accepts ones zeros v) :=
  inferInstanceAs (Decidable (_ ∧ _))

def Stand (bit : Nat → Option Bool) (ones zeros : BitVec w) : Prop :=
  ∀ i < w, (ones.getLsbD i = true ↔ bit i = some true) ∧
    (zeros.getLsbD i = true ↔ bit i = some false)

variable {ones zeros v : BitVec w}

theorem accepts_iff_bits :
    Accepts ones zeros v ↔ ∀ i < w, (ones.getLsbD i = true → v.getLsbD i = true) ∧
      (zeros.getLsbD i = true → v.getLsbD i = false) := by
  constructor
  · intro h i hi
    have hone := congrArg (BitVec.getLsbD · i) h.1
    have hzero := congrArg (BitVec.getLsbD · i) h.2
    simp only [BitVec.getLsbD_and, BitVec.ofNat_eq_ofNat, BitVec.getLsbD_zero] at hone hzero
    constructor
    · intro hb
      simpa [hb] using hone
    · intro hb
      simpa [hb] using hzero
  · intro h
    constructor
    · refine BitVec.eq_of_getLsbD_eq fun i hi => ?_
      have hone := (h i hi).1
      rw [BitVec.getLsbD_and]
      cases hb : ones.getLsbD i <;> simp_all
    · refine BitVec.eq_of_getLsbD_eq fun i hi => ?_
      have hzero := (h i hi).2
      rw [BitVec.getLsbD_and]
      cases hb : zeros.getLsbD i <;> simp_all

variable {bit : Nat → Option Bool}

/-- The test against the masks is the test against the pattern. -/
theorem Stand.accepts_iff (h : Stand bit ones zeros) :
    Accepts ones zeros v ↔ ∀ i < w, ∀ b, bit i = some b → v.getLsbD i = b := by
  rw [accepts_iff_bits]
  refine forall_congr' fun i => forall_congr' fun hi => ?_
  rw [(h i hi).1, (h i hi).2, Bool.forall_bool]
  exact and_comm

/-- Masks have no bit between them just when they stand for a pattern that
asks for nothing. -/
theorem Stand.or_eq_zero (h : Stand bit ones zeros) :
    ones ||| zeros = 0 ↔ ∀ i < w, bit i = none := by
  constructor
  · intro hzero i hi
    have hb := congrArg (BitVec.getLsbD · i) hzero
    simp only [BitVec.getLsbD_or, BitVec.ofNat_eq_ofNat, BitVec.getLsbD_zero,
      Bool.or_eq_false_iff] at hb
    cases hbit : bit i with
    | none => rfl
    | some b =>
      cases b with
      | true => exact absurd ((h i hi).1.2 hbit) (by simp [hb.1])
      | false => exact absurd ((h i hi).2.2 hbit) (by simp [hb.2])
  · intro hnone
    refine BitVec.eq_of_getLsbD_eq fun i hi => ?_
    obtain ⟨hone, hzero⟩ := h i hi
    rw [hnone i hi] at hone hzero
    simp only [reduceCtorEq, iff_false, Bool.not_eq_true] at hone hzero
    simp [hone, hzero]

theorem Stand.getLsbD_or (h : Stand bit ones zeros) {i : Nat} (hi : i < w) :
    (ones ||| zeros).getLsbD i = true ↔ bit i ≠ none := by
  rw [BitVec.getLsbD_or, Bool.or_eq_true, (h i hi).1, (h i hi).2]
  cases bit i with
  | none => simp
  | some b => cases b <;> simp

/-! ## Masks from characters -/

/-- A bit for each character, the first ones being shifted out at the
left. -/
def shiftIn {α : Type} (p : α → Bool) (l : List α) : BitVec w :=
  l.foldl (fun m a => m <<< 1 ||| (if p a then 1 else 0)) 0

/-- Bit `i` comes from the character that `i` others follow. -/
theorem getLsbD_shiftIn {α : Type} (p : α → Bool) (l : List α) {i : Nat} (hi : i < w) :
    (shiftIn p l : BitVec w).getLsbD i = (l.reverse[i]?).any p := by
  induction l using List.reverseRec generalizing i with
  | nil => simp [shiftIn]
  | append_singleton l a ih =>
    have hlast : (if p a then 1 else 0 : BitVec w).getLsbD i = (decide (i = 0) && p a) := by
      cases p a with
      | true => simp [hi]
      | false => simp
    have hstep : (shiftIn p (l ++ [a]) : BitVec w) = shiftIn p l <<< 1 ||| (if p a then 1 else 0) := by
      simp [shiftIn]
    rw [hstep, BitVec.getLsbD_or, BitVec.getLsbD_shiftLeft, hlast]
    cases i with
    | zero => simp
    | succ i =>
      rw [Nat.add_sub_cancel, ih (by omega)]
      simp [hi]

/-! ## What is reported -/

theorem or_eq_left_iff {bar c : BitVec w} :
    bar ||| c = bar ↔ ∀ i, c.getLsbD i = true → bar.getLsbD i = true := by
  constructor
  · intro h i hc
    rw [← h, BitVec.getLsbD_or, hc, Bool.or_true]
  · intro h
    refine BitVec.eq_of_getLsbD_eq fun i _ => ?_
    rw [BitVec.getLsbD_or]
    cases hc : c.getLsbD i with
    | false => simp
    | true => simp [h i hc]

section Unreported

variable {ι : Type} (accept : ι → Bool) (care : ι → BitVec w)

/-- Those that are accepted and have a bit that is not reported yet. -/
def unreported : List ι → BitVec w → List ι
  | [], _ => []
  | a :: l, bar =>
    if bar ||| care a = bar then unreported l bar
    else if accept a then a :: unreported l (bar ||| care a)
    else unreported l bar

theorem unreported_sublist (l : List ι) (bar : BitVec w) :
    (unreported accept care l bar).Sublist l := by
  induction l generalizing bar with
  | nil => exact .slnil
  | cons a l ih =>
    rw [unreported]
    split
    · exact (ih bar).cons a
    · split
      · exact (ih _).cons_cons a
      · exact (ih bar).cons a

theorem accept_of_mem_unreported {l : List ι} {bar : BitVec w} {a : ι}
    (h : a ∈ unreported accept care l bar) : accept a = true := by
  induction l generalizing bar with
  | nil => cases h
  | cons b l ih =>
    rw [unreported] at h
    split at h
    · exact ih h
    · split at h
      · rcases List.mem_cons.1 h with rfl | h
        · assumption
        · exact ih h
      · exact ih h

/-- What is accepted asks for no other bit than was reported before or is
asked for by one that is reported. -/
theorem cover {l : List ι} {bar : BitVec w} {a : ι} (ha : a ∈ l) (hacc : accept a = true) {i : Nat}
    (hi : (care a).getLsbD i = true) :
    bar.getLsbD i = true ∨ ∃ b ∈ unreported accept care l bar, (care b).getLsbD i = true := by
  induction l generalizing bar with
  | nil => cases ha
  | cons b l ih =>
    rw [unreported]
    rcases List.mem_cons.1 ha with rfl | ha
    · split
      · rename_i hold
        exact .inl (or_eq_left_iff.1 hold i hi)
      · exact .inr ⟨a, List.mem_cons_self, hi⟩
    · split
      · exact ih ha
      · split
        · rcases @ih (bar ||| care b) ha with hbar | ⟨c, hc, hci⟩
          · rw [BitVec.getLsbD_or, Bool.or_eq_true] at hbar
            exact hbar.imp_right fun hb => ⟨b, List.mem_cons_self, hb⟩
          · exact .inr ⟨c, List.mem_cons_of_mem b hc, hci⟩
        · exact ih ha

/-- Something is reported if something is accepted that asks for a bit. -/
theorem unreported_ne_nil {l : List ι} {a : ι} (ha : a ∈ l) (hacc : accept a = true)
    (hcare : care a ≠ 0) : unreported accept care l 0 ≠ [] := by
  intro hnil
  refine hcare (BitVec.eq_of_getLsbD_eq fun i _ => ?_)
  cases hi : (care a).getLsbD i with
  | false => simp
  | true =>
    rcases @cover w ι accept care l 0 a ha hacc i hi with hbar | ⟨b, hb, -⟩
    · simp at hbar
    · rw [hnil] at hb
      cases hb

theorem care_ne_zero_of_mem {l : List ι} {bar : BitVec w} {a : ι}
    (h : a ∈ unreported accept care l bar) : care a ≠ 0 := by
  induction l generalizing bar with
  | nil => cases h
  | cons b l ih =>
    rw [unreported] at h
    split at h
    · exact ih h
    · rename_i hnew
      split at h
      · rcases List.mem_cons.1 h with rfl | h
        · intro hzero
          exact hnew (by simp [hzero])
        · exact ih h
      · exact ih h

end Unreported

end Evlog.Lib
