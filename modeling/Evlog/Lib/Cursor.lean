/-
Evlog.Lib.Cursor — a place in a list, and the nearest element either way.

A cursor at `p` stands before the element with index `p`; `l.take p` is
behind it and `l.drop p` is ahead. `nextIndex` and `prevIndex` find the
nearest element with a property ahead of it and behind it. What they pass
over does not have the property, and that is how their rules are put:
for a cursor moved to the element found, whatever is now behind it was
behind it before or was passed over.
-/
import Mathlib.Tactic

namespace Evlog.Lib.Cursor

variable {α : Type} {q : α → Bool} {l : List α} {p j : Nat} {a : α}

/-- The index of the first element from `p` on with the property. -/
def nextIndex (q : α → Bool) (l : List α) (p : Nat) : Option Nat :=
  ((l.drop p).findIdx? q).map (p + ·)

/-- The index of the last element before `p` with the property. -/
def prevIndex (q : α → Bool) (l : List α) : Nat → Option Nat
  | 0 => none
  | p + 1 => if (l[p]?).any q then some p else prevIndex q l p

/-! ## What is behind and what is ahead -/

theorem mem_take_succ {b : α} : b ∈ l.take (p + 1) ↔ b ∈ l.take p ∨ l[p]? = some b := by
  rw [List.take_add_one, List.mem_append, Option.mem_toList]

theorem mem_drop {b : α} : b ∈ l.drop p ↔ l[p]? = some b ∨ b ∈ l.drop (p + 1) := by
  cases hget : l[p]? with
  | none =>
    have hlen := List.getElem?_eq_none_iff.1 hget
    simp [List.drop_eq_nil_of_le hlen, List.drop_eq_nil_of_le (Nat.le_succ_of_le hlen)]
  | some a =>
    obtain ⟨hlt, rfl⟩ := List.getElem?_eq_some_iff.1 hget
    rw [List.drop_eq_getElem_cons hlt, List.mem_cons, Option.some.injEq, eq_comm]

theorem mem_of_mem_take {b : α} (hle : p ≤ j) (hb : b ∈ l.take p) : b ∈ l.take j :=
  (List.take_subset_take_left l hle) hb

theorem mem_of_mem_drop {b : α} (hle : p ≤ j) (hb : b ∈ l.drop j) : b ∈ l.drop p :=
  (List.drop_subset_drop_left l hle) hb

/-- In a list in order, what is behind an element comes before it, and what
is ahead comes after it. -/
theorem pairwise_getElem {R : α → α → Prop} (hl : l.Pairwise R) (ha : l[p]? = some a) :
    (∀ b ∈ l.take p, R b a) ∧ ∀ b ∈ l.drop (p + 1), R a b := by
  obtain ⟨hlt, rfl⟩ := List.getElem?_eq_some_iff.1 ha
  have hsplit : l.take p ++ l[p] :: l.drop (p + 1) = l := by
    rw [← List.drop_eq_getElem_cons hlt, List.take_append_drop]
  rw [← hsplit, List.pairwise_append, List.pairwise_cons] at hl
  exact ⟨fun b hb => hl.2.2 b hb _ List.mem_cons_self, hl.2.1.1⟩

/-! ## Seeking -/

theorem nextIndex_eq_none (h : nextIndex q l p = none) : ∀ b ∈ l.drop p, q b = false := by
  simpa [nextIndex, List.findIdx?_eq_none_iff] using h

theorem nextIndex_eq_some (h : nextIndex q l p = some j) :
    p ≤ j ∧ (∃ a, l[j]? = some a ∧ q a = true) ∧
      ∀ b ∈ l.take j, b ∈ l.take p ∨ q b = false := by
  simp only [nextIndex, Option.map_eq_some_iff] at h
  obtain ⟨k, hk, rfl⟩ := h
  obtain ⟨hlt, hq, hbefore⟩ := List.findIdx?_eq_some_iff_getElem.1 hk
  refine ⟨by omega, ⟨(l.drop p)[k], ?_, hq⟩, ?_⟩
  · rw [← List.getElem?_drop]
    exact List.getElem?_eq_getElem hlt
  · intro b hb
    rw [List.take_add, List.mem_append] at hb
    rcases hb with hb | hb
    · exact .inl hb
    · right
      obtain ⟨m, hm, rfl⟩ := List.mem_iff_getElem.1 hb
      rw [List.length_take] at hm
      simpa using hbefore m (by omega)

/-- The first element with the property is the one that is found. -/
theorem nextIndex_eq (hle : p ≤ j) (ha : l[j]? = some a) (hqa : q a = true)
    (hbetween : ∀ k b, p ≤ k → k < j → l[k]? = some b → q b = false) :
    nextIndex q l p = some j := by
  obtain ⟨hlt, rfl⟩ := List.getElem?_eq_some_iff.1 ha
  rw [nextIndex, Option.map_eq_some_iff]
  refine ⟨j - p, List.findIdx?_eq_some_iff_getElem.2 ⟨by simp; omega, ?_, ?_⟩, by omega⟩
  · simpa [show p + (j - p) = j by omega] using hqa
  · intro k hk
    rw [List.getElem_drop]
    simpa using hbetween (p + k) _ (by omega) (by omega) (List.getElem?_eq_getElem _)

theorem prevIndex_eq_none (h : prevIndex q l p = none) : ∀ b ∈ l.take p, q b = false := by
  induction p with
  | zero => simp
  | succ p ih =>
    simp only [prevIndex] at h
    split at h
    · cases h
    rename_i hq
    intro b hb
    rcases mem_take_succ.1 hb with hb | hb
    · exact ih h b hb
    · simpa [hb] using hq

theorem prevIndex_eq_some (h : prevIndex q l p = some j) :
    j < p ∧ (∃ a, l[j]? = some a ∧ q a = true) ∧
      ∀ b ∈ l.drop (j + 1), b ∈ l.drop p ∨ q b = false := by
  induction p with
  | zero => simp [prevIndex] at h
  | succ p ih =>
    simp only [prevIndex] at h
    split at h
    · rename_i hq
      obtain rfl := Option.some.inj h
      exact ⟨by omega, (Option.any_eq_true q _).1 hq, fun b hb => .inl hb⟩
    · rename_i hq
      obtain ⟨hlt, ha, hafter⟩ := ih h
      refine ⟨by omega, ha, fun b hb => ?_⟩
      rcases hafter b hb with hb | hb
      · rcases mem_drop.1 hb with hget | hb
        · exact .inr (by simpa [hget] using hq)
        · exact .inl hb
      · exact .inr hb

/-- Between the element found and the old place none has the property. -/
theorem filter_drop_of_prevIndex (h : prevIndex q l p = some j) :
    (l.drop (j + 1)).filter q = (l.drop p).filter q := by
  induction p with
  | zero => simp [prevIndex] at h
  | succ p ih =>
    simp only [prevIndex] at h
    split at h
    · obtain rfl := Option.some.inj h
      rfl
    · rename_i hq
      rw [ih h]
      cases hget : l[p]? with
      | none =>
        have hlen := List.getElem?_eq_none_iff.1 hget
        rw [List.drop_eq_nil_of_le hlen, List.drop_eq_nil_of_le (Nat.le_succ_of_le hlen)]
      | some a =>
        obtain ⟨hlt, rfl⟩ := List.getElem?_eq_some_iff.1 hget
        rw [List.drop_eq_getElem_cons hlt, List.filter_cons, if_neg (by simpa [hget] using hq)]

/-- The last element with the property is the one that is found. -/
theorem prevIndex_eq (hlt : j < p) (ha : l[j]? = some a) (hqa : q a = true)
    (hbetween : ∀ k b, j < k → k < p → l[k]? = some b → q b = false) :
    prevIndex q l p = some j := by
  induction p with
  | zero => omega
  | succ p ih =>
    rw [prevIndex]
    rcases Nat.lt_succ_iff_lt_or_eq.1 hlt with hjp | rfl
    · have hp : ¬ (l[p]?).any q = true := by
        rw [Option.any_eq_true]
        rintro ⟨b, hb, hqb⟩
        rw [hbetween p b hjp (by omega) hb] at hqb
        cases hqb
      rw [if_neg hp]
      exact ih hjp fun k b hjk hk hb => hbetween k b hjk (by omega) hb
    · rw [if_pos (by simp [ha, hqa])]

end Evlog.Lib.Cursor
