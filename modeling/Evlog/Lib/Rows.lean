/-
Evlog.Lib.Rows — texts that are laid out in rows.

Where every row of a text has one width, a row is known by its number. Each
is found where it was put (`row_flatMap`), and a text is its rows in order
(`flatMap_row`).

A row may be of entries that are written with a separator between them.
`[sep].intercalate row` is not always enough to tell which row it was: an
entry may hold the separator itself. Two rows of one length that are
written the same are the same, or they part at some entry, where the one
has a separator inside that the other has between (`Cut`). Nothing else
can happen (`intercalate_eq_iff`).
-/
import Mathlib.Algebra.Ring.Nat
import Mathlib.Data.List.Basic
import Mathlib.Tactic.Common

namespace Evlog.Lib

/-! ## Rows of one width -/

section Width

variable {α : Type}

/-- The row of the number, of `w` elements where the text is long enough. -/
def row (w i : Nat) (l : List α) : List α := (l.drop (w * i)).take w

section Made

variable {w : Nat} {f : Nat → List α} (hf : ∀ i, (f i).length = w)

include hf

theorem length_flatMap_rows (k : Nat) : ((List.range k).flatMap f).length = w * k := by
  simp [List.length_flatMap, hf, Nat.mul_comm]

theorem drop_flatMap_rows {i k : Nat} (hi : i ≤ k) :
    ((List.range k).flatMap f).drop (w * i) = (List.range (k - i)).flatMap fun j => f (i + j) := by
  have hsplit : List.range k = List.range i ++ (List.range (k - i)).map (i + ·) := by
    rw [← List.range_add, Nat.add_sub_cancel' hi]
  rw [hsplit, List.flatMap_append, ← length_flatMap_rows hf i, List.drop_left, List.flatMap_map]

theorem row_flatMap {i k : Nat} (hi : i < k) : row w i ((List.range k).flatMap f) = f i := by
  obtain ⟨m, hm⟩ := Nat.exists_eq_succ_of_ne_zero (Nat.sub_ne_zero_of_lt hi)
  rw [row, drop_flatMap_rows hf (Nat.le_of_lt hi), hm, List.range_succ_eq_map, List.flatMap_cons,
    Nat.add_zero, ← hf i, List.take_left]

end Made

theorem flatMap_row {w k : Nat} {l : List α} (h : l.length ≤ w * k) :
    ((List.range k).flatMap fun i => row w i l) = l := by
  induction k generalizing l with
  | zero => simpa [eq_comm] using h
  | succ k ih =>
    have hrest : (l.drop w).length ≤ w * k := by
      rw [List.length_drop, Nat.sub_le_iff_le_add, ← Nat.mul_succ]
      exact h
    have hrow : ∀ i, row w (i + 1) l = row w i (l.drop w) := by
      intro i
      rw [row, row, List.drop_drop, Nat.mul_succ, Nat.add_comm]
    rw [List.range_succ_eq_map, List.flatMap_cons, List.flatMap_map]
    simp only [Nat.succ_eq_add_one, hrow]
    rw [ih hrest, row, Nat.mul_zero, List.drop_zero, List.take_append_drop]

end Width

/-! ## Rows with a separator -/

section Separator

variable {α : Type} (sep : α)

/-- The rows are the same up to some entry. There one goes on behind a
separator, and the rest of it and of its row is the rest of the other
row. -/
inductive Cut : List (List α) → List (List α) → Prop
  | left {v x : List α} {vs ws : List (List α)} (hne : vs ≠ [])
      (h : [sep].intercalate vs = [sep].intercalate (x :: ws)) :
      Cut (v :: vs) ((v ++ sep :: x) :: ws)
  | right {v x : List α} {vs ws : List (List α)} (hne : vs ≠ [])
      (h : [sep].intercalate vs = [sep].intercalate (x :: ws)) :
      Cut ((v ++ sep :: x) :: ws) (v :: vs)
  | cons {v : List α} {vs ws : List (List α)} (h : Cut vs ws) : Cut (v :: vs) (v :: ws)

variable {sep} {vs ws : List (List α)}

theorem intercalate_cons {v : List α} (hne : vs ≠ []) :
    [sep].intercalate (v :: vs) = v ++ sep :: [sep].intercalate vs := by
  simp [List.intercalate_cons_of_ne_nil hne]

theorem intercalate_append_cons (v x : List α) :
    [sep].intercalate ((v ++ sep :: x) :: ws) = v ++ sep :: [sep].intercalate (x :: ws) := by
  cases ws <;> simp [List.intercalate_cons_cons]

theorem length_intercalate_cons (v : List α) :
    ([sep].intercalate (v :: vs)).length = v.length + (vs.map fun w => w.length + 1).sum := by
  induction vs generalizing v with
  | nil => simp
  | cons w vs ih =>
    rw [intercalate_cons (List.cons_ne_nil w vs), List.length_append, List.length_cons, ih,
      List.map_cons, List.sum_cons]
    omega

theorem Cut.symm (h : Cut sep vs ws) : Cut sep ws vs := by
  induction h with
  | left hne h => exact .right hne h
  | right hne h => exact .left hne h
  | cons _ ih => exact .cons ih

theorem Cut.ne_nil (h : Cut sep vs ws) : vs ≠ [] ∧ ws ≠ [] := by
  cases h <;> simp

theorem Cut.ne (h : Cut sep vs ws) : vs ≠ ws := by
  induction h with
  | left _ _ =>
    intro heq
    have hlen := congrArg List.length (List.cons.inj heq).1
    simp at hlen
  | right _ _ =>
    intro heq
    have hlen := congrArg List.length (List.cons.inj heq).1
    simp at hlen
  | cons _ ih => simpa using ih

theorem Cut.intercalate_eq (h : Cut sep vs ws) : [sep].intercalate vs = [sep].intercalate ws := by
  induction h with
  | left hne h => rw [intercalate_cons hne, intercalate_append_cons, h]
  | right hne h => rw [intercalate_cons hne, intercalate_append_cons, h]
  | cons h ih => rw [intercalate_cons h.ne_nil.1, intercalate_cons h.ne_nil.2, ih]

/-- Where the first entries are the same, or neither holds the separator,
the rows are cut otherwise behind them. -/
theorem Cut.of_cons {v w : List α} (h : Cut sep (v :: vs) (w :: ws))
    (hfirst : v = w ∨ (sep ∉ v ∧ sep ∉ w)) : Cut sep vs ws := by
  cases h with
  | left _ _ =>
    rcases hfirst with heq | ⟨-, hmem⟩
    · simpa using congrArg List.length heq
    · exact absurd (by simp) hmem
  | right _ _ =>
    rcases hfirst with heq | ⟨hmem, -⟩
    · simpa using congrArg List.length heq
    · exact absurd (by simp) hmem
  | cons h => exact h

/-- The first entry of one row is where the first of the other begins, and
what is behind it there begins with a separator. -/
theorem cut_of_append {v c : List α} (hvs : vs ≠ []) (hws : ws ≠ []) (hc : c ≠ [])
    (h : sep :: [sep].intercalate vs = c ++ sep :: [sep].intercalate ws) :
    Cut sep (v :: vs) ((v ++ c) :: ws) := by
  obtain ⟨b, x, rfl⟩ := List.exists_cons_of_ne_nil hc
  rw [List.cons_append] at h
  obtain ⟨rfl, hrest⟩ := List.cons.inj h
  exact .left hvs (by rw [hrest, intercalate_cons hws])

/-- Rows of one length are written the same just when they are the same or
cut otherwise. -/
theorem intercalate_eq_iff (hlen : vs.length = ws.length) :
    [sep].intercalate vs = [sep].intercalate ws ↔ vs = ws ∨ Cut sep vs ws := by
  refine ⟨fun heq => ?_, fun h => h.elim (congrArg _) Cut.intercalate_eq⟩
  induction vs generalizing ws with
  | nil => exact .inl (List.length_eq_zero_iff.1 hlen.symm).symm
  | cons v vs ih =>
    obtain ⟨w, ws, rfl⟩ := List.exists_cons_of_length_eq_add_one hlen.symm
    have hlen' : vs.length = ws.length := by simpa using hlen
    rcases eq_or_ne vs [] with rfl | hvs
    · obtain rfl : ws = [] := List.length_eq_zero_iff.1 hlen'.symm
      rw [List.intercalate_singleton, List.intercalate_singleton] at heq
      exact .inl (by rw [heq])
    have hws : ws ≠ [] := by
      rintro rfl
      exact hvs (List.length_eq_zero_iff.1 hlen')
    rw [intercalate_cons hvs, intercalate_cons hws] at heq
    rcases List.append_eq_append_iff.1 heq with ⟨c, rfl, hc⟩ | ⟨c, rfl, hc⟩
    · rcases eq_or_ne c [] with rfl | hne
      · rw [List.append_nil]
        have hrest := ih hlen' (List.cons.inj hc).2
        exact hrest.imp (congrArg _) .cons
      · exact .inr (cut_of_append hvs hws hne hc)
    · rcases eq_or_ne c [] with rfl | hne
      · rw [List.append_nil]
        have hrest := ih hlen' (List.cons.inj hc).2.symm
        exact hrest.imp (congrArg _) .cons
      · exact .inr (cut_of_append hws hvs hne hc).symm

end Separator

end Evlog.Lib
