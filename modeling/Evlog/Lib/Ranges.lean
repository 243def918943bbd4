/-
Evlog.Lib.Ranges — ranges of a sequence that follow each other.

A range is where it starts, and how long it is. Ranges are consecutive from
one position to another if each starts where the one before it ends. They
are disjoint then, and what they cover is everything in between.
-/
import Mathlib.Tactic

namespace Evlog.Lib

/-- The ranges lead from a position to another, without a gap. -/
def Consecutive : Nat → List (Nat × Nat) → Nat → Prop
  | p, [], e => p = e
  | p, x :: l, e => x.1 = p ∧ Consecutive (p + x.2) l e

variable {p q e : Nat} {l l' : List (Nat × Nat)}

theorem consecutive_nil : Consecutive p [] p := rfl

theorem consecutive_singleton (len : Nat) : Consecutive p [(p, len)] (p + len) := ⟨rfl, rfl⟩

theorem Consecutive.append (h : Consecutive p l q) (h' : Consecutive q l' e) :
    Consecutive p (l ++ l') e := by
  induction l generalizing p with
  | nil =>
    cases h
    exact h'
  | cons x l ih => exact ⟨h.1, ih h.2⟩

theorem Consecutive.le (h : Consecutive p l e) : p ≤ e := by
  induction l generalizing p with
  | nil => exact Nat.le_of_eq h
  | cons x l ih => exact (Nat.le_add_right _ _).trans (ih h.2)

theorem Consecutive.mem (h : Consecutive p l e) {x : Nat × Nat} (hx : x ∈ l) :
    p ≤ x.1 ∧ x.1 + x.2 ≤ e := by
  induction l generalizing p with
  | nil => cases hx
  | cons y l ih =>
    obtain ⟨rfl, hl⟩ := h
    rcases List.mem_cons.1 hx with rfl | hx
    · exact ⟨le_rfl, hl.le⟩
    · exact ⟨(Nat.le_add_right _ _).trans (ih hl hx).1, (ih hl hx).2⟩

theorem Consecutive.pairwise (h : Consecutive p l e) : l.Pairwise fun x y => x.1 + x.2 ≤ y.1 := by
  induction l generalizing p with
  | nil => exact .nil
  | cons x l ih =>
    obtain ⟨rfl, hl⟩ := h
    exact .cons (fun y hy => (hl.mem hy).1) (ih hl)

theorem Consecutive.flatMap {α : Type*} (f : Nat → α) (h : Consecutive p l e) :
    (l.flatMap fun x => (List.range x.2).map fun i => f (x.1 + i)) =
      (List.range (e - p)).map fun i => f (p + i) := by
  induction l generalizing p with
  | nil =>
    cases h
    rw [Nat.sub_self]
    rfl
  | cons x l ih =>
    obtain ⟨rfl, hl⟩ := h
    have hle := hl.le
    rw [List.flatMap_cons, ih hl, show e - x.1 = x.2 + (e - (x.1 + x.2)) by omega, List.range_add,
      List.map_append, List.map_map]
    congr 2
    funext i
    simp only [Function.comp_apply, Nat.add_assoc]

end Evlog.Lib
