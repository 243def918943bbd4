/-
Evlog.Lib.HashChain — hash tables of ordered chains.

A table has a chain for each slot. An element is inserted into the chain of
its slot, before the first one that does not come before it
(`List.orderedInsert`). So a chain has the elements of its slot, in order
(`addAll_perm`, `addAll_sorted`).

`search` goes through a chain and may give up early: at an element that is
past what it looks for. What is found is what a search through the part up
to there finds (`search_eq`), and whether anything is lost by giving up is
a matter of the order alone.
-/
import Mathlib.Tactic
import Mathlib.Data.List.TakeWhile

namespace Evlog.Lib

variable {α : Type}

/-! ## Searching a chain -/

def search (past hit : α → Bool) : List α → Option α
  | [] => none
  | x :: xs => if past x then none else if hit x then some x else search past hit xs

variable {past hit : α → Bool} {l : List α}

theorem search_eq (past hit : α → Bool) (l : List α) :
    search past hit l = (l.takeWhile fun x => !past x).find? hit := by
  induction l with
  | nil => rfl
  | cons x xs ih =>
    rw [search, List.takeWhile_cons]
    cases hpast : past x with
    | true => rfl
    | false =>
      cases hhit : hit x with
      | true => simp [hhit]
      | false => simp [hhit, ih]

theorem search_spec {x : α} (h : search past hit l = some x) : x ∈ l ∧ hit x = true := by
  rw [search_eq] at h
  exact ⟨(List.takeWhile_sublist _).subset (List.mem_of_find?_eq_some h), List.find?_some h⟩

theorem search_isSome (hit : α → Bool) (hpast : ∀ x ∈ l, past x = false) {x : α} (hx : x ∈ l) (hhit : hit x = true) :
    ∃ y, search past hit l = some y := by
  have hall : (l.takeWhile fun x => !past x) = l := by
    rw [List.takeWhile_eq_self_iff]
    intro y hy
    rw [hpast y hy]
    rfl
  rw [search_eq, hall]
  exact Option.isSome_iff_exists.1 (List.find?_isSome.2 ⟨x, hx, hhit⟩)

theorem search_of_head {x : α} (h : l.head? = some x) (hpast : past x = true) :
    search past hit l = none := by
  cases l with
  | nil => rfl
  | cons y ys =>
    cases h
    rw [search, if_pos hpast]

/-! ## Tables -/

section Tables

variable {size : Nat} (r : α → α → Prop) [DecidableRel r] (slot : α → Fin size)

abbrev Chains (α : Type) (size : Nat) := Fin size → List α

def Chains.add (t : Chains α size) (x : α) : Chains α size :=
  Function.update t (slot x) ((t (slot x)).orderedInsert r x)

def Chains.addAll (t : Chains α size) (xs : List α) : Chains α size := xs.foldl (Chains.add r slot) t

theorem Chains.add_perm (t : Chains α size) (x : α) (i : Fin size) :
    (t.add r slot x i).Perm (if slot x = i then x :: t i else t i) := by
  unfold Chains.add
  by_cases hi : slot x = i
  · subst hi
    rw [Function.update_self, if_pos rfl]
    exact List.perm_orderedInsert r x _
  · rw [Function.update_of_ne (Ne.symm hi), if_neg hi]

theorem Chains.addAll_perm (t : Chains α size) (xs : List α) (i : Fin size) :
    (t.addAll r slot xs i).Perm (t i ++ xs.filter fun x => slot x = i) := by
  induction xs generalizing t with
  | nil => simp [Chains.addAll]
  | cons x xs ih =>
    refine (ih (t.add r slot x)).trans ?_
    have hadd := t.add_perm r slot x i
    by_cases hi : slot x = i
    · rw [if_pos hi] at hadd
      rw [List.filter_cons_of_pos (by simpa using hi)]
      exact (hadd.append_right _).trans List.perm_middle.symm
    · rw [if_neg hi] at hadd
      rw [List.filter_cons_of_neg (by simpa using hi)]
      exact hadd.append_right _

theorem Chains.add_sorted [Std.Total r] [IsTrans α r] {t : Chains α size}
    (h : ∀ i, (t i).Pairwise r) (x : α) (i : Fin size) : (t.add r slot x i).Pairwise r := by
  unfold Chains.add
  by_cases hi : slot x = i
  · subst hi
    rw [Function.update_self]
    exact (h _).orderedInsert x _
  · rw [Function.update_of_ne (Ne.symm hi)]
    exact h i

theorem Chains.addAll_sorted [Std.Total r] [IsTrans α r] {t : Chains α size}
    (h : ∀ i, (t i).Pairwise r) (xs : List α) (i : Fin size) : (t.addAll r slot xs i).Pairwise r := by
  induction xs generalizing t with
  | nil => exact h i
  | cons x xs ih => exact ih fun i => Chains.add_sorted r slot h x i

end Tables

end Evlog.Lib
