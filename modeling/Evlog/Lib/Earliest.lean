/-
Evlog.Lib.Earliest — the earliest of some times, 0 standing for none.

A caller that sleeps until the first of several times hands one variable
round, which starts at 0 and takes over each time that comes before what
is in it. That is right as long as no time is 0 or below.
-/
import Mathlib.Order.Bounds.Basic

namespace Evlog.Lib

section Earliest

variable {α : Type} [Zero α] [LinearOrder α]

/-- Take over `t` if it comes first. -/
def earlier (tv t : α) : α := if tv = 0 ∨ tv > t then t else tv

/-- `tv` is the first of the times `S`, and 0 if there are none. -/
def Earliest (S : Set α) (tv : α) : Prop :=
  tv = 0 ∧ S = ∅ ∨ 0 < tv ∧ IsLeast S tv

variable {S : Set α} {tv t : α}

theorem earliest_empty : Earliest (∅ : Set α) 0 := Or.inl ⟨rfl, rfl⟩

theorem Earliest.eq_zero_iff (h : Earliest S tv) : tv = 0 ↔ S = ∅ := by
  cases h with
  | inl h => exact ⟨fun _ => h.2, fun _ => h.1⟩
  | inr h =>
    constructor
    · intro h0
      exact absurd h0 (ne_of_gt h.1)
    · intro hS
      have hmem := h.2.1
      rw [hS] at hmem
      exact absurd hmem (Set.notMem_empty tv)

theorem Earliest.isLeast (h : Earliest S tv) (hne : tv ≠ 0) : 0 < tv ∧ IsLeast S tv := by
  cases h with
  | inl h => exact absurd h.1 hne
  | inr h => exact h

theorem Earliest.insert (h : Earliest S tv) (ht : 0 < t) :
    Earliest (insert t S) (earlier tv t) := by
  unfold earlier
  cases h with
  | inl h =>
    rw [if_pos (Or.inl h.1), h.2, insert_empty_eq]
    exact Or.inr ⟨ht, isLeast_singleton⟩
  | inr h =>
    obtain ⟨hpos, hmem, hle⟩ := h
    split_ifs with hfirst
    · have hlt : t < tv := hfirst.resolve_left (ne_of_gt hpos)
      refine Or.inr ⟨ht, Set.mem_insert t S, ?_⟩
      intro u hu
      cases hu with
      | inl hu => rw [hu]
      | inr hu => exact le_of_lt (lt_of_lt_of_le hlt (hle hu))
    · have hle' : tv ≤ t := not_lt.mp fun hlt => hfirst (Or.inr hlt)
      refine Or.inr ⟨hpos, Set.mem_insert_of_mem t hmem, ?_⟩
      intro u hu
      cases hu with
      | inl hu => rw [hu]; exact hle'
      | inr hu => exact hle hu

theorem Earliest.foldl (ts : List α) (hpos : ∀ t ∈ ts, 0 < t) (h : Earliest S tv) :
    Earliest (S ∪ {t | t ∈ ts}) (ts.foldl earlier tv) := by
  induction ts generalizing S tv with
  | nil => simpa using h
  | cons t ts ih =>
    have hrest := ih (fun u hu => hpos u (List.mem_cons_of_mem t hu))
      (h.insert (hpos t List.mem_cons_self))
    have hset : S ∪ {u | u ∈ t :: ts} = Insert.insert t S ∪ {u | u ∈ ts} := by
      ext u
      simp only [Set.mem_union, Set.mem_ofPred_eq, List.mem_cons, Set.mem_insert_iff]
      tauto
    rw [hset, List.foldl_cons]
    exact hrest

end Earliest

end Evlog.Lib
