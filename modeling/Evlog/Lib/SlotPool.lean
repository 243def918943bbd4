/-
Evlog.Lib.SlotPool — a pool of slots with in-use flags.

`Owns flags owned` says that the flags and a list of owned slots agree:
no slot is owned twice, and a slot's flag is set exactly when the slot is
owned. Claiming a free slot and releasing an owned one keep the
agreement, and as long as fewer slots are owned than there are, one is
free. The order of the owned slots never matters, so every rule works up
to permutation.
-/
import Mathlib.Tactic

namespace Evlog.Lib

/-- The flags are set for the owned slots and for no others, and no slot
is owned twice. -/
structure Owns (flags : List Bool) (owned : List Nat) : Prop where
  nodup : owned.Nodup
  set_iff : ∀ i, flags[i]? = some true ↔ i ∈ owned

variable {flags : List Bool} {owned owned' : List Nat} {i : Nat}

theorem Owns.perm (h : Owns flags owned) (hp : owned.Perm owned') : Owns flags owned' :=
  ⟨hp.nodup_iff.mp h.nodup, fun i => (h.set_iff i).trans hp.mem_iff⟩

theorem Owns.lt_length (h : Owns flags owned) (hi : i ∈ owned) : i < flags.length := by
  have hget := (h.set_iff i).mpr hi
  by_contra hge
  rw [List.getElem?_eq_none (Nat.not_lt.mp hge)] at hget
  cases hget

theorem Owns.clear (n : Nat) : Owns (List.replicate n false) [] := by
  refine ⟨List.nodup_nil, ?_⟩
  intro i
  simp [List.getElem?_replicate]

theorem Owns.release (h : Owns flags (i :: owned)) : Owns (flags.set i false) owned := by
  obtain ⟨hi, hnodup⟩ := List.nodup_cons.mp h.nodup
  refine ⟨hnodup, ?_⟩
  intro j
  rw [List.getElem?_set]
  by_cases hij : i = j
  · subst hij
    rw [if_pos rfl, if_pos (h.lt_length (by simp))]
    simp [hi]
  · rw [if_neg hij, h.set_iff j]
    simp [Ne.symm hij]

theorem Owns.claim (h : Owns flags owned) (hi : flags[i]? = some false) :
    Owns (flags.set i true) (i :: owned) := by
  have hfree : i ∉ owned := by
    intro hmem
    rw [(h.set_iff i).mpr hmem] at hi
    cases hi
  refine ⟨List.nodup_cons.mpr ⟨hfree, h.nodup⟩, ?_⟩
  intro j
  rw [List.getElem?_set]
  by_cases hij : i = j
  · subst hij
    have hlt : i < flags.length := by
      by_contra hge
      rw [List.getElem?_eq_none (Nat.not_lt.mp hge)] at hi
      cases hi
    rw [if_pos rfl, if_pos hlt]
    simp
  · rw [if_neg hij, h.set_iff j]
    simp [Ne.symm hij]

theorem count_true_eq_filter (flags : List Bool) : flags.count true
      = ((List.range flags.length).filter fun i => flags[i]? == some true).length := by
  induction flags with
  | nil => rfl
  | cons b bs ih =>
    have htail : (List.map Nat.succ (List.range bs.length)).filter
          (fun i => (b :: bs)[i]? == some true)
        = ((List.range bs.length).filter fun i => bs[i]? == some true).map Nat.succ := by
      rw [List.filter_map]
      rfl
    rw [List.length_cons, List.range_succ_eq_map, List.filter_cons, htail]
    cases b with
    | true => simp [ih]
    | false => simp [ih]

theorem Owns.count_true_le (h : Owns flags owned) : flags.count true ≤ owned.length := by
  rw [count_true_eq_filter]
  have hsub : (List.range flags.length).filter (fun i => flags[i]? == some true) ⊆ owned := by
    intro i hi
    have hset := (List.mem_filter.mp hi).2
    exact (h.set_iff i).mp (by simpa using hset)
  exact (List.subperm_of_subset (List.nodup_range.filter _) hsub).length_le

/-- While fewer slots are owned than there are, one is free. -/
theorem Owns.exists_free (h : Owns flags owned) (hlt : owned.length < flags.length) :
    ∃ i < flags.length, flags[i]? = some false := by
  by_contra hnone
  push Not at hnone
  have hsub : List.range flags.length ⊆ owned := by
    intro i hi
    have hlt := List.mem_range.mp hi
    have hne := hnone i hlt
    rw [List.getElem?_eq_getElem hlt] at hne
    refine (h.set_iff i).mp ?_
    rw [List.getElem?_eq_getElem hlt]
    cases hb : flags[i] with
    | true => rfl
    | false => rw [hb] at hne; exact absurd rfl hne
  have hle := (List.subperm_of_subset List.nodup_range hsub).length_le
  rw [List.length_range] at hle
  omega

/-! ## Replacing one holder -/

/-- Up to order, storing at an index replaces one element and leaves the
rest alone. -/
theorem exists_perm_set {α : Type} {as : List α} {k : Nat} (hk : k < as.length) :
    ∃ rest, as.Perm (as[k] :: rest) ∧ ∀ a, (as.set k a).Perm (a :: rest) :=
  ⟨as.eraseIdx k, (List.getElem_cons_eraseIdx_perm hk).symm,
    fun _ => List.set_perm_cons_eraseIdx hk _⟩

end Evlog.Lib
