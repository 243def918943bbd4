/-
Evlog.Lib.ClientTable — a server's table of clients, and select's bound.

A slot of the table has the descriptor of a client, or a number below zero
when it is free. The server keeps an index that no slot in use exceeds
(`maxIndex`), and when a client goes it looks for the largest descriptor
that is left (`maxSd`). It does not look at all the descriptors it waits
on: only at those of the clients and at one more, `keep`. `boundAfter` is
the bound that it sets, and `bounded_boundAfter` says when that is one.
-/
import Evlog.Lib.Cursor
import Evlog.Lib.SelectSet

namespace Evlog.Lib

namespace ClientTable

variable {α : Type} (sd : α → Int) (free : Int)

def taken (a : α) : Bool := sd a != free

def maxIndex (table : List α) : Int :=
  match Cursor.prevIndex (taken sd free) table table.length with
  | some i => i
  | none => -1

def maxSd (table : List α) (maxci : Int) : Int :=
  (table.take (maxci + 1).toNat).foldr (fun a m => if m < sd a then sd a else m) 0

/-- The bound for what is left of the table when the client on `fd` has
gone. -/
def boundAfter (maxsd keep fd : Int) (rest : List α) : Int :=
  if maxsd = keep then maxsd
  else
    let m := maxSd sd rest (maxIndex sd free rest)
    if m = 0 ∧ fd = maxsd then maxsd - 1
    else if m ≠ 0 then if m < keep then keep else m
    else maxsd

variable {sd} {free} {table : List α} {a : α} {i : Nat}

theorem taken_iff : taken sd free a = true ↔ sd a ≠ free := by
  simp [taken]

/-- The slots that are in use after slot `i` is freed were so before. -/
theorem taken_of_freed {new a' : α} {j : Nat} (hnew : taken sd free new = false)
    (hj : (table.set i new)[j]? = some a') (htaken : taken sd free a' = true) :
    j ≠ i ∧ table[j]? = some a' := by
  rw [List.getElem?_set] at hj
  split at hj
  · split at hj
    · obtain rfl := Option.some.inj hj
      rw [hnew] at htaken
      cases htaken
    · cases hj
  · rename_i hne
    exact ⟨Ne.symm hne, hj⟩

theorem bind_set {β : Type} (f : α → Option β) (new : α) (hi : i < table.length) (j : Nat) :
    (table.set i new)[j]?.bind f = if j = i then f new else table[j]?.bind f := by
  rw [List.getElem?_set]
  by_cases hij : i = j
  · subst hij
    simp [hi]
  · simp [hij, Ne.symm hij]

/-- No slot above `maxIndex` is in use. -/
theorem le_maxIndex (hi : table[i]? = some a) (htaken : taken sd free a = true) :
    (i : Int) ≤ maxIndex sd free table := by
  rw [maxIndex]
  split
  · rename_i k hk
    obtain ⟨-, -, hafter⟩ := Cursor.prevIndex_eq_some hk
    by_contra hlt
    have hmem : a ∈ table.drop (k + 1) := by
      obtain ⟨hlen, rfl⟩ := List.getElem?_eq_some_iff.1 hi
      exact List.mem_drop_iff_getElem.2 ⟨i - (k + 1), by omega, by congr 1; omega⟩
    rcases hafter a hmem with hnil | hfree
    · simp at hnil
    · rw [hfree] at htaken
      cases htaken
  · rename_i hnone
    have hfree := Cursor.prevIndex_eq_none hnone a (by simpa using List.mem_of_getElem? hi)
    rw [hfree] at htaken
    cases htaken

theorem foldr_max (sd : α → Int) (table : List α) :
    let m := table.foldr (fun a m => if m < sd a then sd a else m) 0
    0 ≤ m ∧ (∀ a ∈ table, sd a ≤ m) ∧ (m = 0 ∨ ∃ a ∈ table, sd a = m) := by
  induction table with
  | nil => simp
  | cons a table ih =>
    obtain ⟨hnonneg, hle, hmax⟩ := ih
    simp only [List.foldr_cons, List.mem_cons]
    split
    · rename_i hlt
      refine ⟨by omega, ?_, .inr ⟨a, .inl rfl, rfl⟩⟩
      rintro a' (rfl | ha')
      · exact le_rfl
      · have := hle a' ha'
        omega
    · rename_i hge
      refine ⟨hnonneg, ?_, ?_⟩
      · rintro a' (rfl | ha')
        · omega
        · exact hle a' ha'
      · rcases hmax with hmax | ⟨a', ha', hmax⟩
        · exact .inl hmax
        · exact .inr ⟨a', .inr ha', hmax⟩

theorem maxSd_spec (hneg : free < 0) (table : List α) :
    let m := maxSd sd table (maxIndex sd free table)
    0 ≤ m ∧ (∀ a ∈ table, taken sd free a = true → sd a ≤ m) ∧
      (m = 0 ∨ ∃ a ∈ table, taken sd free a = true ∧ sd a = m) := by
  obtain ⟨hnonneg, hle, hmax⟩ := foldr_max sd (table.take (maxIndex sd free table + 1).toNat)
  refine ⟨hnonneg, ?_, ?_⟩
  · intro a ha htaken
    obtain ⟨i, hi⟩ := List.getElem?_of_mem ha
    have hindex := le_maxIndex hi htaken
    refine hle a ?_
    obtain ⟨hlen, rfl⟩ := List.getElem?_eq_some_iff.1 hi
    exact List.mem_take_iff_getElem.2 ⟨i, by omega, rfl⟩
  · rcases hmax with hmax | ⟨a, ha, hmax⟩
    · exact .inl hmax
    · refine .inr ⟨a, List.mem_of_mem_take ha, taken_iff.2 ?_, hmax⟩
      change 0 ≤ maxSd sd table _ at hnonneg
      change sd a = maxSd sd table _ at hmax
      omega

/-- When the client on `fd` goes, no descriptor that stays is above those of
the other clients and `keep`. -/
def CoversRest (sd : α → Int) (free : Int) (t : SelectSet) (keep fd : Int) (rest : List α) : Prop :=
  t.maxsd = keep ∨ (∀ a ∈ rest, taken sd free a = false) ∨
    ∀ fd' ∈ t.allSds.erase fd, fd' ≤ keep ∨ ∃ a ∈ rest, taken sd free a = true ∧ fd' ≤ sd a

/-- The new bound is one exactly when it covers what is left. -/
theorem bounded_boundAfter {t : SelectSet} {keep fd : Int} {rest : List α} (hneg : free < 0)
    (hpos : ∀ a ∈ rest, taken sd free a = true → 0 < sd a) (hbound : t.Bounded) :
    (t.remove fd (boundAfter sd free t.maxsd keep fd rest)).Bounded ↔
      CoversRest sd free t keep fd rest := by
  obtain ⟨hnonneg, hle, hmax⟩ := @maxSd_spec _ sd free hneg rest
  unfold boundAfter CoversRest
  dsimp only
  by_cases hkeep : t.maxsd = keep
  · rw [if_pos hkeep]
    exact ⟨fun _ => .inl hkeep, fun _ => hbound.remove_same fd⟩
  rw [if_neg hkeep]
  rcases hmax with hzero | ⟨last, hlast, htaken, hsd⟩
  · -- no other client
    have hnone : ∀ a ∈ rest, taken sd free a = false := by
      intro a ha
      by_contra htaken
      rw [Bool.not_eq_false] at htaken
      have := hpos a ha htaken
      have := hle a ha htaken
      omega
    rw [hzero]
    refine ⟨fun _ => .inr (.inl hnone), fun _ => ?_⟩
    split
    · rename_i heq
      exact hbound.remove_pred fd heq.2
    · simpa using hbound.remove_same fd
  · have hlastpos := hpos last hlast htaken
    have hne : maxSd sd rest (maxIndex sd free rest) ≠ 0 := by omega
    rw [if_neg fun h => hne h.1, if_pos hne, SelectSet.bounded_remove]
    constructor
    · intro hcovers
      refine .inr (.inr fun fd' hfd' => ?_)
      have := hcovers fd' hfd'
      split at this
      · exact .inl this
      · exact .inr ⟨last, hlast, htaken, by omega⟩
    · rintro (heq | hnone | hcovers)
      · exact absurd heq hkeep
      · rw [hnone last hlast] at htaken
        cases htaken
      · intro fd' hfd'
        rcases hcovers fd' hfd' with hle' | ⟨a, ha, htaken', hle'⟩
        · split <;> omega
        · have := hle a ha htaken'
          split <;> omega

end ClientTable

end Evlog.Lib
