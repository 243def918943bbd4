/-
Evlog.Lib.SerialList — lists whose entries are numbered as they come.

A server that hands out consecutive numbers keeps its entries in the order
in which they got them, and so does a log of the entries. `Serial key n l`
says that of a list when `n` is the last number given out. It is kept when
entries are dropped and when the entry with the next number is appended,
and it makes the numbers distinct; what distinct keys are good for is in
a section of its own.

The last section is about two lists that go together, element by element.
-/
import Mathlib.Data.List.Forall2
import Mathlib.Tactic

namespace Evlog.Lib

variable {β γ : Type} {key : β → Nat} {n : Nat} {l : List β}

/-- The keys increase along the list and lie between 1 and `n`. -/
structure Serial (key : β → Nat) (n : Nat) (l : List β) : Prop where
  increasing : l.Pairwise fun x y => key x < key y
  pos : ∀ x ∈ l, 0 < key x
  le : ∀ x ∈ l, key x ≤ n

theorem serial_nil : Serial key n [] := ⟨.nil, nofun, nofun⟩

theorem Serial.mono {m : Nat} (h : Serial key n l) (hnm : n ≤ m) : Serial key m l :=
  ⟨h.increasing, h.pos, fun x hx => (h.le x hx).trans hnm⟩

theorem Serial.sublist {l' : List β} (h : Serial key n l) (hl : l'.Sublist l) : Serial key n l' :=
  ⟨h.increasing.sublist hl, fun x hx => h.pos x (hl.subset hx), fun x hx => h.le x (hl.subset hx)⟩

theorem Serial.of_map_eq {key' : γ → Nat} {l' : List γ} (h : Serial key n l)
    (hl : l'.map key' = l.map key) : Serial key' n l' := by
  have hmem : ∀ y ∈ l', ∃ x ∈ l, key x = key' y := by
    intro y hy
    have : key' y ∈ l.map key := hl ▸ List.mem_map_of_mem hy
    exact List.mem_map.1 this
  refine ⟨?_, ?_, ?_⟩
  · have := List.pairwise_map.2 h.increasing
    rw [← hl] at this
    exact List.pairwise_map.1 this
  · intro y hy
    obtain ⟨x, hx, he⟩ := hmem y hy
    exact he ▸ h.pos x hx
  · intro y hy
    obtain ⟨x, hx, he⟩ := hmem y hy
    exact he ▸ h.le x hx

theorem Serial.append_succ {x : β} (h : Serial key n l) (hx : key x = n + 1) :
    Serial key (n + 1) (l ++ [x]) := by
  refine ⟨List.pairwise_append.2 ⟨h.increasing, List.pairwise_singleton _ x, ?_⟩, ?_, ?_⟩
  · intro y hy z hz
    rw [List.mem_singleton.1 hz, hx]
    exact Nat.lt_succ_of_le (h.le y hy)
  · intro y hy
    rcases List.mem_append.1 hy with hy | hy
    · exact h.pos y hy
    · rw [List.mem_singleton.1 hy, hx]
      exact Nat.succ_pos n
  · intro y hy
    rcases List.mem_append.1 hy with hy | hy
    · exact (h.le y hy).trans (Nat.le_succ n)
    · rw [List.mem_singleton.1 hy, hx]

theorem Serial.lt_of_append {x : β} (h : Serial key n (l ++ [x])) : ∀ y ∈ l, key y < key x := by
  intro y hy
  exact (List.pairwise_append.1 h.increasing).2.2 y hy x (List.mem_singleton_self x)

/-- The last number in a list can be taken for the last one given out. -/
theorem Serial.last {x : β} (h : Serial key n (l ++ [x])) : Serial key (key x) (l ++ [x]) := by
  refine ⟨h.increasing, h.pos, ?_⟩
  intro y hy
  rcases List.mem_append.1 hy with hy | hy
  · exact (h.lt_of_append y hy).le
  · rw [List.mem_singleton.1 hy]

theorem Serial.nodup (h : Serial key n l) : (l.map key).Nodup := by
  rw [List.Nodup, List.pairwise_map]
  exact h.increasing.imp fun hlt => hlt.ne

/-! ## Distinct keys -/

section Keys

variable {κ : Type} [DecidableEq κ] {k : β → κ} {x : β}

theorem find?_key (h : (l.map k).Nodup) (hx : x ∈ l) : (l.find? fun y => k y = k x) = some x := by
  induction l with
  | nil => exact absurd hx List.not_mem_nil
  | cons y l ih =>
    rw [List.map_cons, List.nodup_cons] at h
    rcases List.mem_cons.1 hx with rfl | hx
    · exact List.find?_cons_of_pos (by simp)
    · have hne : k y ≠ k x := fun he => h.1 (he ▸ List.mem_map_of_mem hx)
      rw [List.find?_cons_of_neg (by simpa using hne)]
      exact ih h.2 hx

theorem eraseP_key (h : (l.map k).Nodup) (c : κ) :
    (l.eraseP fun y => k y = c) = l.filter fun y => k y ≠ c := by
  induction l with
  | nil => rfl
  | cons y l ih =>
    rw [List.map_cons, List.nodup_cons] at h
    by_cases hy : k y = c
    · have hall : ∀ z ∈ l, k z ≠ c := fun z hz he => h.1 (hy ▸ he ▸ List.mem_map_of_mem hz)
      rw [List.eraseP_cons_of_pos (by simpa using hy), List.filter_cons_of_neg (by simpa using hy),
        List.filter_eq_self.2 (by simpa using hall)]
    · rw [List.eraseP_cons_of_neg (by simpa using hy), List.filter_cons_of_pos (by simpa using hy),
        ih h.2]

end Keys

/-! ## Lists that go together -/

section Paired

variable {α β : Type*} {R : α → β → Prop} {as : List α} {bs : List β}

/-- Each element of the first list has one in the second. -/
theorem exists_right_of_mem (h : List.Forall₂ R as bs) {a : α} (ha : a ∈ as) : ∃ b ∈ bs, R a b := by
  induction h with
  | nil => cases ha
  | cons hr _ ih =>
    rcases List.mem_cons.1 ha with rfl | ha
    · exact ⟨_, List.mem_cons_self, hr⟩
    · obtain ⟨b, hb, hrb⟩ := ih ha
      exact ⟨b, List.mem_cons_of_mem _ hb, hrb⟩

theorem exists_left_of_mem (h : List.Forall₂ R as bs) {b : β} (hb : b ∈ bs) : ∃ a ∈ as, R a b :=
  exists_right_of_mem h.flip hb

/-- If each element can have one, there is a second list. -/
theorem exists_forall₂ (h : ∀ a ∈ as, ∃ b, R a b) : ∃ bs, List.Forall₂ R as bs := by
  induction as with
  | nil => exact ⟨[], .nil⟩
  | cons a as ih =>
    obtain ⟨b, hb⟩ := h a List.mem_cons_self
    obtain ⟨bs, hbs⟩ := ih fun a' ha' => h a' (List.mem_cons_of_mem _ ha')
    exact ⟨b :: bs, .cons hb hbs⟩

end Paired

end Evlog.Lib
