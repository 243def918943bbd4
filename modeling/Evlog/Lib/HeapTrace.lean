/-
Evlog.Lib.HeapTrace — what is allocated and freed, and for whom.

A trace says which blocks were allocated for which owner, and what was
handed to `free` for which owner. It is proper (`Proper`) when everything
freed was a block, allocated for that owner before, and not freed before;
this is about every prefix of it. `Held es next owned` is what an owner of
blocks has to know: after the trace `es`, with `next` the number of the
next block, the blocks `owned` are there to be freed, by those they were
allocated for. The rules say what becomes of that.
-/
import Mathlib.Tactic

namespace Evlog.Lib

variable {ι : Type}

/-- A block is allocated, or a pointer is freed, which may be none to a
block. -/
inductive HeapEvent (ι : Type) where
  | alloc (owner : ι) (id : Nat)
  | free (owner : ι) (block : Option Nat)

namespace HeapEvent

/-- What is freed was allocated for its owner, and is freed for the first
time. -/
def Proper (es : List (HeapEvent ι)) : Prop :=
  ∀ pre owner block post, es = pre ++ .free owner block :: post →
    ∃ id, block = some id ∧ .alloc owner id ∈ pre ∧ ∀ o, .free o (some id) ∉ pre

/-- The blocks of a list are there to be freed. -/
structure Held (es : List (HeapEvent ι)) (next : Nat) (owned : List (ι × Nat)) : Prop where
  proper : Proper es
  alloc_lt : ∀ o id, .alloc o id ∈ es → id < next
  nodup : (owned.map Prod.snd).Nodup
  live : ∀ p ∈ owned, .alloc p.1 p.2 ∈ es ∧ ∀ o, .free o (some p.2) ∉ es

section

variable {es : List (HeapEvent ι)} {next : Nat} {owned more : List (ι × Nat)}

theorem proper_nil : Proper ([] : List (HeapEvent ι)) := by
  intro pre owner block post h
  simp at h

theorem Proper.of_append {es' : List (HeapEvent ι)} (h : Proper (es ++ es')) : Proper es := by
  intro pre owner block post heq
  exact h pre owner block (post ++ es') (by rw [heq, List.append_assoc]; rfl)

theorem proper_concat {e : HeapEvent ι} :
    Proper (es ++ [e]) ↔ Proper es ∧ ∀ owner block, e = .free owner block →
      ∃ id, block = some id ∧ .alloc owner id ∈ es ∧ ∀ o, .free o (some id) ∉ es := by
  constructor
  · exact fun h => ⟨h.of_append, fun owner block he => h es owner block [] (by rw [he])⟩
  · rintro ⟨hes, he⟩ pre owner block post heq
    rcases post.eq_nil_or_concat with rfl | ⟨post, e', rfl⟩
    · obtain ⟨rfl, hlast⟩ := List.append_inj' heq rfl
      exact he owner block (List.singleton_inj.mp hlast)
    · have hsplit : es ++ [e] = (pre ++ .free owner block :: post) ++ [e'] := by
        rw [heq]
        simp
      exact hes pre owner block post (List.append_inj' hsplit rfl).1

theorem held_start : Held ([] : List (HeapEvent ι)) 0 [] :=
  ⟨proper_nil, by simp, by simp, by simp⟩

theorem Held.subperm (h : Held es next owned) (hsub : more.Subperm owned) : Held es next more := by
  obtain ⟨l, hperm, hl⟩ := hsub
  refine ⟨h.proper, h.alloc_lt, ?_, fun p hp => h.live p (hl.subset (hperm.mem_iff.mpr hp))⟩
  exact ((hperm.map _).nodup_iff).mp (h.nodup.sublist (hl.map _))

theorem Held.free_lt (h : Held es next owned) {o : ι} {id : Nat} (hfree : .free o (some id) ∈ es) :
    id < next := by
  obtain ⟨pre, post, heq⟩ := List.append_of_mem hfree
  obtain ⟨id', hid, halloc, -⟩ := h.proper pre o (some id) post heq
  cases hid
  exact h.alloc_lt o id (by rw [heq]; exact List.mem_append_left _ halloc)

theorem Held.alloc (h : Held es next owned) (o : ι) :
    Held (es ++ [.alloc o next]) (next + 1) ((o, next) :: owned) := by
  have hnew : ∀ p ∈ owned, p.2 < next := fun p hp => h.alloc_lt p.1 p.2 (h.live p hp).1
  refine ⟨proper_concat.mpr ⟨h.proper, fun _ _ he => nomatch he⟩, ?_, ?_, ?_⟩
  · intro o' id hid
    rcases List.mem_append.mp hid with hid | hid
    · exact (h.alloc_lt o' id hid).trans (Nat.lt_succ_self next)
    · cases List.mem_singleton.mp hid
      exact Nat.lt_succ_self next
  · rw [List.map_cons, List.nodup_cons]
    refine ⟨fun hmem => ?_, h.nodup⟩
    obtain ⟨p, hp, heq⟩ := List.mem_map.mp hmem
    exact absurd heq (hnew p hp).ne
  · intro p hp
    rcases List.mem_cons.mp hp with rfl | hp
    · refine ⟨List.mem_append_right _ (List.mem_singleton_self _), fun o' hfree => ?_⟩
      rcases List.mem_append.mp hfree with hfree | hfree
      · exact absurd (h.free_lt hfree) (lt_irrefl next)
      · exact nomatch List.mem_singleton.mp hfree
    · obtain ⟨halloc, hfree⟩ := h.live p hp
      refine ⟨List.mem_append_left _ halloc, fun o' hmem => ?_⟩
      rcases List.mem_append.mp hmem with hmem | hmem
      · exact hfree o' hmem
      · exact nomatch List.mem_singleton.mp hmem

theorem Held.free {o : ι} {id : Nat} (h : Held es next ((o, id) :: owned)) :
    Held (es ++ [.free o (some id)]) next owned := by
  obtain ⟨halloc, hfree⟩ := h.live (o, id) List.mem_cons_self
  have hnodup := h.nodup
  rw [List.map_cons, List.nodup_cons] at hnodup
  refine ⟨proper_concat.mpr ⟨h.proper, ?_⟩, ?_, hnodup.2, ?_⟩
  · intro owner block he
    cases he
    exact ⟨id, rfl, halloc, hfree⟩
  · intro o' id' hid
    rcases List.mem_append.mp hid with hid | hid
    · exact h.alloc_lt o' id' hid
    · exact nomatch List.mem_singleton.mp hid
  · intro p hp
    obtain ⟨halloc', hfree'⟩ := h.live p (List.mem_cons_of_mem _ hp)
    refine ⟨List.mem_append_left _ halloc', fun o' hmem => ?_⟩
    rcases List.mem_append.mp hmem with hmem | hmem
    · exact hfree' o' hmem
    · cases List.mem_singleton.mp hmem
      exact hnodup.1 (List.mem_map.mpr ⟨p, hp, rfl⟩)

def frees (ps : List (ι × Nat)) : List (HeapEvent ι) := ps.map fun p => .free p.1 (some p.2)

/-- Blocks are freed by their owners, one after the other. -/
theorem Held.frees {ps : List (ι × Nat)} (h : Held es next (ps ++ owned)) :
    Held (es ++ HeapEvent.frees ps) next owned := by
  induction ps generalizing es with
  | nil => simpa [HeapEvent.frees] using h
  | cons p ps ih =>
    have hnext := ih h.free
    rwa [List.append_assoc] at hnext

end

end HeapEvent

end Evlog.Lib
