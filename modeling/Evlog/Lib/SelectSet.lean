/-
Evlog.Lib.SelectSet — the descriptors a server waits on.

A server keeps the set of descriptors that it hands to select, and a bound
that none of them may exceed: select looks at no descriptor above it. The
kernel keeps the descriptors that are open, and gives out any number that
is not among them.

`Bounded` is what select needs. `Held` is about what the descriptors are
for: a server holds some of them, each in one role, and the two sides agree
on what is open. Taking a new descriptor and giving one back are the two
things that happen to a role; both keep `Held`, whatever becomes of the
bound.
-/
import Mathlib.Tactic

namespace Evlog.Lib

/-- The set handed to select with its bound, and the descriptors that are
open. -/
structure SelectSet where
  allSds : Finset Int
  maxsd : Int
  opened : Finset Int

namespace SelectSet

def Selects (t : SelectSet) (fd : Int) : Prop := fd ∈ t.allSds ∧ fd ≤ t.maxsd

instance (t : SelectSet) (fd : Int) : Decidable (t.Selects fd) := inferInstanceAs (Decidable (_ ∧ _))

def watch (t : SelectSet) (fd : Int) : SelectSet where
  allSds := insert fd t.allSds
  maxsd := max t.maxsd fd
  opened := insert fd t.opened

/-- A descriptor is closed and taken from the set; the bound is set to `m`. -/
def remove (t : SelectSet) (fd m : Int) : SelectSet where
  allSds := t.allSds.erase fd
  maxsd := m
  opened := t.opened.erase fd

/-- A descriptor is closed, and the bound goes down by one when it was that
descriptor. -/
def lower (t : SelectSet) (fd : Int) : SelectSet :=
  t.remove fd (if fd = t.maxsd then t.maxsd - 1 else t.maxsd)

def Unused (t : SelectSet) (fd : Int) : Prop := 0 ≤ fd ∧ fd ∉ t.opened

instance (t : SelectSet) (fd : Int) : Decidable (t.Unused fd) := inferInstanceAs (Decidable (_ ∧ _))

variable {t : SelectSet} {fd fd' m : Int}

/-! ## The bound -/

def Bounded (t : SelectSet) : Prop := ∀ fd ∈ t.allSds, fd ≤ t.maxsd

theorem Bounded.watch (h : t.Bounded) (fd : Int) : (t.watch fd).Bounded := by
  intro fd' hfd'
  rcases Finset.mem_insert.1 hfd' with rfl | hfd'
  · exact le_max_right _ _
  · exact (h fd' hfd').trans (le_max_left _ _)

theorem bounded_remove : (t.remove fd m).Bounded ↔ ∀ fd' ∈ t.allSds.erase fd, fd' ≤ m := Iff.rfl

/-- What is left is below the descriptor that went, if that was the
largest. -/
theorem Bounded.remove_pred (h : t.Bounded) (fd : Int) (heq : fd = t.maxsd) :
    (t.remove fd (t.maxsd - 1)).Bounded := by
  intro fd' hfd'
  obtain ⟨hne, hmem⟩ := Finset.mem_erase.1 hfd'
  have hle := h fd' hmem
  change fd' ≤ t.maxsd - 1
  omega

theorem Bounded.remove_same (h : t.Bounded) (fd : Int) : (t.remove fd t.maxsd).Bounded :=
  fun fd' hfd' => h fd' (Finset.mem_of_mem_erase hfd')

theorem Bounded.lower (h : t.Bounded) (fd : Int) : (t.lower fd).Bounded := by
  rw [SelectSet.lower]
  split
  · rename_i heq
    exact h.remove_pred fd heq
  · exact h.remove_same fd

/-! ## Who holds what -/

variable {ρ : Type} {holds : ρ → Option Int} {r r' : ρ}

/-- Every descriptor is held in one role only, and those that are held are
in the set. The set has open descriptors only, and 0 is open but not one of
them. -/
structure Held (t : SelectSet) (holds : ρ → Option Int) : Prop where
  inj : ∀ r r' fd, holds r = some fd → holds r' = some fd → r = r'
  watched : ∀ r fd, holds r = some fd → fd ∈ t.allSds
  opened : ∀ fd ∈ t.allSds, fd ∈ t.opened
  zero : 0 ∈ t.opened
  pos : ∀ fd ∈ t.allSds, 0 < fd

variable [DecidableEq ρ]

/-- A role takes a descriptor that the kernel has just given out. -/
theorem Held.take (h : Held t holds) (hfd : t.Unused fd) (r : ρ) :
    Held (t.watch fd) (Function.update holds r (some fd)) := by
  have hfresh : ∀ r' fd', holds r' = some fd' → fd' ≠ fd := by
    rintro r' fd' hr' rfl
    exact hfd.2 (h.opened _ (h.watched r' _ hr'))
  refine ⟨fun r₁ r₂ fd' h₁ h₂ => ?_, fun r' fd' hr' => ?_, fun fd' hfd' => ?_, ?_, ?_⟩
  · simp only [Function.update_apply] at h₁ h₂
    split at h₁ <;> split at h₂
    · rename_i hr₁ hr₂
      rw [hr₁, hr₂]
    · exact absurd (Option.some.inj h₁).symm (hfresh r₂ fd' h₂)
    · exact absurd (Option.some.inj h₂).symm (hfresh r₁ fd' h₁)
    · exact h.inj r₁ r₂ fd' h₁ h₂
  · simp only [Function.update_apply] at hr'
    split at hr'
    · obtain rfl := Option.some.inj hr'
      exact Finset.mem_insert_self _ _
    · exact Finset.mem_insert_of_mem (h.watched r' fd' hr')
  · rcases Finset.mem_insert.1 hfd' with rfl | hfd'
    · exact Finset.mem_insert_self _ _
    · exact Finset.mem_insert_of_mem (h.opened fd' hfd')
  · exact Finset.mem_insert_of_mem h.zero
  · intro fd' hfd'
    rcases Finset.mem_insert.1 hfd' with rfl | hfd'
    · refine lt_of_le_of_ne hfd.1 ?_
      rintro rfl
      exact hfd.2 h.zero
    · exact h.pos fd' hfd'

theorem Held.release (h : Held t holds) (hr : holds r = some fd) (m : Int) :
    Held (t.remove fd m) (Function.update holds r none) := by
  have hother : ∀ r' fd', Function.update holds r none r' = some fd' →
      holds r' = some fd' ∧ fd' ≠ fd := by
    intro r' fd' hr'
    simp only [Function.update_apply] at hr'
    split at hr'
    · cases hr'
    · rename_i hne
      refine ⟨hr', ?_⟩
      rintro rfl
      exact hne (h.inj r' r fd' hr' hr)
  refine ⟨fun r₁ r₂ fd' h₁ h₂ => h.inj r₁ r₂ fd' (hother r₁ fd' h₁).1 (hother r₂ fd' h₂).1,
    fun r' fd' hr' => ?_, fun fd' hfd' => ?_, ?_, fun fd' hfd' => h.pos fd' (Finset.mem_of_mem_erase hfd')⟩
  · obtain ⟨hr', hne⟩ := hother r' fd' hr'
    exact Finset.mem_erase.2 ⟨hne, h.watched r' fd' hr'⟩
  · obtain ⟨hne, hmem⟩ := Finset.mem_erase.1 hfd'
    exact Finset.mem_erase.2 ⟨hne, h.opened fd' hmem⟩
  · refine Finset.mem_erase.2 ⟨?_, h.zero⟩
    exact (h.pos fd (h.watched r fd hr)).ne

end SelectSet

end Evlog.Lib
