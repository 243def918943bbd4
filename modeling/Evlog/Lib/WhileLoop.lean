/-
Evlog.Lib.WhileLoop — loops that may go on for ever.

The body of a loop looks at the state and either leaves the loop with a
result or goes on from the next state, and it may report something on the
way. `whileLoop` runs it for a number of turns, and a loop that ends does so
for some number. `Ends` says that a loop ends with a result of a kind and
reports only what is of a kind: it is the same thing (`exists_whileLoop_iff`)
without the number, turn by turn, and what one proves it by is induction.
-/
import Mathlib.Tactic

namespace Evlog.Lib

variable {σ ρ τ : Type}

/-- What the body of a loop does. -/
inductive Turn (σ ρ τ : Type) where
  | stop (r : ρ)
  | next (s : σ) (reported : List τ)
  deriving DecidableEq

/-- At most `fuel` turns: the result and all that was reported. -/
def whileLoop (body : σ → Turn σ ρ τ) : Nat → σ → Option (ρ × List τ)
  | 0, _ => none
  | fuel + 1, s =>
    match body s with
    | .stop r => some (r, [])
    | .next s' reported => (whileLoop body fuel s').map fun r => (r.1, reported ++ r.2)

variable {body : σ → Turn σ ρ τ} {s s' : σ}

theorem whileLoop_stop {r : ρ} (h : body s = .stop r) (fuel : Nat) :
    whileLoop body (fuel + 1) s = some (r, []) := by
  rw [whileLoop, h]

variable {reported : List τ}

theorem whileLoop_next (h : body s = .next s' reported) (fuel : Nat) : whileLoop body (fuel + 1) s =
      (whileLoop body fuel s').map fun r => (r.1, reported ++ r.2) := by
  rw [whileLoop, h]

def turns (body : σ → Turn σ ρ τ) : Nat → σ → List σ
  | 0, _ => []
  | fuel + 1, s =>
    match body s with
    | .stop _ => [s]
    | .next s' _ => s :: turns body fuel s'

theorem turns_stop {r : ρ} (h : body s = .stop r) (fuel : Nat) : turns body (fuel + 1) s = [s] := by
  rw [turns, h]

theorem turns_next (h : body s = .next s' reported) (fuel : Nat) :
    turns body (fuel + 1) s = s :: turns body fuel s' := by
  rw [turns, h]

/-- The loop ends, with a result that satisfies `R`, and all that is reported
satisfies `Q`. -/
inductive Ends (body : σ → Turn σ ρ τ) (R : ρ → Prop) (Q : τ → Prop) : σ → Prop
  | stop {s : σ} {r : ρ} (h : body s = .stop r) (hr : R r) : Ends body R Q s
  | next {s s' : σ} {reported : List τ} (h : body s = .next s' reported)
      (hreported : ∀ t ∈ reported, Q t) (hrest : Ends body R Q s') : Ends body R Q s

theorem exists_whileLoop_iff {R : ρ → Prop} {Q : τ → Prop} :
    (∃ fuel r reported, whileLoop body fuel s = some (r, reported) ∧ R r ∧ ∀ t ∈ reported, Q t) ↔
      Ends body R Q s := by
  constructor
  · rintro ⟨fuel, r, reported, hloop, hr, hreported⟩
    induction fuel generalizing s reported with
    | zero => cases hloop
    | succ fuel ih =>
      cases hbody : body s with
      | stop r' =>
        rw [whileLoop_stop hbody] at hloop
        cases hloop
        exact .stop hbody hr
      | next s' now =>
        rw [whileLoop_next hbody, Option.map_eq_some_iff] at hloop
        obtain ⟨⟨r', later⟩, hrest, heq⟩ := hloop
        cases heq
        rw [List.forall_mem_append] at hreported
        exact .next hbody hreported.1 (ih later hrest hreported.2)
  · intro h
    induction h with
    | stop hbody hr => exact ⟨1, _, [], whileLoop_stop hbody 0, hr, nofun⟩
    | next hbody hnow _ ih =>
      obtain ⟨fuel, r, later, hloop, hr, hlater⟩ := ih
      refine ⟨fuel + 1, r, _ ++ later, ?_, hr, List.forall_mem_append.2 ⟨hnow, hlater⟩⟩
      rw [whileLoop_next hbody, hloop]
      rfl

/-- What the turns keep, as long as they report what is of a kind, holds when
the loop is left. -/
theorem whileLoop_invariant {R : ρ → Prop} {Q : τ → Prop} {Inv : σ → Prop}
    (hnext : ∀ s s' reported, body s = .next s' reported → (∀ t ∈ reported, Q t) → Inv s → Inv s')
    (hstop : ∀ s r, body s = .stop r → Inv s → R r) {fuel : Nat} {r : ρ}
    (h : whileLoop body fuel s = some (r, reported)) (hreported : ∀ t ∈ reported, Q t) (hs : Inv s) :
    R r := by
  induction fuel generalizing s reported with
  | zero => cases h
  | succ fuel ih =>
    cases hbody : body s with
    | stop r' =>
      rw [whileLoop_stop hbody] at h
      cases h
      exact hstop s r hbody hs
    | next s' now =>
      rw [whileLoop_next hbody, Option.map_eq_some_iff] at h
      obtain ⟨⟨r', later⟩, hrest, heq⟩ := h
      cases heq
      rw [List.forall_mem_append] at hreported
      exact ih hrest hreported.2 (hnext s s' now hbody hreported.1 hs)

end Evlog.Lib
