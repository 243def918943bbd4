/-
Evlog.Lib.Machine — a function with loops and jumps, as a machine.

`step` takes a state to the next one or returns. `Returns step s e` says
that from `s` on the machine returns `e` after finitely many steps.
Nothing is chosen, so what it returns is what the next state returns
(`returns_iff_of_next`).

A machine with a measure that each step takes down returns
(`exists_returns_of_wellFounded`), and what a step keeps holds along the
whole run and of what is returned (`run_rule`).
-/
import Mathlib.Tactic

namespace Evlog.Lib.Machine

open Relation

variable {σ ε : Type} {step : σ → σ ⊕ ε} {s s' : σ} {e : ε}

def run (step : σ → σ ⊕ ε) : Nat → σ → σ ⊕ ε
  | 0, s => .inl s
  | n + 1, s =>
    match step s with
    | .inl s' => run step n s'
    | .inr e => .inr e

/-- One step from `s` to `s'`. -/
def Next (step : σ → σ ⊕ ε) (s s' : σ) : Prop := step s = .inl s'

/-- The machine returns `e`. -/
def Returns (step : σ → σ ⊕ ε) (s : σ) (e : ε) : Prop := ∃ n, run step n s = .inr e

theorem run_succ_of_next (h : Next step s s') (n : Nat) : run step (n + 1) s = run step n s' := by
  rw [run, show step s = .inl s' from h]

theorem returns_of_step (h : step s = .inr e) : Returns step s e :=
  ⟨1, by simp [run, h]⟩

/-- A run that returns passes through the next state, and has one step
less to go from there. -/
theorem run_of_next (h : Next step s s') {n : Nat} (hn : run step n s = .inr e) :
    ∃ m, n = m + 1 ∧ run step m s' = .inr e := by
  cases n with
  | zero => simp [run] at hn
  | succ n => exact ⟨n, rfl, by rw [← run_succ_of_next h, hn]⟩

/-- What it returns does not depend on how long one waits. -/
theorem run_unique {n m : Nat} {e' : ε} (hn : run step n s = .inr e) (hm : run step m s = .inr e') :
    e = e' := by
  induction n generalizing s m with
  | zero => simp [run] at hn
  | succ n ih =>
    cases m with
    | zero => simp [run] at hm
    | succ m =>
      simp only [run] at hn hm
      cases hstep : step s with
      | inl s' =>
        rw [hstep] at hn hm
        exact ih hn hm
      | inr e₀ =>
        rw [hstep] at hn hm
        exact Sum.inr.inj (hn.symm.trans hm)

theorem Returns.unique {e' : ε} (h : Returns step s e) (h' : Returns step s e') : e = e' := by
  obtain ⟨n, hn⟩ := h
  obtain ⟨m, hm⟩ := h'
  exact run_unique hn hm

theorem returns_iff_of_next (h : Next step s s') : Returns step s e ↔ Returns step s' e := by
  constructor
  · rintro ⟨n, hn⟩
    obtain ⟨m, -, hm⟩ := run_of_next h hn
    exact ⟨m, hm⟩
  · rintro ⟨n, hn⟩
    exact ⟨n + 1, by rw [run_succ_of_next h, hn]⟩

/-- What a machine returns, another one returns that goes the same way. -/
theorem Returns.map {τ δ : Type} {step' : τ → τ ⊕ δ} (φ : σ → τ) (ψ : ε → δ)
    (hsame : ∀ s, step' (φ s) = Sum.map φ ψ (step s)) (h : Returns step s e) : Returns step' (φ s) (ψ e) := by
  obtain ⟨n, hn⟩ := h
  refine ⟨n, ?_⟩
  induction n generalizing s with
  | zero => simp [run] at hn
  | succ n ih =>
    simp only [run, hsame] at hn ⊢
    cases hstep : step s with
    | inl s' =>
      rw [hstep] at hn
      exact ih hn
    | inr e' =>
      rw [hstep] at hn
      obtain rfl := Sum.inr.inj hn
      rfl

/-! ## Runs as a whole -/

/-- What a state that the machine comes to returns, the first one returns,
and there is one that returns it at once. -/
theorem Returns.exists_last (h : Returns step s e) :
    ∃ s', ReflTransGen (Next step) s s' ∧ step s' = .inr e := by
  obtain ⟨n, hn⟩ := h
  induction n generalizing s with
  | zero => simp [run] at hn
  | succ n ih =>
    simp only [run] at hn
    cases hstep : step s with
    | inl s' =>
      rw [hstep] at hn
      obtain ⟨s'', hreach, hlast⟩ := ih hn
      exact ⟨s'', ReflTransGen.head hstep hreach, hlast⟩
    | inr e' =>
      rw [hstep] at hn
      obtain rfl := Sum.inr.inj hn
      exact ⟨s, .refl, hstep⟩

/-- What each step keeps of a state that the machine comes to holds of all
of these, and what it makes sure of when it returns holds of the result. -/
theorem run_rule {Inv : σ → Prop} {Post : ε → Prop} (hs : Inv s)
    (hstep : ∀ s', ReflTransGen (Next step) s s' → Inv s' → Sum.elim Inv Post (step s')) :
    (∀ s', ReflTransGen (Next step) s s' → Inv s') ∧ ∀ e, Returns step s e → Post e := by
  have hinv : ∀ s', ReflTransGen (Next step) s s' → Inv s' := by
    intro s' hreach
    induction hreach with
    | refl => exact hs
    | tail hreach hnext ih =>
      have h := hstep _ hreach ih
      rwa [show step _ = .inl _ from hnext] at h
  refine ⟨hinv, fun e he => ?_⟩
  obtain ⟨s', hreach, hlast⟩ := he.exists_last
  have h := hstep s' hreach (hinv s' hreach)
  rwa [hlast] at h

/-- The run has returned after so many steps, and up to there all its
states had the property. -/
def Along (step : σ → σ ⊕ ε) (P : σ → Prop) : Nat → σ → Prop
  | 0, _ => False
  | n + 1, s => P s ∧ Sum.elim (Along step P n) (fun _ => True) (step s)

theorem Along.forall_reaches {P : σ → Prop} {n : Nat} (h : Along step P n s)
    (hreach : ReflTransGen (Next step) s s') : P s' := by
  induction n generalizing s with
  | zero => exact absurd h id
  | succ n ih =>
    obtain ⟨hs, hnext⟩ := h
    rcases ReflTransGen.cases_head hreach with rfl | ⟨s'', hstep, hreach⟩
    · exact hs
    · rw [show step s = .inl s'' from hstep] at hnext
      exact ih hnext hreach

instance decidableAlong (step : σ → σ ⊕ ε) (P : σ → Prop) [DecidablePred P] :
    ∀ n s, Decidable (Along step P n s)
  | 0, _ => .isFalse id
  | n + 1, s =>
    have : Decidable (Sum.elim (Along step P n) (fun _ => True) (step s)) :=
      match step s with
      | .inl s' => decidableAlong step P n s'
      | .inr _ => .isTrue trivial
    inferInstanceAs (Decidable (P s ∧ _))

theorem exists_returns_of_wellFounded {R : σ → σ → Prop} (hwf : WellFounded R)
    (hstep : ∀ s s', Next step s s' → R s' s) (s : σ) : ∃ e, Returns step s e := by
  induction s using hwf.induction with
  | _ s ih =>
    cases h : step s with
    | inl s' =>
      obtain ⟨e, he⟩ := ih s' (hstep s s' h)
      exact ⟨e, (returns_iff_of_next h).2 he⟩
    | inr e => exact ⟨e, returns_of_step h⟩

/-- A walk over numbers, from one to the next. -/
def Goes (next : Nat → Option Nat) (v w : Nat) : Prop := next v = some w

end Evlog.Lib.Machine
