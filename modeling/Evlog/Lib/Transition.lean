/-
Evlog.Lib.Transition — runs of a transition function.

`run` takes one total step for each action; what one step preserves, the
run preserves (`run_invariant`), also when it does so only under a
condition that the run meets at every step (`Meets`). `Always` is about the
states on the way. `runM` is the same for steps that may fail, and `Guarded` says that a condition on the state before the step
and on the action was met at every step of such a run. Its rule,
`runM_invariant`, gives both that the run gets through and that the
invariant holds where it ends.
-/
import Mathlib.Tactic

namespace Evlog.Lib

variable {σ α : Type}

/-! ## Total steps -/

def run (step : σ → α → σ) (s : σ) (as : List α) : σ := as.foldl step s

@[simp] theorem run_nil (step : σ → α → σ) (s : σ) : run step s [] = s := rfl

@[simp] theorem run_cons (step : σ → α → σ) (s : σ) (a : α) (as : List α) :
    run step s (a :: as) = run step (step s a) as := rfl

variable {step : σ → α → σ} {s s' : σ}

theorem run_invariant (Inv : σ → Prop) (hstep : ∀ s a, Inv s → Inv (step s a)) (hs : Inv s)
    (as : List α) : Inv (run step s as) := by
  induction as generalizing s with
  | nil => exact hs
  | cons a as ih => exact ih (hstep s a hs)

/-- Every step of the run meets the condition in the state it starts from. -/
def Meets (step : σ → α → σ) (P : σ → α → Prop) : σ → List α → Prop
  | _, [] => True
  | s, a :: as => P s a ∧ Meets step P (step s a) as

variable {P C : σ → α → Prop} {as bs : List α}

theorem meets_of_forall_mem (h : ∀ a ∈ as, ∀ s, P s a) : Meets step P s as := by
  induction as generalizing s with
  | nil => trivial
  | cons a as ih =>
    exact ⟨h a List.mem_cons_self s, ih fun b hb => h b (List.mem_cons_of_mem a hb)⟩

variable {Inv : σ → Prop}

/-- What a step meets wherever the invariant holds, every step of a run meets. -/
theorem meets_of_invariant (hinv : ∀ s a, Inv s → Inv (step s a)) (hP : ∀ s a, Inv s → P s a)
    (hs : Inv s) (as : List α) : Meets step P s as := by
  induction as generalizing s with
  | nil => trivial
  | cons a as ih => exact ⟨hP s a hs, ih (hinv s a hs)⟩

theorem run_append (step : σ → α → σ) (s : σ) (as bs : List α) :
    run step s (as ++ bs) = run step (run step s as) bs := List.foldl_append

theorem meets_append (has : Meets step P s as) (hbs : Meets step P (run step s as) bs) :
    Meets step P s (as ++ bs) := by
  induction as generalizing s with
  | nil => exact hbs
  | cons a as ih => exact ⟨has.1, ih has.2 hbs⟩

theorem meets_of_append (h : Meets step P s (as ++ bs)) :
    Meets step P s as ∧ Meets step P (run step s as) bs := by
  induction as generalizing s with
  | nil => exact ⟨trivial, h⟩
  | cons a as ih => exact ⟨⟨h.1, (ih h.2).1⟩, (ih h.2).2⟩

theorem meets_and {Q : σ → α → Prop} (hP : Meets step P s as) (hQ : Meets step Q s as) :
    Meets step (fun s a => P s a ∧ Q s a) s as := by
  induction as generalizing s with
  | nil => trivial
  | cons a as ih => exact ⟨⟨hP.1, hQ.1⟩, ih hP.2 hQ.2⟩

/-- A run with a step that does not meet the condition has a first one, and
the invariant holds in the state it starts from. -/
theorem exists_first_not_meets (hinv : ∀ s a, Inv s → P s a ∧ C s a → Inv (step s a)) (hs : Inv s)
    (hP : Meets step P s as) (hC : ¬ Meets step C s as) :
    ∃ pre a post, as = pre ++ a :: post ∧ Inv (run step s pre) ∧ ¬ C (run step s pre) a := by
  induction as generalizing s with
  | nil => exact absurd trivial hC
  | cons a as ih =>
    by_cases ha : C s a
    · obtain ⟨pre, b, post, rfl, hpre, hb⟩ :=
        ih (hinv s a hs ⟨hP.1, ha⟩) hP.2 fun has => hC ⟨ha, has⟩
      exact ⟨a :: pre, b, post, rfl, hpre, hb⟩
    · exact ⟨[], a, as, rfl, hs, ha⟩

/-- What a step preserves that meets the condition, a run preserves whose
steps all do. -/
theorem run_invariant_of_meets (Inv : σ → Prop) (hstep : ∀ s a, Inv s → P s a → Inv (step s a))
    (hs : Inv s) (h : Meets step P s as) : Inv (run step s as) := by
  induction as generalizing s with
  | nil => exact hs
  | cons a as ih => exact ih (hstep s a hs h.1) h.2

def Always (step : σ → α → σ) (P : σ → Prop) : σ → List α → Prop
  | s, [] => P s
  | s, a :: as => P s ∧ Always step P (step s a) as

/-- What follows from an invariant holds all along the run. -/
theorem always_of_invariant {step : σ → α → σ} {P Inv : σ → Prop}
    (hinv : ∀ s a, Inv s → Inv (step s a)) (hP : ∀ s, Inv s → P s) {s : σ} (hs : Inv s)
    (as : List α) : Always step P s as := by
  induction as generalizing s with
  | nil => exact hP s hs
  | cons a as ih => exact ⟨hP s hs, ih (hinv s a hs)⟩

/-- The same for a run whose steps meet the condition under which the
invariant is kept. -/
theorem always_of_meets {P : σ → Prop} (hinv : ∀ s a, Inv s → C s a → Inv (step s a))
    (hP : ∀ s, Inv s → P s) (hs : Inv s) (h : Meets step C s as) : Always step P s as := by
  induction as generalizing s with
  | nil => exact hP s hs
  | cons a as ih => exact ⟨hP s hs, ih (hinv s a hs h.1) h.2⟩

/-- If, where the invariant and the property hold, a step keeps the property
exactly when it meets the condition, and keeps the invariant then, the
property holds all along the run exactly when every step meets the
condition. -/
theorem always_iff_meets {step : σ → α → σ} {P Inv : σ → Prop} {C : σ → α → Prop}
    (hinv : ∀ s a, Inv s → P s → C s a → Inv (step s a))
    (hstep : ∀ s a, Inv s → P s → (P (step s a) ↔ C s a)) {s : σ} (hs : Inv s) (hP : P s)
    (as : List α) : Always step P s as ↔ Meets step C s as := by
  induction as generalizing s with
  | nil => exact ⟨fun _ => trivial, fun _ => hP⟩
  | cons a as ih =>
    constructor
    · rintro ⟨-, hrest⟩
      have hnext : P (step s a) := by
        cases as with
        | nil => exact hrest
        | cons b bs => exact hrest.1
      have hC := (hstep s a hs hP).1 hnext
      exact ⟨hC, (ih (hinv s a hs hP hC) hnext).1 hrest⟩
    · rintro ⟨hC, hrest⟩
      exact ⟨hP, (ih (hinv s a hs hP hC) ((hstep s a hs hP).2 hC)).2 hrest⟩

theorem meets_congr {step : σ → α → σ} {Inv : σ → Prop} {P C : σ → α → Prop}
    (hinv : ∀ s a, Inv s → Inv (step s a)) (hstep : ∀ s a, Inv s → (P s a ↔ C s a)) {s : σ}
    (hs : Inv s) (as : List α) : Meets step P s as ↔ Meets step C s as := by
  induction as generalizing s with
  | nil => exact Iff.rfl
  | cons a as ih => exact and_congr (hstep s a hs) (ih (hinv s a hs))

/-! ## Steps that may fail -/

/-- The state after one step for each action, if none of them fails. -/
def runM (step : σ → α → Option σ) (s : σ) (as : List α) : Option σ := as.foldlM step s

@[simp] theorem runM_nil (step : σ → α → Option σ) (s : σ) : runM step s [] = some s := rfl

theorem runM_cons {step : σ → α → Option σ} {a : α} (h : step s a = some s') (as : List α) :
    runM step s (a :: as) = runM step s' as := by
  rw [runM, List.foldlM_cons, h]
  rfl

theorem runM_append {step : σ → α → Option σ} (h : runM step s as = some s') (bs : List α) :
    runM step s (as ++ bs) = runM step s' bs := by
  rw [runM] at h
  rw [runM, List.foldlM_append, h]
  rfl

/-- Every step of the run meets the condition in the state it starts from. -/
def Guarded (step : σ → α → Option σ) (P : σ → α → Prop) : σ → List α → Prop
  | _, [] => True
  | s, a :: as => P s a ∧ ∀ s', step s a = some s' → Guarded step P s' as

/-- If a guarded step succeeds and preserves the invariant, so does a
guarded run. -/
theorem runM_invariant {step : σ → α → Option σ}
    (hstep : ∀ s a, Inv s → P s a → ∃ s', step s a = some s' ∧ Inv s') (hs : Inv s)
    (hg : Guarded step P s as) : ∃ s', runM step s as = some s' ∧ Inv s' := by
  induction as generalizing s with
  | nil => exact ⟨s, rfl, hs⟩
  | cons a as ih =>
    obtain ⟨hP, hrest⟩ := hg
    obtain ⟨s', hs', hInv⟩ := hstep s a hs hP
    rw [runM_cons hs']
    exact ih hInv (hrest s' hs')

end Evlog.Lib
