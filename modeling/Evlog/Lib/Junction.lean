/-
Evlog.Lib.Junction — AND and OR under three evaluations.

Two-valued: a list of operands is folded with `&&` or `||`. Aborting: an
operand is an `Option Bool`, `none` when computing it does not return,
and the operands are taken in order until one decides the junction, as
`&&` and `||` do in C. Three-valued: strong Kleene logic, where `maybe`
stands for a truth value nobody knows yet.

`Junctor` names the two connectives, so that every fact below is said
once for both. What the modules above use is how junctions are taken
apart (`fold_append`, `seq_append`), that operands that do not decide may
be left out (`seq_filter_not`), and that a definite three-valued result is
the two-valued one, whatever the unknown operands turn out to be
(`Kleene.admits_apply`).
-/
import Mathlib.Data.List.Basic

namespace Evlog.Lib

/-- The two connectives of a junction. -/
inductive Junctor where
  | and
  | or
  deriving DecidableEq, Repr

namespace Junctor

/-- The operand value that decides the junction by itself. -/
def absorbing : Junctor → Bool
  | .and => false
  | .or => true

def apply : Junctor → Bool → Bool → Bool
  | .and => (· && ·)
  | .or => (· || ·)

theorem apply_eq (j : Junctor) (a b : Bool) : j.apply a b = if a = j.absorbing then a else b := by
  cases j <;> cases a <;> simp [apply, absorbing]

/-! ## Two values -/

def fold (j : Junctor) (l : List Bool) : Bool :=
  if j.absorbing ∈ l then j.absorbing else !j.absorbing

theorem fold_singleton (j : Junctor) (b : Bool) : j.fold [b] = b := by
  cases j <;> cases b <;> simp [fold, absorbing]

theorem fold_append (j : Junctor) (l₁ l₂ : List Bool) :
    j.fold (l₁ ++ l₂) = j.apply (j.fold l₁) (j.fold l₂) := by
  rw [apply_eq]
  unfold fold
  by_cases h₁ : j.absorbing ∈ l₁
  · simp [h₁]
  · by_cases h₂ : j.absorbing ∈ l₂ <;> simp [h₁, h₂]

theorem fold_cons (j : Junctor) (b : Bool) (l : List Bool) :
    j.fold (b :: l) = j.apply b (j.fold l) := by
  have h := fold_append j [b] l
  rwa [fold_singleton] at h

theorem fold_congr (j : Junctor) {l₁ l₂ : List Bool} (h : ∀ b, b ∈ l₁ ↔ b ∈ l₂) :
    j.fold l₁ = j.fold l₂ := by
  unfold fold
  simp only [h]

/-- Splitting the operands by a test does not change the junction. -/
theorem fold_filter_append {α : Type} (j : Junctor) (p : α → Bool) (f : α → Bool) (l : List α) :
    j.fold (((l.filter p) ++ (l.filter (fun a => !p a))).map f) = j.fold (l.map f) := by
  apply fold_congr
  intro b
  simp only [List.map_append, List.mem_append, List.mem_map, List.mem_filter]
  constructor
  · rintro (⟨a, ⟨ha, -⟩, rfl⟩ | ⟨a, ⟨ha, -⟩, rfl⟩) <;> exact ⟨a, ha, rfl⟩
  · rintro ⟨a, ha, rfl⟩
    cases hp : p a with
    | true => exact .inl ⟨a, ⟨ha, hp⟩, rfl⟩
    | false => exact .inr ⟨a, ⟨ha, by simp [hp]⟩, rfl⟩

/-! ## In order, with operands that may not return -/

def seq (j : Junctor) : List (Option Bool) → Option Bool
  | [] => some !j.absorbing
  | x :: xs => x.bind fun b => if b = j.absorbing then some b else j.seq xs

@[simp] theorem seq_nil (j : Junctor) : j.seq [] = some !j.absorbing := rfl

theorem seq_cons (j : Junctor) (x : Option Bool) (xs : List (Option Bool)) :
    j.seq (x :: xs) = x.bind fun b => if b = j.absorbing then some b else j.seq xs := rfl

theorem seq_singleton (j : Junctor) (x : Option Bool) : j.seq [x] = x := by
  cases x with
  | none => rfl
  | some b => cases j <;> cases b <;> rfl

theorem seq_append (j : Junctor) (l₁ l₂ : List (Option Bool)) : j.seq (l₁ ++ l₂) =
      (j.seq l₁).bind fun b => if b = j.absorbing then some b else j.seq l₂ := by
  induction l₁ with
  | nil => cases j <;> simp [absorbing]
  | cons x xs ih =>
    simp only [List.cons_append, seq_cons]
    cases x with
    | none => rfl
    | some b =>
      by_cases hb : b = j.absorbing
      · simp [hb]
      · simp [hb, ih]

theorem seq_isSome {j : Junctor} {l : List (Option Bool)} (h : ∀ x ∈ l, x.isSome) :
    (j.seq l).isSome := by
  induction l with
  | nil => rfl
  | cons x xs ih =>
    obtain ⟨b, rfl⟩ := Option.isSome_iff_exists.mp (h x (by simp))
    rw [seq_cons]
    by_cases hb : b = j.absorbing
    · simp [hb]
    · simpa [hb] using ih fun y hy => h y (List.mem_cons_of_mem _ hy)

/-- A junction that comes out undecided has no deciding operand. -/
theorem seq_eq_unit {j : Junctor} {l : List (Option Bool)} (h : j.seq l = some !j.absorbing) :
    ∀ x ∈ l, x = some !j.absorbing := by
  induction l with
  | nil => simp
  | cons x xs ih =>
    rw [seq_cons] at h
    cases x with
    | none => simp at h
    | some c =>
      by_cases hc : c = j.absorbing
      · subst hc
        simp at h
      · simp only [Option.bind_some, if_neg hc] at h
        intro y hy
        rcases List.mem_cons.mp hy with rfl | hy
        · simpa using Bool.eq_not_of_ne hc
        · exact ih h y hy

theorem seq_filter_not {α : Type} {j : Junctor} {p : α → Bool} {f : α → Option Bool} {l : List α}
    (h : ∀ a ∈ l, p a = true → f a = some !j.absorbing) :
    j.seq ((l.filter fun a => !p a).map f) = j.seq (l.map f) := by
  induction l with
  | nil => rfl
  | cons a as ih =>
    have ih := ih fun b hb => h b (List.mem_cons_of_mem _ hb)
    rw [List.map_cons, seq_cons]
    cases hp : p a with
    | true =>
      rw [List.filter_cons_of_neg (by simp [hp]), ih, h a (by simp) hp]
      cases j <;> simp [absorbing]
    | false =>
      rw [List.filter_cons_of_pos (by simp [hp]), List.map_cons, seq_cons, ih]

end Junctor

/-! ## Three values -/

inductive Kleene where
  | no
  | maybe
  | yes
  deriving DecidableEq, Repr

namespace Kleene

def not : Kleene → Kleene
  | .no => .yes
  | .maybe => .maybe
  | .yes => .no

def apply : Junctor → Kleene → Kleene → Kleene
  | .and, .no, _ => .no
  | .and, .yes, k => k
  | .and, .maybe, .no => .no
  | .and, .maybe, _ => .maybe
  | .or, .yes, _ => .yes
  | .or, .no, k => k
  | .or, .maybe, .yes => .yes
  | .or, .maybe, _ => .maybe

def Admits : Kleene → Bool → Prop
  | .no, b => b = false
  | .yes, b => b = true
  | .maybe, _ => True

theorem admits_not {k : Kleene} {b : Bool} (h : k.Admits b) : k.not.Admits !b := by
  cases k <;> simp_all [Admits, not]

theorem admits_apply {j : Junctor} {k₁ k₂ : Kleene} {b₁ b₂ : Bool}
    (h₁ : k₁.Admits b₁) (h₂ : k₂.Admits b₂) : (apply j k₁ k₂).Admits (j.apply b₁ b₂) := by
  cases j <;> cases k₁ <;> cases k₂ <;> simp_all [Admits, apply, Junctor.apply]

end Kleene

end Evlog.Lib
