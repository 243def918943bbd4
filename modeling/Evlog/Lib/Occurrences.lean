/-
Evlog.Lib.Occurrences — where one text occurs in another, from left to
right.

The occurrences of `pat` that are found from the left, each search going
on behind the one before, leave the text in pieces (`Pieces`): every piece
but the last ends where `pat` occurs for the first time. The pieces are
known from the text (`Pieces.unique`), give it back with `pat` between
(`Pieces.intercalate_eq`), and `pieces` finds them by `strstr`. Putting
another text between them replaces every occurrence, and what that does to
the length is `Pieces.length_replaced`.
-/
import Mathlib.Data.List.Infix
import Mathlib.Data.List.Basic
import Mathlib.Algebra.Ring.Nat
import Mathlib.Tactic.Common
import Mathlib.Tactic.Ring

namespace Evlog.Lib

variable {α : Type} {pat l : List α}

/-- `pat` occurs in `p ++ pat ++ l` for the first time behind `p`. -/
def FirstBehind (pat p l : List α) : Prop := ∀ k < p.length, ¬ pat <+: (p ++ pat ++ l).drop k

/-- What the occurrences found from left to right leave of a text. -/
inductive Pieces (pat : List α) : List α → List (List α) → Prop
  | last {l : List α} (h : ¬ pat <:+: l) : Pieces pat l [l]
  | cut {p l : List α} {ps : List (List α)} (hfirst : FirstBehind pat p l) (h : Pieces pat l ps) :
      Pieces pat (p ++ pat ++ l) (p :: ps)

variable {ps : List (List α)}

theorem Pieces.ne_nil (h : Pieces pat l ps) : ps ≠ [] := by
  cases h <;> simp

theorem Pieces.intercalate_eq (h : Pieces pat l ps) : pat.intercalate ps = l := by
  induction h with
  | last _ => simp
  | cut _ h ih => rw [List.intercalate_cons_of_ne_nil h.ne_nil, ih, List.append_assoc]

theorem Pieces.length_eq_one (h : Pieces pat l ps) : ps.length = 1 ↔ ¬ pat <:+: l := by
  cases h with
  | last h => simpa using h
  | cut hfirst h =>
    have hpos := List.length_pos_iff.2 h.ne_nil
    simp only [List.length_cons, List.infix_append, not_true_eq_false, iff_false]
    omega

theorem FirstBehind.length_le {p q m : List α} (h : FirstBehind pat p l)
    (heq : p ++ pat ++ l = q ++ pat ++ m) : p.length ≤ q.length := by
  by_contra hlt
  refine h q.length (Nat.lt_of_not_le hlt) ?_
  rw [heq, List.append_assoc, List.drop_left]
  exact List.prefix_append pat m

/-- What is before the first `a`, and what is behind it. -/
theorem split_unique {a : α} {p q m : List α} (hp : a ∉ p) (hq : a ∉ q)
    (h : p ++ a :: l = q ++ a :: m) : p = q ∧ l = m := by
  induction p generalizing q with
  | nil =>
    cases q with
    | nil => exact ⟨rfl, List.tail_eq_of_cons_eq h⟩
    | cons b q =>
      rw [List.nil_append, List.cons_append, List.cons.injEq] at h
      exact absurd (h.1 ▸ List.mem_cons_self) hq
  | cons b p ih =>
    cases q with
    | nil =>
      rw [List.nil_append, List.cons_append, List.cons.injEq] at h
      exact absurd (h.1 ▸ List.mem_cons_self) hp
    | cons c q =>
      rw [List.cons_append, List.cons_append, List.cons.injEq] at h
      obtain ⟨hpq, hlm⟩ := ih (fun hmem => hp (List.mem_cons_of_mem _ hmem))
        (fun hmem => hq (List.mem_cons_of_mem _ hmem)) h.2
      exact ⟨by rw [h.1, hpq], hlm⟩

theorem Pieces.unique {qs : List (List α)} (h : Pieces pat l ps) (h' : Pieces pat l qs) :
    ps = qs := by
  induction h generalizing qs with
  | last hnone =>
    cases h' with
    | last _ => rfl
    | cut _ _ => exact absurd (List.infix_append _ _ _) hnone
  | @cut p l ps hfirst h ih =>
    generalize hl : p ++ pat ++ l = t at h'
    cases h' with
    | last hnone => exact absurd (hl ▸ List.infix_append _ _ _) hnone
    | @cut q m qs hfirst' h' =>
      have hlen := Nat.le_antisymm (hfirst.length_le hl) (hfirst'.length_le hl.symm)
      rw [List.append_assoc, List.append_assoc] at hl
      obtain ⟨rfl, hrest⟩ := List.append_inj hl hlen
      obtain rfl := List.append_cancel_left hrest
      rw [ih h']

/-- Each occurrence takes `pat` away and puts `val` in. -/
theorem Pieces.length_replaced (h : Pieces pat l ps) (val : List α) :
    (val.intercalate ps).length + (ps.length - 1) * pat.length =
      l.length + (ps.length - 1) * val.length := by
  induction h with
  | last _ => simp
  | @cut p l ps hfirst h ih =>
    obtain ⟨n, hn⟩ := Nat.exists_eq_add_of_lt (List.length_pos_iff.2 h.ne_nil)
    rw [hn] at ih
    simp only [List.intercalate_cons_of_ne_nil h.ne_nil, List.length_append, List.length_cons, hn]
    simp only [Nat.zero_add, Nat.add_sub_cancel, Nat.add_mul, Nat.one_mul] at ih ⊢
    omega

/-! ## `strstr` -/

section Search

variable [DecidableEq α]

/-- The search for the first occurrence: what is before it, and the text
from it on. -/
def strstr (pat : List α) : List α → Option (List α × List α)
  | [] => if pat = [] then some ([], []) else none
  | a :: l =>
    if pat.isPrefixOf (a :: l) then some ([], a :: l)
    else (strstr pat l).map fun r => (a :: r.1, r.2)

/-- The search and the pieces, with `fuel` for the number of searches. -/
def piecesLoop (pat : List α) : Nat → List α → List (List α)
  | 0, l => [l]
  | fuel + 1, l =>
    match strstr pat l with
    | none => [l]
    | some (p, r) => p :: piecesLoop pat fuel (r.drop pat.length)

def pieces (pat l : List α) : List (List α) := piecesLoop pat l.length l

/-- How often `pat` is found, each time behind the one before. -/
def occurrences (pat l : List α) : Nat := (pieces pat l).length - 1

theorem strstr_eq_none : strstr pat l = none ↔ ¬ pat <:+: l := by
  induction l with
  | nil => simp [strstr]
  | cons a l ih =>
    rw [strstr, List.infix_cons_iff]
    by_cases hpre : pat <+: a :: l
    · simp [List.isPrefixOf_iff_prefix.2 hpre, hpre]
    · have hfalse : pat.isPrefixOf (a :: l) = false := by
        simpa [← List.isPrefixOf_iff_prefix] using hpre
      simp [hfalse, hpre, ih]

variable {p r : List α}

theorem strstr_eq_some (h : strstr pat l = some (p, r)) :
    ∃ m, r = pat ++ m ∧ l = p ++ pat ++ m ∧ FirstBehind pat p m := by
  induction l generalizing p with
  | nil =>
    simp only [strstr] at h
    split at h
    · subst pat
      cases h
      exact ⟨[], rfl, rfl, fun k hk => absurd hk (Nat.not_lt_zero k)⟩
    · cases h
  | cons a l ih =>
    rw [strstr] at h
    split at h
    · rename_i hpre
      obtain ⟨m, hm⟩ := List.isPrefixOf_iff_prefix.1 hpre
      cases h
      exact ⟨m, hm.symm, hm.symm, fun k hk => absurd hk (Nat.not_lt_zero k)⟩
    · rename_i hpre
      obtain ⟨q, hq, heq⟩ := Option.map_eq_some_iff.1 h
      cases heq
      obtain ⟨m, hr, hl, hfirst⟩ := ih hq
      refine ⟨m, hr, by rw [hl]; rfl, ?_⟩
      intro k hk hocc
      cases k with
      | zero =>
        rw [hl] at hpre
        exact hpre (List.isPrefixOf_iff_prefix.2 hocc)
      | succ k => exact hfirst k (Nat.lt_of_succ_lt_succ hk) hocc

theorem strstr_singleton {a : α} (h : strstr [a] l = some (p, r)) :
    a ∉ p ∧ ∃ m, r = a :: m ∧ l = p ++ a :: m := by
  obtain ⟨m, hr, hl, hfirst⟩ := strstr_eq_some h
  refine ⟨fun hmem => ?_, m, hr, by simpa using hl⟩
  obtain ⟨k, hk, hget⟩ := List.mem_iff_getElem.1 hmem
  refine hfirst k hk ?_
  rw [List.append_assoc, List.drop_append_of_le_length hk.le, List.drop_eq_getElem_cons hk, hget]
  exact ⟨_, rfl⟩

theorem strstr_singleton_eq_none {a : α} : strstr [a] l = none ↔ a ∉ l := by
  rw [strstr_eq_none, List.singleton_infix_iff]

/-- What is before the first `a`, and what is behind it, are found. -/
theorem strstr_singleton_append {a : α} (hp : a ∉ p) (l : List α) :
    strstr [a] (p ++ a :: l) = some (p, a :: l) := by
  cases h : strstr [a] (p ++ a :: l) with
  | none => exact absurd (List.mem_append_right p List.mem_cons_self) (strstr_singleton_eq_none.1 h)
  | some found =>
    obtain ⟨q, r⟩ := found
    obtain ⟨hq, m, rfl, heq⟩ := strstr_singleton h
    obtain ⟨rfl, rfl⟩ := split_unique hp hq heq
    rfl

theorem strstr_append (h : strstr pat l = some (p, r)) (m : List α) :
    strstr pat (l ++ m) = some (p, r ++ m) := by
  induction l generalizing p with
  | nil =>
    simp only [strstr] at h
    split at h
    · subst pat
      cases h
      cases m with
      | nil => rfl
      | cons a m => rfl
    · cases h
  | cons a l ih =>
    rw [strstr] at h
    split at h
    · next hpre =>
      cases h
      have hpre' : pat <+: a :: (l ++ m) :=
        (List.isPrefixOf_iff_prefix.1 hpre).trans (List.prefix_append (a :: l) m)
      rw [List.cons_append, strstr, if_pos (List.isPrefixOf_iff_prefix.2 hpre')]
    · next hpre =>
      obtain ⟨q, hq, heq⟩ := Option.map_eq_some_iff.1 h
      cases heq
      obtain ⟨rest, -, hl, -⟩ := strstr_eq_some hq
      have hlength : pat.length ≤ (a :: l).length := by
        rw [hl]
        simp only [List.length_append, List.length_cons]
        omega
      have hpre' : ¬pat.isPrefixOf (a :: (l ++ m)) = true := by
        intro h
        refine hpre (List.isPrefixOf_iff_prefix.2 ?_)
        exact List.prefix_of_prefix_length_le (List.isPrefixOf_iff_prefix.1 h)
          (List.prefix_append (a :: l) m) hlength
      rw [List.cons_append, strstr, if_neg hpre', ih hq]
      rfl

theorem piecesLoop_spec (hpat : pat ≠ []) {fuel : Nat} (hfuel : l.length ≤ fuel) :
    Pieces pat l (piecesLoop pat fuel l) := by
  induction fuel generalizing l with
  | zero =>
    obtain rfl : l = [] := List.length_eq_zero_iff.1 (Nat.le_zero.1 hfuel)
    exact .last (by simpa using hpat)
  | succ fuel ih =>
    rw [piecesLoop]
    split
    · rename_i hnone
      exact .last (strstr_eq_none.1 hnone)
    · rename_i p r hsome
      obtain ⟨m, rfl, rfl, hfirst⟩ := strstr_eq_some hsome
      have hpos := List.length_pos_iff.2 hpat
      rw [List.drop_left]
      refine .cut hfirst (ih ?_)
      simp only [List.length_append] at hfuel
      omega

/-- `pieces` are the pieces. -/
theorem pieces_spec (hpat : pat ≠ []) (l : List α) : Pieces pat l (pieces pat l) :=
  piecesLoop_spec hpat (Nat.le_refl _)

end Search

end Evlog.Lib
