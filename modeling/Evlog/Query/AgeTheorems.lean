/-
Evlog.Query.AgeTheorems — are ages what they say?

`parseAge` reads a text with `strtoul` and keeps 32 bits of it, and its
result is taken for an error if it is negative. What it finds is written
here as one product modulo 2^32 (`parseAge_eq`), for every text: digits and a
unit, with blanks and a sign before them or not. An age is then the seconds
that it says if and only if they fit (`AgeOperand.Fits`).
-/
import Evlog.Query.OperandTheorems
import Mathlib.Data.List.TakeWhile

namespace Evlog.Query

open Evlog.Lib

/-! ## What is meant -/

def IsAge (s : List Char) (seconds : Nat) : Prop :=
  ∃ digits c unit, s = digits ++ [c] ∧ digits ≠ [] ∧ (∀ d ∈ digits, d.isDigit = true) ∧
    ageUnit c = some unit ∧ seconds = digitsValue 10 digits * unit

/-- The seconds of an age. A number without a unit is one of days. -/
def AgeOperand.Seconds (seconds : Nat) : AgeOperand → Prop
  | .integer l => l.value * 86400 = seconds
  | .string s => IsAge s.toList seconds
  | .name _ => False

def AgeOperand.Exact (o : AgeOperand) : Prop :=
  ∀ attName op addr right, normalizeAttAge attName op (o.node addr) = .ok right →
    ∃ minus uval, right = .val addr minus uval ∧ o.Seconds uval.toNat

/-- The seconds can be held, or else they are not taken for an age. -/
def AgeOperand.Fits : AgeOperand → Prop
  | .integer l => (l.minus = true ∧ l.magnitude ≠ 0) ∨ l.magnitude * 86400 < 2 ^ 64
  | .string s =>
    ∀ a, ageText s.toList = some a →
      2 ^ 64 ≤ a.number ∨
        2 ^ 31 ≤ a.value * a.unit % 2 ^ 32 ∨
        (a.plain = true ∧ a.number * a.unit < 2 ^ 31)
  | .name _ => True

/-! ## `strtoul` -/

theorem foldl_digits {ds : List Char} (h : ∀ d ∈ ds, d.isDigit = true) (n : Nat) :
    ds.foldl (fun n c => 10 * n + (c.toNat - 48)) n = ds.foldl (fun n c => 10 * n + digitValue c) n := by
  induction ds generalizing n with
  | nil => rfl
  | cons d ds ih =>
    have hd : digitValue d = d.toNat - 48 := if_pos (h d List.mem_cons_self)
    rw [List.foldl_cons, List.foldl_cons, hd]
    exact ih (fun d' hd' => h d' (List.mem_cons_of_mem _ hd')) _

theorem signOf_length (t : List Char) : (signOf t).2.length ≤ t.length := by
  unfold signOf
  split <;> simp

/-- What `strtoul` makes of a number and its sign. -/
def strtoulWord (negative : Bool) (n : Nat) : UInt64 :=
  if n < 2 ^ 64 then (if negative then -UInt64.ofNat n else UInt64.ofNat n) else 0xffffffffffffffff

theorem digits_takeWhile (u : List Char) :
    (u.takeWhile Char.isDigit).foldl (fun n c => 10 * n + (c.toNat - 48)) 0
      = digitsValue 10 (u.takeWhile Char.isDigit) :=
  foldl_digits (fun _ hd => List.mem_takeWhile_imp hd) 0

theorem strtoul_eq (s : List Char) : strtoul s =
      if (signOf (s.dropWhile isCSpace)).2.takeWhile Char.isDigit = [] then (0, s)
      else
        (strtoulWord (signOf (s.dropWhile isCSpace)).1
            (digitsValue 10 ((signOf (s.dropWhile isCSpace)).2.takeWhile Char.isDigit)),
          (signOf (s.dropWhile isCSpace)).2.dropWhile Char.isDigit) := by
  simp only [← digits_takeWhile]
  unfold strtoul signOf
  generalize List.dropWhile isCSpace s = t
  match t with
  | [] => rfl
  | c :: u =>
    by_cases hm : c = '-'
    · subst hm; rfl
    · by_cases hp : c = '+'
      · subst hp; rfl
      · simp only [List.cons.injEq, hm, hp, false_and, imp_false, not_false_eq_true, implies_true]
        rfl

/-! ## `parseAge` -/

/-- The seconds that `parseAge` finds in a text it reads as an age. -/
def ageSeconds (a : AgeText) : Int32 :=
  ((strtoulWord a.negative a.number).toUInt32 * UInt32.ofNat a.unit).toInt32

theorem parseAge_eq (s : String) : parseAge s = match ageText s.toList with
      | none => -1
      | some a => ageSeconds a := by
  have hlen := (signOf_length (s.toList.dropWhile isCSpace)).trans
    (List.dropWhile_sublist isCSpace).length_le
  unfold parseAge ageText
  rw [strtoul_eq]
  dsimp only
  generalize signOf (s.toList.dropWhile isCSpace) = p at hlen ⊢
  by_cases hd : p.2.takeWhile Char.isDigit = []
  · rw [if_pos hd]
    simp only [if_true, hd]
    split
    · rfl
    · next h =>
      split at h <;> cases h
  · have hne : p.2.dropWhile Char.isDigit ≠ s.toList := by
      intro h
      have hsum := congrArg List.length (List.takeWhile_append_dropWhile (p := Char.isDigit) (l := p.2))
      rw [List.length_append, h] at hsum
      exact hd (List.length_eq_zero_iff.1 (by omega))
    rw [if_neg hd]
    dsimp only
    rw [if_neg hne]
    simp only [if_neg hd]
    generalize p.2.dropWhile Char.isDigit = rest
    match rest with
    | [] => rfl
    | c :: d :: rest =>
      split <;> first | rfl | (next h => cases h)
    | [c] =>
      simp only [ageUnit]
      by_cases hs : c = 's'
      · subst hs
        exact (congrArg UInt32.toInt32 (UInt32.mul_one _)).symm
      by_cases hm : c = 'm'
      · subst hm
        rfl
      by_cases hh : c = 'h'
      · subst hh
        rfl
      by_cases hd : c = 'd'
      · subst hd
        rfl
      simp only [List.cons.injEq, hs, hm, hh, hd, false_and, imp_false, not_false_eq_true,
        Option.map_none]

theorem toNat_strtoulWord (negative : Bool) (n : Nat) : (strtoulWord negative n).toNat =
      if n < 2 ^ 64 then (if negative ∧ n ≠ 0 then 2 ^ 64 - n else n) else 2 ^ 64 - 1 := by
  unfold strtoulWord
  by_cases h : n < 2 ^ 64
  · rw [if_pos h, if_pos h]
    cases negative with
    | false => exact UInt64.toNat_ofNat_of_lt' h
    | true =>
      rw [if_pos rfl, toNat_neg, UInt64.toNat_ofNat_of_lt' h]
      simp only [true_and, ne_eq, ite_not]
      split <;> omega
  · rw [if_neg h, if_neg h]
    rfl

variable {n unit addr : Nat}

/-- The low half of the word is that of the number with its sign. -/
theorem strtoulWord_mod (negative : Bool) (hn : n < 2 ^ 64) :
    ((strtoulWord negative n).toNat : Int) % 2 ^ 32 = (if negative then -(n : Int) else n) % 2 ^ 32 := by
  rw [toNat_strtoulWord, if_pos hn]
  cases negative with
  | false => simp
  | true =>
    simp only [true_and, if_true]
    split <;> omega

variable {a : AgeText}

theorem toNat_ageSeconds (hu : a.unit < 2 ^ 32) (hn : a.number < 2 ^ 64) :
    (((strtoulWord a.negative a.number).toUInt32 * UInt32.ofNat a.unit).toNat : Int)
      = a.value * a.unit % 2 ^ 32 := by
  have hw : ((strtoulWord a.negative a.number).toNat : Int) % 2 ^ 32 = a.value % 2 ^ 32 :=
    strtoulWord_mod a.negative hn
  calc (((strtoulWord a.negative a.number).toUInt32 * UInt32.ofNat a.unit).toNat : Int)
      = ((strtoulWord a.negative a.number).toNat % 2 ^ 32 * a.unit % 2 ^ 32 : Nat) := by
        rw [UInt32.toNat_mul, UInt64.toNat_toUInt32, UInt32.toNat_ofNat_of_lt' hu]
    _ = ((strtoulWord a.negative a.number).toNat : Int) % 2 ^ 32 * a.unit % 2 ^ 32 := by
        push_cast
        rfl
    _ = a.value * a.unit % 2 ^ 32 := by rw [hw, Int.mul_emod, Int.emod_emod, ← Int.mul_emod]

theorem toNat_ageSeconds_huge (hu : a.unit < 2 ^ 32) (hpos : 0 < a.unit) (hn : 2 ^ 64 ≤ a.number) :
    ((strtoulWord a.negative a.number).toUInt32 * UInt32.ofNat a.unit).toNat = 2 ^ 32 - a.unit := by
  rw [UInt32.toNat_mul, UInt64.toNat_toUInt32, UInt32.toNat_ofNat_of_lt' hu, toNat_strtoulWord,
    if_neg (by omega)]
  have h : (2 ^ 64 - 1) % 2 ^ 32 * a.unit = (2 ^ 32 - a.unit) + 2 ^ 32 * (a.unit - 1) := by omega
  rw [h, Nat.add_mul_mod_self_left, Nat.mod_eq_of_lt (by omega)]

theorem ageUnit_bounds {c : Char} (h : ageUnit c = some unit) : 0 < unit ∧ unit < 2 ^ 31 := by
  unfold ageUnit at h
  split at h <;> cases h <;> decide

variable {s : List Char}

theorem ageText_unit (h : ageText s = some a) : 0 < a.unit ∧ a.unit < 2 ^ 31 := by
  unfold ageText at h
  dsimp only at h
  split at h
  · split at h
    · cases h
    · obtain ⟨unit, hu, rfl⟩ := Option.map_eq_some_iff.1 h
      exact ageUnit_bounds hu
  · cases h

/-! ### The texts that are ages -/

theorem ageUnit_not_digit {c : Char} (h : ageUnit c = some unit) : c.isDigit = false := by
  unfold ageUnit at h
  split at h <;> first | rfl | cases h

theorem signOf_digit {d : Char} (h : d.isDigit = true) (t : List Char) :
    signOf (d :: t) = (false, d :: t) := by
  unfold signOf
  split
  · next heq => obtain ⟨rfl, -⟩ := List.cons.inj heq; cases h
  · next heq => obtain ⟨rfl, -⟩ := List.cons.inj heq; cases h
  · rfl

theorem isCSpace_digit {d : Char} (h : d.isDigit = true) : isCSpace d = false := by
  by_contra hs
  rw [Bool.not_eq_false] at hs
  simp only [isCSpace, Bool.or_eq_true, decide_eq_true_eq] at hs
  rcases hs with ((((rfl | rfl) | rfl) | rfl) | rfl) | rfl <;> cases h

theorem ageText_of_digits {digits : List Char} {c : Char} (hne : digits ≠ [])
    (hd : ∀ d ∈ digits, d.isDigit = true) (hu : ageUnit c = some unit) :
    ageText (digits ++ [c]) = some ⟨true, false, digitsValue 10 digits, unit⟩ := by
  have hfirst : signOf ((digits ++ [c]).dropWhile isCSpace) = (false, digits ++ [c]) := by
    obtain ⟨d, ds, rfl⟩ := List.exists_cons_of_ne_nil hne
    have hd1 := hd d List.mem_cons_self
    rw [List.cons_append, List.dropWhile_cons_of_neg (by rw [isCSpace_digit hd1]; exact Bool.false_ne_true)]
    exact signOf_digit hd1 _
  have htake : (digits ++ [c]).takeWhile Char.isDigit = digits := by
    rw [List.takeWhile_append_of_pos hd, List.takeWhile_cons_of_neg (by simp [ageUnit_not_digit hu]),
      List.append_nil]
  have hdrop : (digits ++ [c]).dropWhile Char.isDigit = [c] := by
    rw [List.dropWhile_append_of_pos hd, List.dropWhile_cons_of_neg (by simp [ageUnit_not_digit hu])]
  unfold ageText
  rw [hfirst]
  dsimp only
  rw [htake, hdrop]
  dsimp only
  rw [if_neg hne, hu, Option.map_some, decide_eq_true rfl]

theorem isAge_iff {seconds : Nat} : IsAge s seconds ↔
      ∃ a, ageText s = some a ∧ a.plain = true ∧ a.negative = false ∧ seconds = a.number * a.unit := by
  constructor
  · rintro ⟨digits, c, unit, rfl, hne, hd, hu, rfl⟩
    exact ⟨_, ageText_of_digits hne hd hu, rfl, rfl, rfl⟩
  · rintro ⟨a, ha, hp, hneg, rfl⟩
    unfold ageText at ha
    dsimp only at ha
    split at ha
    · next c hc =>
      split at ha
      · cases ha
      · next hne =>
        obtain ⟨unit, hu, rfl⟩ := Option.map_eq_some_iff.1 ha
        have hs := of_decide_eq_true hp
        refine ⟨_, c, unit, ?_, hne, fun d hd => List.mem_takeWhile_imp hd, hu, rfl⟩
        rw [← hc, List.takeWhile_append_dropWhile]
        exact hs.symm
    · cases ha

theorem signOf_negative {t : List Char} (h : (signOf t).1 = true) : t = '-' :: (signOf t).2 := by
  unfold signOf at h ⊢
  split at h
  · rfl
  · cases h
  · cases h

theorem ageText_plain (h : ageText s = some a) (hp : a.plain = true) : a.negative = false := by
  unfold ageText at h
  dsimp only at h
  split at h
  · split at h
    · cases h
    · obtain ⟨unit, -, rfl⟩ := Option.map_eq_some_iff.1 h
      have hs : (signOf (s.dropWhile isCSpace)).2 = s := of_decide_eq_true hp
      by_contra hneg
      have hlen := congrArg List.length (signOf_negative (Bool.eq_true_of_not_eq_false hneg))
      have hle := (List.dropWhile_sublist (l := s) isCSpace).length_le
      rw [List.length_cons, hs] at hlen
      omega
  · cases h

/-! ### What is accepted -/

def acceptedSeconds (s : String) (n : Nat) : Prop :=
  0 ≤ (parseAge s).toInt ∧ (n : Int) = (parseAge s).toInt

theorem acceptedSeconds_iff {s : String} : acceptedSeconds s n ↔
      ∃ a, ageText s.toList = some a ∧ a.number < 2 ^ 64 ∧ a.value * a.unit % 2 ^ 32 < 2 ^ 31 ∧
        (n : Int) = a.value * a.unit % 2 ^ 32 := by
  unfold acceptedSeconds
  rw [parseAge_eq]
  cases ha : ageText s.toList with
  | none => simp
  | some a =>
    obtain ⟨hpos, hunit⟩ := ageText_unit ha
    have hu : a.unit < 2 ^ 32 := by omega
    dsimp only
    unfold ageSeconds
    rw [toInt_toInt32]
    constructor
    · rintro ⟨h0, hn⟩
      have hlt : a.number < 2 ^ 64 := by
        by_contra hbig
        rw [toNat_ageSeconds_huge hu hpos (by omega), if_neg (by omega)] at h0
        omega
      have hw := toNat_ageSeconds hu hlt
      have hmod := UInt32.toNat_lt ((strtoulWord a.negative a.number).toUInt32 * UInt32.ofNat a.unit)
      refine ⟨a, rfl, hlt, ?_⟩
      split at hn <;> omega
    · rintro ⟨b, hb, hlt, hr, hn⟩
      cases hb
      have hw := toNat_ageSeconds hu hlt
      rw [if_pos (by omega)]
      omega

theorem normalizeAttAge_string {attName : String} {op : Op} {s : String} {right : PNode} :
    normalizeAttAge attName op (.string addr s) = .ok right ↔
      op ∈ standardIntOps ∧ 0 ≤ (parseAge s).toInt ∧
        right = .val addr false (parseAge s).toInt64.toUInt64 := by
  have hneg : parseAge s < 0 ↔ (parseAge s).toInt < 0 := Int32.lt_iff_toInt_lt
  unfold normalizeAttAge
  dsimp only
  by_cases h : parseAge s < 0
  · rw [if_pos h]
    constructor
    · intro hc
      cases hc
    · rintro ⟨-, h0, -⟩
      exact absurd (hneg.1 h) (by omega)
  · rw [if_neg h]
    have h0 : 0 ≤ (parseAge s).toInt := by
      have := mt hneg.2 h
      omega
    constructor
    · intro hv
      obtain ⟨hop, rfl⟩ := verifyOp_ok hv
      exact ⟨hop, h0, rfl⟩
    · rintro ⟨hop, -, rfl⟩
      exact if_pos hop

theorem normalizeAttAge_integer {attName : String} {op : Op} {minus : Bool} {uval : UInt64}
    {right : PNode} :
    normalizeAttAge attName op (.val addr minus uval) = .ok right ↔
      op ∈ standardIntOps ∧ (minus = true → uval = 0) ∧ right = .val addr minus (uval * 86400) := by
  have hword : ∀ w, normalizedWord false 8 minus uval = some w ↔ (minus = true → uval = 0) ∧ w = uval := by
    intro w
    unfold normalizedWord
    cases minus with
    | false => simp [outOfRange, eq_comm]
    | true => by_cases h0 : uval = 0 <;> simp [outOfRange, h0, eq_comm]
  unfold normalizeAttAge
  constructor
  · intro h
    obtain ⟨r, hr, hv⟩ := except_bind_eq_ok h
    obtain ⟨w, hw, rfl⟩ := normalizeInteger_iff.1 hr
    obtain ⟨hm, rfl⟩ := (hword w).1 hw
    obtain ⟨hop, rfl⟩ := verifyOp_ok hv
    simp only [Bool.false_and, Bool.or_false]
    exact ⟨hop, hm, rfl⟩
  · rintro ⟨hop, hm, rfl⟩
    dsimp only
    rw [normalizeInteger_iff.2 ⟨uval, (hword uval).2 ⟨hm, rfl⟩, rfl⟩]
    simp only [Bool.false_and, Bool.or_false]
    exact if_pos hop

/-! ### The condition -/

theorem age_string_iff (s : String) : AgeOperand.Exact (.string s) ↔ AgeOperand.Fits (.string s) := by
  constructor
  · intro h a ha
    by_cases hn : a.number < 2 ^ 64
    · by_cases hr : a.value * a.unit % 2 ^ 32 < 2 ^ 31
      · have h0 : 0 ≤ a.value * a.unit % 2 ^ 32 := Int.emod_nonneg _ (by decide)
        obtain ⟨n, hnat⟩ := Int.eq_ofNat_of_zero_le h0
        obtain ⟨hacc, hval⟩ := acceptedSeconds_iff.2 ⟨a, ha, hn, hr, hnat.symm⟩
        obtain ⟨minus, uval, heq, hs⟩ := h "" .eq 0 _
          (normalizeAttAge_string.2 ⟨by decide, hacc, rfl⟩)
        cases heq
        obtain ⟨b, hb, hp, hneg, hsec⟩ := isAge_iff.1 hs
        cases ha.symm.trans hb
        have hu := toNat_toUInt64_toInt64 hacc
        refine .inr (.inr ⟨hp, ?_⟩)
        have : ((a.number * a.unit : Nat) : Int) < 2 ^ 31 := by
          rw [← hsec, hu, ← hval, ← hnat]
          exact hr
        exact_mod_cast this
      · exact .inr (.inl (not_lt.1 hr))
    · exact .inl (by omega)
  · intro h attName op addr right hr
    obtain ⟨-, h0, rfl⟩ := normalizeAttAge_string.1 hr
    refine ⟨_, _, rfl, isAge_iff.2 ?_⟩
    have hu := toNat_toUInt64_toInt64 h0
    obtain ⟨a, ha, hn, hlt, hval⟩ := acceptedSeconds_iff.1 ⟨h0, hu⟩
    obtain hbig | hbig | ⟨hp, hsmall⟩ := h a ha
    · omega
    · omega
    · have hneg := ageText_plain ha hp
      have hv : a.value * a.unit = ((a.number * a.unit : Nat) : Int) := by
        unfold AgeText.value
        rw [hneg]
        push_cast
        rfl
      refine ⟨a, ha, hp, hneg, ?_⟩
      rw [hv] at hval
      omega

theorem age_integer_iff (l : Literal) : AgeOperand.Exact (.integer l) ↔ AgeOperand.Fits (.integer l) := by
  have hword := l.toNat_word
  constructor
  · intro h
    by_cases hm : l.minus = true ∧ l.magnitude ≠ 0
    · exact .inl hm
    · rw [if_neg hm] at hword
      have hzero : l.minus = true → l.word = 0 := fun hminus => by
        rw [← UInt64.toNat_inj, hword]
        have : l.magnitude = 0 := by by_contra h0; exact hm ⟨hminus, h0⟩
        rw [this]
        rfl
      obtain ⟨minus, uval, heq, hs⟩ := h "" .eq 0 (.val 0 l.minus (l.word * 86400)) (by
        rw [AgeOperand.node, l.node_eq]
        exact normalizeAttAge_integer.2 ⟨by decide, hzero, rfl⟩)
      cases heq
      refine .inr ?_
      have hv : l.value = l.magnitude := by
        unfold Literal.value
        split
        · next hminus =>
          have : l.magnitude = 0 := by by_contra h0; exact hm ⟨hminus, h0⟩
          omega
        · rfl
      have hlt := UInt64.toNat_lt (l.word * 86400)
      change l.value * 86400 = ((l.word * 86400).toNat : Int) at hs
      rw [hv] at hs
      omega
  · intro h attName op addr right hr
    rw [AgeOperand.node, l.node_eq] at hr
    obtain ⟨-, hzero, rfl⟩ := normalizeAttAge_integer.1 hr
    refine ⟨_, _, rfl, ?_⟩
    change l.value * 86400 = ((l.word * 86400).toNat : Int)
    obtain ⟨hminus, h0⟩ | hfit := h
    · rw [if_pos ⟨hminus, h0⟩, hzero hminus] at hword
      have h00 : (0 : UInt64).toNat = 0 := rfl
      omega
    · have hmul : (l.word * 86400).toNat = l.word.toNat * 86400 % 2 ^ 64 := UInt64.toNat_mul _ _
      by_cases hm : l.minus = true ∧ l.magnitude ≠ 0
      · rw [if_pos hm, hzero hm.1] at hword
        have h00 : (0 : UInt64).toNat = 0 := rfl
        omega
      · rw [if_neg hm, Nat.min_eq_left (by omega)] at hword
        have hv : l.value = l.magnitude := by
          unfold Literal.value
          split
          · next hminus =>
            have : l.magnitude = 0 := by by_contra h0; exact hm ⟨hminus, h0⟩
            omega
          · rfl
        rw [hmul, hword, hv, Nat.mod_eq_of_lt hfit]
        push_cast
        rfl

/-- An operand that is compared with an age means what it says if and only if
its seconds fit. -/
theorem age_operand_exact_iff (o : AgeOperand) : o.Exact ↔ o.Fits := by
  cases o with
  | integer l => exact age_integer_iff l
  | string s => exact age_string_iff s
  | name s =>
    constructor
    · intro _
      trivial
    · intro _ attName op addr right h
      cases h

/-- 49711 days are taken for less than one. -/
theorem age_49711d_not_exact :
    normalizeAttAge "age" .lt (.string 0 "49711d") = .ok (.val 0 false 63104) ∧
      ¬ (AgeOperand.string "49711d").Exact := by
  refine ⟨normalizeAttAge_string.2 ⟨by decide, by decide, by decide⟩, fun h => ?_⟩
  have hfits := (age_string_iff _).1 h ⟨true, false, 49711, 86400⟩ (by decide)
  revert hfits
  decide

end Evlog.Query
