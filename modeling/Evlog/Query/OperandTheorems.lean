/-
Evlog.Query.OperandTheorems — do integer operands mean what they say?

What `normalizeInteger` makes of a word is `normalizedWord`, and the words
are numbers modulo 2^64. With that the question is one of arithmetic: for
each kind of attribute, each size and each sign there is a bound on the
digits (`IntAtt.Fits`) up to which the operand is the number that stands in
the query, or is rejected.
-/
import Evlog.Query.NormalizeTheorems
import Evlog.Query.Operand
import Evlog.Lib.Words

namespace Evlog.Query

open Evlog.Lib

/-! ## Words -/

/-- The word of a literal: its digits, if a word can hold them. -/
theorem Literal.toNat_ival (l : Literal) : l.ival.toNat = min l.magnitude (2 ^ 64 - 1) := by
  unfold Literal.ival strtoulDigits Literal.magnitude
  dsimp only
  split
  · next h =>
    rw [UInt64.toNat_ofNat_of_lt' h]
    omega
  · next h =>
    have hmax : (0xffffffffffffffff : UInt64).toNat = 2 ^ 64 - 1 := rfl
    rw [hmax]
    omega

/-! ## Comparisons -/

def compareInts (op : Op) (v w : Int) : Bool := numericComparisons op (v = w) (v < w) (w < v)

variable {op : Op}

theorem ne_bitAnd (h : op ∈ standardIntOps) : op ≠ .bitAnd := by
  rintro rfl
  exact absurd h (by decide)

theorem compareSignedInts_eq (h : op ∈ standardIntOps) (a b : Int64) :
    compareSignedInts op a b = compareInts op a.toInt b.toInt := by
  rw [compareSignedInts, if_neg (ne_bitAnd h), compareInts]
  simp only [Int64.toInt_inj, Int64.lt_iff_toInt_lt]

theorem compareUnsignedInts_eq (h : op ∈ standardIntOps) (a b : UInt64) :
    compareUnsignedInts op a b = compareInts op a.toNat b.toNat := by
  rw [compareUnsignedInts, if_neg (ne_bitAnd h), compareInts]
  simp only [Int.natCast_inj, UInt64.toNat_inj, Int.ofNat_lt, UInt64.lt_iff_toNat_lt]

theorem two_pow_bits_le (size : IntSize) : (2 : Int) ^ (size.bits - 1) ≤ 2 ^ 63 := by
  cases size <;> decide

theorem two_pow_size_le (size : IntSize) : (2 : Int) ^ size.bits ≤ 2 ^ 64 := by
  cases size <;> decide

theorem toNat_ofInt {v : Int} (h₀ : 0 ≤ v) (h : v < 2 ^ 64) : ((UInt64.ofInt v).toNat : Int) = v := by
  have hmod : v % 2 ^ 64 = v := Int.emod_eq_of_lt h₀ h
  rw [UInt64.ofInt, hmod, UInt64.toNat_ofNat_of_lt' (by rw [UInt64.size]; omega)]
  omega

/-- The comparison with an operand is the comparison with the number that
it is. -/
theorem IntAtt.compare_eq (att : IntAtt) (h : op ∈ standardIntOps) {v : Int} (hv : att.InRange v)
    (uval : UInt64) : att.compare op v uval = compareInts op v (att.operand uval) := by
  cases att with
  | signed size =>
    obtain ⟨hlo, hhi⟩ := hv
    have hle := two_pow_bits_le size
    rw [IntAtt.compare, compareSignedInts_eq h, IntAtt.operand,
      Int64.toInt_ofInt_of_le (by omega) (by omega)]
  | unsigned size =>
    obtain ⟨hlo, hhi⟩ := hv
    have hle := two_pow_size_le size
    change compareUnsignedInts op (UInt64.ofInt v) uval = compareInts op v uval.toNat
    rw [compareUnsignedInts_eq h, toNat_ofInt hlo (by omega)]
  | templateUnsigned =>
    obtain ⟨hlo, hhi⟩ := hv
    change compareUnsignedInts op (UInt64.ofInt v) uval = compareInts op v uval.toNat
    rw [compareUnsignedInts_eq h, toNat_ofInt hlo hhi]

/-! ## Normalization -/

/-- The word that `normalizeInteger` leaves, if it accepts the operand. -/
def normalizedWord (isSigned : Bool) (size : Nat) (minus : Bool) (uval : UInt64) : Option UInt64 :=
  if !isSigned && minus && uval ≠ 0 then none
  else if outOfRange size minus uval then none
  else if isSigned && forceSignExtend size minus uval && size < 8 then
    some (signExtend size uval).toUInt64
  else some uval

variable {isSigned minus : Bool} {attName : String} {uval u : UInt64} {right : PNode}

theorem normalizeInteger_iff {size : Nat} {a : Nat} :
    normalizeInteger isSigned size attName (.val a minus uval) = .ok right ↔
      ∃ w, normalizedWord isSigned size minus uval = some w ∧
        right = .val a (minus || (isSigned && forceSignExtend size minus uval && size < 8)) w := by
  unfold normalizeInteger normalizedWord
  dsimp only
  split
  · simp [semanticError]
  · split
    · simp [semanticError]
    · split
      · next h => simp [h, eq_comm]
      · next h => simp [h, eq_comm]

theorem normalizeIntegerAtt_iff {size : Nat} {a : Nat} :
    normalizeIntegerAtt isSigned size attName op (.val a minus uval) = .ok right ↔
      op ∈ standardIntOps ∧ ∃ w, normalizedWord isSigned size minus uval = some w ∧
        right = .val a (minus || (isSigned && forceSignExtend size minus uval && size < 8)) w := by
  unfold normalizeIntegerAtt
  constructor
  · intro h
    obtain ⟨r, hr, hv⟩ := except_bind_eq_ok h
    obtain ⟨hop, rfl⟩ := verifyOp_ok hv
    exact ⟨hop, normalizeInteger_iff.1 hr⟩
  · rintro ⟨hop, hw⟩
    rw [normalizeInteger_iff.2 hw]
    exact if_pos hop

/-! ### The operand that is compared -/

/-- What is compared in the end, if the operand is accepted. -/
def IntAtt.accepted (att : IntAtt) (minus : Bool) (uval : UInt64) : Option Int :=
  match att with
  | .signed size => (normalizedWord true size.bytes minus uval).map att.operand
  | .unsigned size => (normalizedWord false size.bytes minus uval).map att.operand
  | .templateUnsigned => (normalizedWord true 8 minus uval).map att.operand

theorem accepted_templateUnsigned (minus : Bool) (u : UInt64) :
    IntAtt.templateUnsigned.accepted minus u = some (u.toNat : Int) := by
  cases minus <;> simp [IntAtt.accepted, normalizedWord, outOfRange, forceSignExtend, IntAtt.operand]

theorem accepted_unsigned_minus (size : IntSize) (u : UInt64) :
    (IntAtt.unsigned size).accepted true u = if u = 0 then some 0 else none := by
  by_cases h : u = 0
  · subst h
    cases size <;> rfl
  · simp [IntAtt.accepted, normalizedWord, h]

theorem outOfRange_plus (size : IntSize) (u : UInt64) :
    outOfRange size.bytes false u = true ↔ 2 ^ size.bits ≤ u.toNat := by
  have hlt := u.toNat_lt
  cases size <;>
    simp [outOfRange, IntSize.bytes, IntSize.bits, UInt64.lt_iff_toNat_lt] <;> omega

theorem outOfRange_minus (size : IntSize) (u : UInt64) : outOfRange size.bytes true u = true ↔
      ¬(-(2 : Int) ^ (size.bits - 1) ≤ u.toInt64.toInt ∧ u.toInt64.toInt < 2 ^ (size.bits - 1)) := by
  have hlo := u.toInt64.le_toInt
  have hhi := u.toInt64.toInt_lt
  cases size <;>
    simp [outOfRange, IntSize.bytes, IntSize.bits, Int64.lt_iff_toInt_lt] <;> omega

theorem forceSignExtend_plus (size : IntSize) (u : UInt64) :
    (forceSignExtend size.bytes false u && decide (size.bytes < 8)) = true ↔
      size ≠ .long ∧ 2 ^ (size.bits - 1) ≤ u.toNat := by
  cases size <;>
    simp [forceSignExtend, IntSize.bytes, IntSize.bits, UInt64.lt_iff_toNat_lt] <;> omega

/-- The sign is extended from the highest bit of the attribute. -/
theorem toInt_signExtend {size : IntSize} (hl : size ≠ .long) (hlo : 2 ^ (size.bits - 1) ≤ u.toNat)
    (hhi : u.toNat < 2 ^ size.bits) :
    (signExtend size.bytes u).toInt = (u.toNat : Int) - 2 ^ size.bits := by
  cases size with
  | long => exact absurd rfl hl
  | char =>
    simp only [IntSize.bits, IntSize.bytes, Nat.reduceMul, Nat.reduceSub, Nat.reducePow] at hlo hhi ⊢
    rw [signExtend, if_neg (by decide), if_neg (by decide), if_pos rfl, Int8.toInt_toInt64,
      toInt_toInt8, UInt64.toNat_toUInt8, Nat.mod_eq_of_lt hhi, if_neg (by omega)]
  | short =>
    simp only [IntSize.bits, IntSize.bytes, Nat.reduceMul, Nat.reduceSub, Nat.reducePow] at hlo hhi ⊢
    rw [signExtend, if_neg (by decide), if_pos rfl, Int16.toInt_toInt64,
      toInt_toInt16, UInt64.toNat_toUInt16, Nat.mod_eq_of_lt hhi, if_neg (by omega)]
  | int =>
    simp only [IntSize.bits, IntSize.bytes, Nat.reduceMul, Nat.reduceSub, Nat.reducePow] at hlo hhi ⊢
    rw [signExtend, if_pos rfl, Int32.toInt_toInt64,
      toInt_toInt32, UInt64.toNat_toUInt32, Nat.mod_eq_of_lt hhi, if_neg (by omega)]

theorem accepted_unsigned_plus (size : IntSize) (u : UInt64) :
    (IntAtt.unsigned size).accepted false u
      = if u.toNat < 2 ^ size.bits then some (u.toNat : Int) else none := by
  rw [IntAtt.accepted, normalizedWord, if_neg (by simp)]
  by_cases h : u.toNat < 2 ^ size.bits
  · rw [if_neg (fun ho => absurd ((outOfRange_plus size u).1 ho) (by omega)), if_neg (by simp), if_pos h]
    rfl
  · rw [if_pos ((outOfRange_plus size u).2 (by omega)), if_neg h]
    rfl

theorem accepted_signed_plus (size : IntSize) (u : UInt64) : (IntAtt.signed size).accepted false u
      = if u.toNat < 2 ^ size.bits then
          some (if u.toNat < 2 ^ (size.bits - 1) then (u.toNat : Int) else u.toNat - 2 ^ size.bits)
        else none := by
  rw [IntAtt.accepted, normalizedWord, if_neg (by simp), Bool.true_and]
  by_cases h : u.toNat < 2 ^ size.bits
  · rw [if_neg (fun ho => absurd ((outOfRange_plus size u).1 ho) (by omega)), if_pos h]
    by_cases hs : u.toNat < 2 ^ (size.bits - 1)
    · rw [if_neg (fun hf => absurd ((forceSignExtend_plus size u).1 hf).2 (by omega)), if_pos hs]
      have hle : (2 : Nat) ^ (size.bits - 1) ≤ 2 ^ 63 := by exact_mod_cast two_pow_bits_le size
      simp only [Option.map_some, IntAtt.operand]
      rw [toInt_toInt64, if_pos (by omega)]
    · rw [if_neg hs]
      by_cases hl : size = .long
      · subst hl
        rw [if_neg (fun hf => ((forceSignExtend_plus .long u).1 hf).1 rfl)]
        simp only [Option.map_some, IntAtt.operand]
        rw [toInt_toInt64, if_neg (by simpa [IntSize.bits, IntSize.bytes] using hs)]
        rfl
      · rw [if_pos ((forceSignExtend_plus size u).2 ⟨hl, by omega⟩)]
        simp only [Option.map_some, IntAtt.operand]
        rw [Int64.toInt64_toUInt64, toInt_signExtend hl (by omega) h]
  · rw [if_pos ((outOfRange_plus size u).2 (by omega)), if_neg h]
    rfl

theorem accepted_signed_minus (size : IntSize) (u : UInt64) : (IntAtt.signed size).accepted true u
      = if -(2 : Int) ^ (size.bits - 1) ≤ u.toInt64.toInt ∧ u.toInt64.toInt < 2 ^ (size.bits - 1) then
          some u.toInt64.toInt else none := by
  rw [IntAtt.accepted, normalizedWord, if_neg (by simp)]
  split
  · next h => rw [if_neg ((outOfRange_minus size u).1 h), Option.map_none]
  · next h =>
    rw [if_neg (by simp [forceSignExtend]), if_pos (by simpa [outOfRange_minus] using h), Option.map_some]
    rfl

/-! ## Integer operands -/

/-- What the literal means for the attribute: the number that it is. For a
signed attribute, what has its highest bit set is meant to be negative. -/
def IntAtt.meaning (att : IntAtt) (l : Literal) : Int :=
  match att with
  | .signed size =>
    if l.minus = false ∧ (2 : Int) ^ (size.bits - 1) ≤ l.value ∧ l.value < 2 ^ size.bits then
      l.value - 2 ^ size.bits
    else l.value
  | _ => l.value

/-- A comparison with the literal is rejected, or the operand is what the
literal means, and then the comparison is that of numbers. -/
def IntAtt.Means (att : IntAtt) (l : Literal) : Prop :=
  ∀ attName op addr right, att.normalize attName op (l.node addr) = .ok right →
    ∃ minus uval, right = .val addr minus uval ∧ att.operand uval = att.meaning l ∧
      ∀ v, att.InRange v → att.compare op v uval = compareInts op v (att.meaning l)

def IntAtt.Fits (att : IntAtt) (l : Literal) : Prop :=
  match att with
  | .signed size =>
    if l.minus then l.magnitude ≤ 2 ^ 64 - 2 ^ (size.bits - 1)
    else size = .long → l.magnitude < 2 ^ 64
  | .unsigned size => l.minus = false → size = .long → l.magnitude < 2 ^ 64
  | .templateUnsigned => if l.minus then l.magnitude = 0 else l.magnitude < 2 ^ 64

def Literal.word (l : Literal) : UInt64 := if l.minus then -l.ival else l.ival

theorem Literal.node_eq (l : Literal) (addr : Nat) : l.node addr = .val addr l.minus l.word := by
  unfold Literal.node Literal.word
  split
  · next h => rw [h]
  · next h => rw [Bool.not_eq_true] at h; rw [h]

theorem Literal.toNat_word (l : Literal) : l.word.toNat =
      if l.minus ∧ l.magnitude ≠ 0 then 2 ^ 64 - min l.magnitude (2 ^ 64 - 1)
      else min l.magnitude (2 ^ 64 - 1) := by
  unfold Literal.word
  cases l.minus with
  | false => simpa using l.toNat_ival
  | true =>
    simp only [if_true, true_and]
    rw [toNat_neg, l.toNat_ival]
    split <;> split <;> omega

theorem normalize_iff (att : IntAtt) (attName : String) (op : Op) (addr : Nat) (l : Literal)
    (right : PNode) :
    att.normalize attName op (l.node addr) = .ok right →
      op ∈ standardIntOps ∧ ∃ minus w, right = .val addr minus w ∧
        att.accepted l.minus l.word = some (att.operand w) := by
  intro h
  rw [l.node_eq] at h
  cases att <;>
  · obtain ⟨hop, w, hw, rfl⟩ := normalizeIntegerAtt_iff.1 h
    exact ⟨hop, _, w, rfl, by rw [IntAtt.accepted, hw, Option.map_some]⟩

variable {att : IntAtt}

theorem normalize_of_accepted {l : Literal} {n : Int} (h : att.accepted l.minus l.word = some n) :
    ∃ minus w, att.normalize "" .eq (l.node 0) = .ok (.val 0 minus w) ∧ att.operand w = n := by
  have hop : Op.eq ∈ standardIntOps := by decide
  rw [l.node_eq]
  cases att <;>
  · obtain ⟨w, hw, rfl⟩ := Option.map_eq_some_iff.1 h
    exact ⟨_, w, normalizeIntegerAtt_iff.2 ⟨hop, w, hw, rfl⟩, rfl⟩

theorem means_iff (att : IntAtt) (l : Literal) :
    att.Means l ↔ ∀ n, att.accepted l.minus l.word = some n → n = att.meaning l := by
  constructor
  · intro h n hn
    obtain ⟨minus, w, hnorm, rfl⟩ := normalize_of_accepted hn
    obtain ⟨_, w', heq, hmean, _⟩ := h _ _ _ _ hnorm
    cases heq
    exact hmean
  · intro h attName op addr right hr
    obtain ⟨hop, minus, w, rfl, hw⟩ := normalize_iff att attName op addr l right hr
    refine ⟨minus, w, rfl, h _ hw, fun v hv => ?_⟩
    rw [att.compare_eq hop hv, h _ hw]

theorem means_unsigned (size : IntSize) (l : Literal) :
    (IntAtt.unsigned size).Means l ↔ (IntAtt.unsigned size).Fits l := by
  have hw := l.toNat_word
  rw [means_iff, IntAtt.Fits]
  cases hm : l.minus with
  | true =>
    simp only [hm, true_and] at hw
    simp only [accepted_unsigned_minus, IntAtt.meaning, Literal.value, hm, if_true]
    refine ⟨fun _ h => (Bool.noConfusion h), fun _ n hn => ?_⟩
    split at hn
    · next h0 =>
      rw [h0] at hw
      have hz : l.magnitude = 0 := by
        by_contra hne
        rw [if_pos hne] at hw
        simp at hw
        omega
      cases hn
      omega
    · cases hn
  | false =>
    simp only [hm, Bool.false_eq_true, false_and, if_false] at hw
    simp only [accepted_unsigned_plus, IntAtt.meaning, Literal.value, hm, Bool.false_eq_true, if_false,
      true_imp_iff]
    rw [hw]
    constructor
    · rintro h rfl
      have := h _ (if_pos (by simp [IntSize.bits, IntSize.bytes]))
      omega
    · intro h n hn
      split at hn
      · next hlt =>
        cases hn
        by_cases hl : size = .long
        · have := h hl
          omega
        · have hle : (2 : Nat) ^ size.bits ≤ 2 ^ 32 := by
            cases size <;> first | exact absurd rfl hl | decide
          omega
      · cases hn

theorem means_templateUnsigned (l : Literal) :
    IntAtt.templateUnsigned.Means l ↔ IntAtt.templateUnsigned.Fits l := by
  have hw := l.toNat_word
  rw [means_iff, IntAtt.Fits, accepted_templateUnsigned, hw]
  simp only [IntAtt.meaning, Literal.value, Option.some.injEq, forall_eq']
  cases l.minus with
  | true =>
    simp only [if_true, true_and]
    split <;> omega
  | false =>
    simp only [Bool.false_eq_true, if_false, false_and]
    omega

theorem accepted_imp_iff {c : Prop} [Decidable c] {s m : Int} :
    (∀ n, (if c then some s else none) = some n → n = m) ↔ (c → s = m) := by
  constructor
  · intro h hc
    exact h s (if_pos hc)
  · intro h n hn
    split at hn
    · next hc =>
      cases hn
      exact h hc
    · cases hn

theorem means_signed (size : IntSize) (l : Literal) :
    (IntAtt.signed size).Means l ↔ (IntAtt.signed size).Fits l := by
  have hw := l.toNat_word
  have hbits : (2 : Nat) ^ (size.bits - 1) ≤ 2 ^ 63 := by exact_mod_cast two_pow_bits_le size
  have hlow : 2 ^ 7 ≤ (2 : Nat) ^ (size.bits - 1) := by cases size <;> decide
  have hcast : (2 : Int) ^ (size.bits - 1) = ((2 ^ (size.bits - 1) : Nat) : Int) := by push_cast; rfl
  rw [means_iff, IntAtt.Fits]
  cases hm : l.minus with
  | true =>
    simp only [hm, true_and] at hw
    simp only [accepted_signed_minus, IntAtt.meaning, Literal.value, hm, if_true, Bool.true_eq_false,
      false_and, if_false, accepted_imp_iff, toInt_toInt64, hcast]
    generalize (2 : Nat) ^ (size.bits - 1) = b at *
    rw [Nat.le_sub_iff_add_le (by omega)]
    by_cases h0 : l.magnitude = 0
    · rw [if_neg (by simpa using h0)] at hw
      rw [if_pos (by omega)]
      omega
    · rw [if_pos h0] at hw
      split <;> omega
  | false =>
    simp only [hm, Bool.false_eq_true, false_and, if_false] at hw
    have hdouble : (2 : Nat) ^ size.bits = 2 * 2 ^ (size.bits - 1) := by
      cases size <;> rfl
    have hdouble' : (2 : Int) ^ size.bits = 2 * ((2 ^ (size.bits - 1) : Nat) : Int) := by
      rw [← hcast]
      cases size <;> rfl
    have hlong : size = .long ↔ (2 : Nat) ^ (size.bits - 1) = 2 ^ 63 := by
      cases size <;> decide
    simp only [accepted_signed_plus, IntAtt.meaning, Literal.value, hm, Bool.false_eq_true, if_false,
      true_and, accepted_imp_iff, hcast, hdouble, hdouble', hlong]
    generalize (2 : Nat) ^ (size.bits - 1) = b at *
    split <;> split <;> omega

theorem means_of_fits {att : IntAtt} {l : Literal} (h : att.Fits l) : att.Means l := by
  cases att with
  | signed size => exact (means_signed size l).2 h
  | unsigned size => exact (means_unsigned size l).2 h
  | templateUnsigned => exact (means_templateUnsigned l).2 h

/-- The operand is what the literal means, or it is rejected, exactly where
the digits are not too many. -/
theorem integer_operand_means_iff (att : IntAtt) (l : Literal) : att.Means l ↔ att.Fits l := by
  cases att with
  | signed size => exact means_signed size l
  | unsigned size => exact means_unsigned size l
  | templateUnsigned => exact means_templateUnsigned l

/-- `18446744073709551616`. -/
def twoToThe64 : Literal := ⟨false, "18446744073709551616".toList, by decide⟩

/-- A size that no word can hold is taken for the largest one there is. -/
theorem twoToThe64_not_means : ¬ (IntAtt.unsigned .long).Means twoToThe64 := by
  intro h
  have hfits := (means_unsigned .long twoToThe64).1 h rfl rfl
  exact absurd hfits (by decide)

/-! ### The attributes there are -/

variable {sel : Selector}

theorem normalizeStdComparison_intAtt {sys : System} (h : sel.intAtt = some att) (attName : String)
    (op : Op) (l : Literal) (addr : Nat) :
    normalizeStdComparison sys sel attName op (l.node addr) = att.normalize attName op (l.node addr) := by
  rw [l.node_eq]
  cases sel <;> first | cases h; rfl | cases h

theorem accepted_inRange {n : Int} (h : att.accepted minus u = some n) : att.InRange n := by
  have hlt := u.toNat_lt
  cases att with
  | templateUnsigned =>
    rw [accepted_templateUnsigned] at h
    cases h
    exact ⟨by omega, by omega⟩
  | unsigned size =>
    have hpos : (0 : Int) < 2 ^ size.bits := by positivity
    cases minus with
    | true =>
      rw [accepted_unsigned_minus] at h
      split at h
      · cases h
        exact ⟨le_refl _, hpos⟩
      · cases h
    | false =>
      rw [accepted_unsigned_plus] at h
      split at h
      · next hu =>
        cases h
        exact ⟨by omega, by exact_mod_cast hu⟩
      · cases h
  | signed size =>
    cases minus with
    | true =>
      rw [accepted_signed_minus] at h
      split at h
      · next hu =>
        cases h
        exact hu
      · cases h
    | false =>
      rw [accepted_signed_plus] at h
      split at h
      · next hu =>
        cases h
        have hdouble : (2 : Nat) ^ size.bits = 2 * 2 ^ (size.bits - 1) := by cases size <;> rfl
        have hdouble' : (2 : Int) ^ size.bits = 2 * 2 ^ (size.bits - 1) := by cases size <;> rfl
        have hcast : (2 : Int) ^ (size.bits - 1) = ((2 ^ (size.bits - 1) : Nat) : Int) := by push_cast; rfl
        rw [IntAtt.InRange, hdouble', hcast]
        split <;> constructor <;> omega
      · cases h

theorem toNat_toUInt64_toInt64 {n : Int32} (h : 0 ≤ n.toInt) : (n.toInt64.toUInt64.toNat : Int) = n.toInt := by
  have hn := toInt_toInt64 n.toInt64.toUInt64
  rw [Int64.toInt64_toUInt64, Int32.toInt_toInt64] at hn
  have hlt := n.toInt64.toUInt64.toNat_lt
  split at hn <;> omega

/-- The values of a record are compared as the numbers that they are. -/
theorem compareStdWithVal_eq {inp : EvalInput} (h : sel.intAtt = some att)
    (hop : op ∈ standardIntOps) (hv : att.InRange (stdIntValue inp sel))
    (hu : att.InRange (att.operand uval)) :
    compareStdWithVal inp op uval sel = compareInts op (stdIntValue inp sel) (att.operand uval) := by
  cases sel with
  | recid =>
    cases h
    rw [compareStdWithVal, compareUnsignedInts_eq hop, toNat_toUInt64_toInt64 hv.1]
    rfl
  | format =>
    cases h
    rw [compareStdWithVal, compareSignedInts_eq hop, Int32.toInt_toInt64, toInt_toInt64,
      if_pos (by have h2 := hu.2; simp [IntAtt.operand, IntSize.bits, IntSize.bytes] at h2; omega)]
    rfl
  | size | thread =>
    cases h
    exact compareUnsignedInts_eq hop _ _
  | facility | uid | gid =>
    cases h
    rw [compareStdWithVal, compareUnsignedInts_eq hop, UInt32.toNat_toUInt64]
    rfl
  | eventType | pid | pgrp | processor =>
    cases h
    rw [compareStdWithVal, compareSignedInts_eq hop, Int32.toInt_toInt64]
    rfl
  | time =>
    cases h
    exact compareSignedInts_eq hop _ _
  | _ => cases h

/-- A comparison with an attribute of the record, from the literal to the
result. -/
theorem evaluateStdComparison_literal {inp : EvalInput} {l : Literal} (h : sel.intAtt = some att)
    (hf : att.Fits l) (hv : att.InRange (stdIntValue inp sel)) {addr : Nat}
    (hr : normalizeStdComparison inp.sys sel attName op (l.node addr) = .ok right) :
    evaluateStdComparison inp op sel right
      = some (compareInts op (stdIntValue inp sel) (att.meaning l)) := by
  rw [normalizeStdComparison_intAtt h] at hr
  obtain ⟨hop, minus, w, rfl, hw⟩ := normalize_iff att attName op addr l right hr
  have hmean := (means_iff att l).1 (means_of_fits hf) _ hw
  rw [evaluateStdComparison, compareStdWithVal_eq h hop hv (accepted_inRange hw), hmean]

def five : Literal := ⟨false, ['5'], by decide⟩

/-- `pid = 5`, and the record of process 0. -/
theorem evaluateStdComparison_literal_five :
    normalizeStdComparison (recordWithId 1).sys .pid "pid" .eq (five.node 0) = .ok (.val 0 false 5) ∧
      evaluateStdComparison (recordWithId 1) .eq .pid (.val 0 false 5) = some (compareInts .eq 0 5) := by
  have hr : normalizeStdComparison (recordWithId 1).sys .pid "pid" .eq (five.node 0) =
      .ok (.val 0 false 5) := by decide
  have hfits : (IntAtt.signed .int).Fits five := fun h => IntSize.noConfusion h
  have hv : (IntAtt.signed .int).InRange (stdIntValue (recordWithId 1) .pid) := ⟨by decide, by decide⟩
  exact ⟨hr, evaluateStdComparison_literal rfl hfits hv hr⟩

end Evlog.Query
