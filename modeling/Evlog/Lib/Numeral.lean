/-
Evlog.Lib.Numeral — numbers as `strtoull` and `strtoll` read them.

Both skip spaces, take a sign, and read digits in the base that the number
itself shows, as in C. They differ in what is too large. A number that was
printed in base 10 is read back by both as far as it fits (`strtoull_decimal`,
`strtoll_signedDecimal`), and nothing is left of the text.

`intBytes_leInt` is the same for bytes: the signed reading of some bytes has
these bytes.
-/
import Evlog.Lib.CString
import Evlog.Lib.IntBytes

namespace Evlog.Lib

/-! ## Bytes -/

theorem intBytes_leInt (bs : List UInt8) : intBytes bs.length (leInt bs) = bs := by
  have hlt := leNat_lt bs
  have hcast : ((256 ^ bs.length : Nat) : Int) = 256 ^ bs.length := by norm_cast
  have hmod : leInt bs % 256 ^ bs.length = leNat bs := by
    rw [leInt, ← hcast, Int.bmod_emod, Int.emod_eq_of_lt (by omega) (by exact_mod_cast hlt)]
  rw [intBytes, hmod, Int.toNat_natCast, leBytes_leNat]

theorem leBytes_mod (w n : Nat) : leBytes w (n % 256 ^ w) = leBytes w n := by
  refine leNat_inj (by rw [leBytes_length, leBytes_length]) ?_
  rw [leNat_leBytes, leNat_leBytes, Nat.mod_mod]

theorem leBytes_take {w k : Nat} (h : w ≤ k) (n : Nat) : (leBytes k n).take w = leBytes w n := by
  obtain ⟨l, rfl⟩ := Nat.exists_eq_add_of_le h
  rw [leBytes_add, List.take_left' (leBytes_length w n)]

theorem intBytes_take {w k : Nat} (h : w ≤ k) (v : Int) : (intBytes k v).take w = intBytes w v := by
  rw [intBytes, leBytes_take h, intBytes, ← leBytes_mod]
  congr 1
  have hdvd : (256 ^ w : Int) ∣ 256 ^ k := pow_dvd_pow 256 h
  have hk : 0 ≤ v % 256 ^ k := Int.emod_nonneg _ (by positivity)
  have hcast : ((256 ^ w : Nat) : Int) = 256 ^ w := by norm_cast
  rw [← Int.emod_emod_of_dvd v hdvd, ← hcast, Int.toNat_emod hk (by positivity), Int.toNat_natCast]

/-- A natural number that has room under the signed reading. -/
theorem leInt_intBytes {w n : Nat} (h : 2 * n < 256 ^ w) : leInt (intBytes w n) = n := by
  have hcast : ((256 ^ w : Nat) : Int) = 256 ^ w := by norm_cast
  rw [intBytes, ← hcast, Int.emod_eq_of_lt (by omega) (by omega), Int.toNat_natCast, leInt_leBytes h]

theorem leInt_bounds (bs : List UInt8) :
    -(256 ^ bs.length : Nat) ≤ 2 * leInt bs ∧ 2 * leInt bs < (256 ^ bs.length : Nat) := by
  have hpos : 0 < 256 ^ bs.length := Nat.pow_pos (by decide)
  have hle := @Int.le_bmod (leNat bs) _ hpos
  have hlt := @Int.bmod_lt (leNat bs) _ hpos
  rw [leInt]
  omega

namespace CString

/-! ## Numbers -/

/-- A number as it is written in C, behind spaces: whether it has a minus, what
the digits say, and what is behind them. -/
def numeral (l : List UInt8) : Option (Bool × Nat × List UInt8) :=
  let (negative, t) := sign (l.dropWhile isSpace)
  let (base, ds) := literal t
  if ds = [] then none
  else some (negative, rowValue base ds, t.drop ((if base = 16 then 2 else 0) + ds.length))

/-- What comes of a conversion: the value, what is at `end`, and whether
`errno` is `ERANGE`. -/
structure Converted (α : Type) where
  value : α
  rest : List UInt8
  erange : Bool
  deriving DecidableEq, Repr

/-- `strtoull(s, &end, 0)`. -/
def strtoull (l : List UInt8) : Converted UInt64 :=
  match numeral l with
  | none => ⟨0, l, false⟩
  | some (negative, n, rest) =>
    if n < 2 ^ 64 then ⟨if negative then -UInt64.ofNat n else UInt64.ofNat n, rest, false⟩
    else ⟨0xffffffffffffffff, rest, true⟩

/-- `strtoll(s, &end, 0)`. -/
def strtoll (l : List UInt8) : Converted Int :=
  match numeral l with
  | none => ⟨0, l, false⟩
  | some (negative, n, rest) =>
    let value : Int := if negative then -n else n
    if value < -2 ^ 63 then ⟨-2 ^ 63, rest, true⟩
    else if 2 ^ 63 - 1 < value then ⟨2 ^ 63 - 1, rest, true⟩
    else ⟨value, rest, false⟩

/-! ## What was printed -/

/-- What `%d` prints. -/
def signedDecimal (n : Int) : List UInt8 :=
  if n < 0 then 0x2d :: decimal n.natAbs else decimal n.natAbs

theorem decimal_cons (n : Nat) : ∃ b l, decimal n = b :: l ∧ isDigit b = true := by
  obtain ⟨b, l, hb⟩ := List.exists_cons_of_ne_nil (decimal_ne_nil n)
  exact ⟨b, l, hb, isDigit_of_mem_decimal (n := n) (by simp [hb])⟩

theorem zero_not_mem_signedDecimal (n : Int) : 0 ∉ signedDecimal n := by
  have hdecimal : 0 ∉ decimal n.natAbs := fun h => absurd (isDigit_of_mem_decimal h) (by decide)
  unfold signedDecimal
  split
  · intro hmem
    rcases List.mem_cons.1 hmem with hmem | hmem
    · cases hmem
    · exact hdecimal hmem
  · exact hdecimal

theorem numeral_of_sign {l : List UInt8} {negative : Bool} {n : Nat}
    (h : sign (l.dropWhile isSpace) = (negative, decimal n)) : numeral l = some (negative, n, []) := by
  have hliteral := @literal_decimal n [] (by simp)
  rw [List.append_nil] at hliteral
  simp only [numeral, h, hliteral]
  by_cases hzero : n = 0
  · subst hzero
    rfl
  · simp [hzero, decimal_ne_nil, rowValue_decimal]

theorem numeral_decimal (n : Nat) : numeral (decimal n) = some (false, n, []) := by
  obtain ⟨b, l, hb, hdigit⟩ := decimal_cons n
  obtain ⟨hspace, hminus, hplus⟩ := plain_of_isDigit hdigit
  refine numeral_of_sign ?_
  rw [hb, List.dropWhile_cons_of_neg (by simp [hspace]), sign_of_plain hminus hplus]

theorem numeral_minus (n : Nat) : numeral (0x2d :: decimal n) = some (true, n, []) :=
  numeral_of_sign rfl

theorem strtoull_decimal {n : Nat} (hn : n < 2 ^ 64) : strtoull (decimal n) = ⟨UInt64.ofNat n, [], false⟩ := by
  simp only [strtoull, numeral_decimal, if_pos hn, Bool.false_eq_true, if_false]

theorem numeral_signedDecimal (n : Int) :
    numeral (signedDecimal n) = some (decide (n < 0), n.natAbs, []) := by
  unfold signedDecimal
  by_cases hneg : n < 0
  · rw [if_pos hneg, numeral_minus, decide_eq_true hneg]
  · rw [if_neg hneg, numeral_decimal, decide_eq_false hneg]

theorem strtoll_signedDecimal {n : Int} (hmin : -2 ^ 63 ≤ n) (hmax : n < 2 ^ 63) :
    strtoll (signedDecimal n) = ⟨n, [], false⟩ := by
  have hvalue : (if decide (n < 0) = true then -(n.natAbs : Int) else n.natAbs) = n := by
    simp only [decide_eq_true_eq]
    split <;> omega
  simp only [strtoll, numeral_signedDecimal, hvalue]
  rw [if_neg (by omega), if_neg (by omega)]

end CString

end Evlog.Lib
