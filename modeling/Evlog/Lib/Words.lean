/-
Evlog.Lib.Words — machine words as numbers, and two numbers in one word.

The signed reading of a word is its number, less the modulus from the half
on. With these the conversions of C between integer types are arithmetic.

`t ||| d <<< k` is how C code packs a `k`-bit number `d` above the lower
half of a word of `2k` bits. It does so without looking at what the upper
half of `t` held: the two are merged bit by bit. The lower half is always
kept (`and_or_shift`); the number comes back out by an arithmetic shift
exactly when its sign bit is clear and the old upper half added no bit of
its own (`sshiftRight_or_shift_eq_iff`).
-/
import Mathlib.Tactic

namespace Evlog.Lib

/-! ## Signed readings -/

theorem toInt_toInt64 (u : UInt64) :
    u.toInt64.toInt = if u.toNat < 2 ^ 63 then (u.toNat : Int) else u.toNat - 2 ^ 64 := by
  have h : u.toInt64.toInt = (u.toNat : Int).bmod (2 ^ 64) := by
    rw [← Int64.toInt_toBitVec, UInt64.toBitVec_toInt64, BitVec.toInt_eq_toNat_bmod]
    rfl
  have hlt := u.toNat_lt
  rw [h, Int.bmod_def]
  split <;> split <;> omega

theorem toInt_toInt32 (u : UInt32) :
    u.toInt32.toInt = if u.toNat < 2 ^ 31 then (u.toNat : Int) else u.toNat - 2 ^ 32 := by
  have h : u.toInt32.toInt = (u.toNat : Int).bmod (2 ^ 32) := by
    rw [← Int32.toInt_toBitVec, UInt32.toBitVec_toInt32, BitVec.toInt_eq_toNat_bmod]
    rfl
  have hlt := u.toNat_lt
  rw [h, Int.bmod_def]
  split <;> split <;> omega

theorem toInt_toInt16 (u : UInt16) :
    u.toInt16.toInt = if u.toNat < 2 ^ 15 then (u.toNat : Int) else u.toNat - 2 ^ 16 := by
  have h : u.toInt16.toInt = (u.toNat : Int).bmod (2 ^ 16) := by
    rw [← Int16.toInt_toBitVec, UInt16.toBitVec_toInt16, BitVec.toInt_eq_toNat_bmod]
    rfl
  have hlt := u.toNat_lt
  rw [h, Int.bmod_def]
  split <;> split <;> omega

theorem toInt_toInt8 (u : UInt8) :
    u.toInt8.toInt = if u.toNat < 2 ^ 7 then (u.toNat : Int) else u.toNat - 2 ^ 8 := by
  have h : u.toInt8.toInt = (u.toNat : Int).bmod (2 ^ 8) := by
    rw [← Int8.toInt_toBitVec, UInt8.toBitVec_toInt8, BitVec.toInt_eq_toNat_bmod]
    rfl
  have hlt := u.toNat_lt
  rw [h, Int.bmod_def]
  split <;> split <;> omega

theorem toNat_neg (u : UInt64) : (-u).toNat = if u.toNat = 0 then 0 else 2 ^ 64 - u.toNat := by
  have hlt := u.toNat_lt
  rw [UInt64.toNat_neg, show UInt64.size = 2 ^ 64 from rfl]
  split <;> omega

/-! ## Half words -/

section HalfWord

variable {k : Nat}

/-- Bit by bit, what an arithmetic shift takes out of the packed word. -/
theorem getLsbD_sshiftRight_or_shift (t d : BitVec (k + k)) {i : Nat} (hi : i < k + k) :
    ((t ||| d <<< k).sshiftRight k).getLsbD i
      = if i < k then t.getLsbD (k + i) || d.getLsbD i
        else t.getLsbD (k + k - 1) || d.getLsbD (k - 1) := by
  rw [BitVec.getLsbD_sshiftRight, BitVec.msb_eq_getLsbD_last]
  simp only [BitVec.getLsbD_or, BitVec.getLsbD_shiftLeft]
  rcases Nat.lt_or_ge i k with hlt | hge
  · rw [if_pos (by omega), if_pos hlt]
    simp [hi, hlt]
  · have hk : 0 < k := by omega
    rw [if_neg (by omega), if_neg (by omega), show k + k - 1 - k = k - 1 by omega]
    simp [hi, hk, show ¬ k + k - 1 < k by omega]

/-- A `k`-bit number survives in the upper half exactly when it is
non-negative as a half word and the bits already there are among its own. -/
theorem sshiftRight_or_shift_eq_iff (hk : 0 < k) (t d : BitVec (k + k))
    (hd : ∀ i, k ≤ i → d.getLsbD i = false) :
    (t ||| d <<< k).sshiftRight k = d ↔ d.getLsbD (k - 1) = false ∧ (t >>> k) ||| d = d := by
  have hor : ∀ i, ((t >>> k) ||| d).getLsbD i = (t.getLsbD (k + i) || d.getLsbD i) := by
    intro i
    rw [BitVec.getLsbD_or, BitVec.getLsbD_ushiftRight]
  constructor
  · intro h
    have hbit := fun i (hi : i < k + k) =>
      (getLsbD_sshiftRight_or_shift t d hi).symm.trans (by rw [h])
    -- bit `k` of the result is a copy of the sign bit, and `d` has no bit there
    have htop := hbit k (by omega)
    rw [if_neg (by omega), hd k (le_refl k), Bool.or_eq_false_iff] at htop
    refine ⟨htop.2, BitVec.eq_of_getLsbD_eq fun i hi => ?_⟩
    rw [hor]
    rcases Nat.lt_or_ge i k with hlt | hge
    · simpa only [if_pos hlt] using hbit i hi
    · rw [hd i hge, BitVec.getLsbD_of_ge t _ (by omega), Bool.or_false]
  · rintro ⟨hsign, h⟩
    have hbit : ∀ i, (t.getLsbD (k + i) || d.getLsbD i) = d.getLsbD i := by
      intro i
      rw [← hor, h]
    refine BitVec.eq_of_getLsbD_eq fun i hi => ?_
    rw [getLsbD_sshiftRight_or_shift t d hi]
    rcases Nat.lt_or_ge i k with hlt | hge
    · rw [if_pos hlt, hbit]
    · have hlast := hbit (k - 1)
      rw [show k + (k - 1) = k + k - 1 by omega] at hlast
      rw [if_neg (by omega), hlast, hsign, hd i hge]

/-- The lower half is kept, whatever is or-ed in above it. -/
theorem and_or_shift (t d : BitVec (k + k)) :
    (t ||| d <<< k) &&& (BitVec.allOnes k).setWidth (k + k)
      = t &&& (BitVec.allOnes k).setWidth (k + k) := by
  refine BitVec.eq_of_getLsbD_eq fun i hi => ?_
  simp only [BitVec.getLsbD_and, BitVec.getLsbD_or, BitVec.getLsbD_shiftLeft,
    BitVec.getLsbD_setWidth, BitVec.getLsbD_allOnes]
  rcases Nat.lt_or_ge i k with hlt | hge
  · simp [hi, hlt]
  · simp [show ¬ i < k by omega]

end HalfWord

end Evlog.Lib
