/-
Evlog.Lib.BitField — fields of bits in a row of bytes.

A machine counts the bits of its memory from the low end of each byte, if
it keeps the least significant byte of a number first, and from the high
end otherwise. `ByteOrder.field` is the word that some consecutive bits
are, which is a number without a sign or with one.

To get it out, the bytes around it are put into a word of the machine and
shifted (`field_little`, `field_big`), and what is above the field is
replaced: by its sign (`sshiftRight_shiftLeft`) or by zeros (`and_mask`).
-/
import Mathlib.Data.Int.Bitwise
import Mathlib.Tactic
import Evlog.Lib.ByteCodec

namespace Evlog.Lib

def ByteOrder.bit (order : ByteOrder) (mem : Nat → UInt8) (j : Nat) : Bool :=
  match order with
  | .little => (mem (j / 8)).toNat.testBit (j % 8)
  | .big => (mem (j / 8)).toNat.testBit (7 - j % 8)

/-- Of `w` bits from `off` on, the one that counts `2 ^ i`: the machine
whose bits start at the high end has the last of them first. -/
def ByteOrder.fieldBit (order : ByteOrder) (mem : Nat → UInt8) (off w : Nat) (i : Fin w) : Bool :=
  match order with
  | .little => ByteOrder.bit .little mem (off + i)
  | .big => ByteOrder.bit .big mem (off + (w - 1 - i))

def ByteOrder.field (order : ByteOrder) (mem : Nat → UInt8) (off w : Nat) : BitVec w :=
  .ofNat w (Nat.ofBits (order.fieldBit mem off w))

section Field

variable (order : ByteOrder) (mem : Nat → UInt8) (off w : Nat)

theorem toNat_field : (order.field mem off w).toNat = Nat.ofBits (order.fieldBit mem off w) :=
  Nat.mod_eq_of_lt (Nat.ofBits_lt_two_pow _)

theorem toInt_field : (order.field mem off w).toInt = Int.ofBits (order.fieldBit mem off w) := by
  rw [BitVec.toInt, toNat_field, Int.ofBits]
  split
  · rfl
  · rw [Int.subNatNat_eq_coe]

theorem getLsbD_field {i : Nat} (hi : i < w) :
    (order.field mem off w).getLsbD i = order.fieldBit mem off w ⟨i, hi⟩ := by
  rw [BitVec.getLsbD, toNat_field, Nat.testBit_ofBits_lt]

end Field

/-! ## Bytes in a word -/

theorem testBit_leNat (bs : List UInt8) (i : Nat) :
    (leNat bs).testBit i = (bs.getD (i / 8) 0).toNat.testBit (i % 8) := by
  induction bs generalizing i with
  | nil => simp [leNat]
  | cons b bs ih =>
    have hb : b.toNat < 2 ^ 8 := b.toNat_lt
    have hsplit : leNat (b :: bs) = 2 ^ 8 * leNat bs + b.toNat := by
      rw [leNat]
      omega
    rw [hsplit, Nat.testBit_two_pow_mul_add _ hb]
    split
    · rename_i hi
      rw [Nat.div_eq_of_lt hi, Nat.mod_eq_of_lt hi, List.getD_cons_zero]
    · rename_i hi
      obtain ⟨j, rfl⟩ := Nat.exists_eq_add_of_le' (Nat.le_of_not_lt hi)
      rw [Nat.add_sub_cancel, ih, Nat.add_div_right _ (by decide), Nat.add_mod_right,
        List.getD_cons_succ]

/-- The `n` bytes from `first` on, and zeros to make eight. -/
def image (mem : Nat → UInt8) (first n : Nat) : List UInt8 :=
  ((List.range n).map fun i => mem (first + i)) ++ List.replicate (8 - n) 0

section Image

variable (mem : Nat → UInt8) (first : Nat) {n : Nat}

theorem length_image (hn : n ≤ 8) : (image mem first n).length = 8 := by
  simp [image]
  omega

theorem getD_image {k : Nat} (hk : k < n) : (image mem first n).getD k 0 = mem (first + k) := by
  simp [image, List.getD_eq_getElem?_getD, List.getElem?_append_left, hk]

/-- The bits of the word that a machine has for the bytes, if it has the
least significant one first. -/
theorem testBit_little {i : Nat} (hi : i < 8 * n) :
    (ByteOrder.nat .little (image mem first n)).testBit i = ByteOrder.bit .little mem (8 * first + i) := by
  have hdiv : (8 * first + i) / 8 = first + i / 8 := by omega
  have hmod : (8 * first + i) % 8 = i % 8 := by omega
  rw [ByteOrder.nat, testBit_leNat, getD_image mem first (by omega), ByteOrder.bit, hdiv, hmod]

/-- And if it has the most significant one first, the bits from the high
end of the word on. -/
theorem testBit_big (hn : n ≤ 8) {i : Nat} (hi : i < 8 * n) :
    (ByteOrder.nat .big (image mem first n)).testBit (63 - i) = ByteOrder.bit .big mem (8 * first + i) := by
  have hdiv : (8 * first + i) / 8 = first + i / 8 := by omega
  have hmod : (8 * first + i) % 8 = i % 8 := by omega
  have hbyte : (image mem first n).reverse.getD ((63 - i) / 8) 0 = mem (first + i / 8) := by
    have hlen := length_image mem first hn
    have hrev : (image mem first n).reverse.getD ((63 - i) / 8) 0 = (image mem first n).getD (i / 8) 0 := by
      rw [List.getD_eq_getElem?_getD, List.getD_eq_getElem?_getD, List.getElem?_reverse (by omega), hlen]
      congr 2
      omega
    rw [hrev, getD_image mem first (by omega)]
  have hbit : (63 - i) % 8 = 7 - i % 8 := by omega
  rw [ByteOrder.nat, testBit_leNat, hbyte, hbit, ByteOrder.bit, hdiv, hmod]

end Image

/-! ## Getting a field out -/

section Shifted

variable (mem : Nat → UInt8) {off w : Nat} (hw : 0 < w)
  (hn : (off + w - 1) / 8 + 1 - off / 8 ≤ 8)

include hw hn

theorem field_little :
    (BitVec.ofNat 64 (ByteOrder.nat .little (image mem (off / 8) ((off + w - 1) / 8 + 1 - off / 8))) >>>
      (off % 8)).setWidth w = ByteOrder.field .little mem off w := by
  refine BitVec.eq_of_getLsbD_eq fun i hi => ?_
  have hpos : 8 * (off / 8) + (off % 8 + i) = off + i := by omega
  have hlt : off % 8 + i < 64 := by omega
  rw [getLsbD_field _ _ _ _ hi, BitVec.getLsbD_setWidth, BitVec.getLsbD_ushiftRight,
    BitVec.getLsbD_ofNat, testBit_little _ _ (by omega), hpos]
  simp [hi, hlt, ByteOrder.fieldBit]

theorem field_big :
    (BitVec.ofNat 64 (ByteOrder.nat .big (image mem (off / 8) ((off + w - 1) / 8 + 1 - off / 8))) >>>
      (64 - (off % 8 + w))).setWidth w = ByteOrder.field .big mem off w := by
  refine BitVec.eq_of_getLsbD_eq fun i hi => ?_
  have hpos : 8 * (off / 8) + (off % 8 + w - 1 - i) = off + (w - 1 - i) := by omega
  have hfrom : 64 - (off % 8 + w) + i = 63 - (off % 8 + w - 1 - i) := by omega
  have hlt : 63 - (off % 8 + w - 1 - i) < 64 := by omega
  rw [getLsbD_field _ _ _ _ hi, BitVec.getLsbD_setWidth, BitVec.getLsbD_ushiftRight, hfrom,
    BitVec.getLsbD_ofNat, testBit_big _ _ hn (by omega), hpos]
  simp [hi, hlt, ByteOrder.fieldBit]

end Shifted

theorem sshiftRight_shiftLeft (v : BitVec 64) {w : Nat} (hw : 0 < w) (hle : w ≤ 64) :
    (v <<< (64 - w)).sshiftRight (64 - w) = (v.setWidth w).signExtend 64 := by
  refine BitVec.eq_of_getLsbD_eq fun i hi => ?_
  rw [BitVec.getLsbD_sshiftRight, BitVec.getLsbD_signExtend, BitVec.msb_eq_getLsbD_last,
    BitVec.msb_eq_getLsbD_last]
  simp only [BitVec.getLsbD_shiftLeft, BitVec.getLsbD_setWidth]
  by_cases hiw : i < w
  · have hin : 64 - w + i < 64 := by omega
    simp [hiw, hin, hi]
  · have hout : ¬ 64 - w + i < 64 := by omega
    have htop : 63 - (64 - w) = w - 1 := by omega
    have hlast : w - 1 < w := by omega
    have hno : ¬ 63 < 64 - w := by omega
    simp only [hi, hiw, hout, htop, hlast, hno, decide_true, decide_false, Nat.not_le.2 hi,
      Nat.sub_lt (by decide : 0 < 64) Nat.one_pos, Bool.not_false, Bool.true_and, if_false]

theorem and_mask (v : BitVec 64) {w : Nat} (hlt : w < 64) :
    v &&& ((1 : BitVec 64) <<< w - 1) = (v.setWidth w).setWidth 64 := by
  have hpow : 2 ^ w < 2 ^ 64 := Nat.pow_lt_pow_right (by decide) hlt
  have hshift : ((1 : BitVec 64) <<< w).toNat = 2 ^ w := by
    rw [BitVec.toNat_shiftLeft, Nat.shiftLeft_eq]
    show 1 * 2 ^ w % 2 ^ 64 = 2 ^ w
    rw [Nat.one_mul, Nat.mod_eq_of_lt hpow]
  have hle : (1 : BitVec 64) ≤ (1 : BitVec 64) <<< w := by
    show (1 : BitVec 64).toNat ≤ _
    rw [hshift]
    exact Nat.two_pow_pos w
  have hmask : ((1 : BitVec 64) <<< w - 1).toNat = 2 ^ w - 1 := by
    rw [BitVec.toNat_sub_of_le hle, hshift]
    rfl
  apply BitVec.eq_of_toNat_eq
  rw [BitVec.toNat_and, hmask, Nat.and_two_pow_sub_one_eq_mod, BitVec.toNat_setWidth,
    BitVec.toNat_setWidth, Nat.mod_eq_of_lt (Nat.lt_trans (Nat.mod_lt _ (Nat.two_pow_pos w)) hpow)]

end Evlog.Lib
