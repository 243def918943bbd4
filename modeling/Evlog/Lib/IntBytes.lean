/-
Evlog.Lib.IntBytes — integers as bytes of two's complement.

`intBytes w v` is the integer `v` in `w` bytes, least significant byte
first. A rendering that is made wider is filled up with one byte,
`fillByte v`, which only the sign decides (`intBytes_add`); the values
that are nothing but that byte are `0` and `-1`
(`intBytes_eq_fill_iff`). All of it is for values that are in the range of
the width under one of the two readings, signed or unsigned.
-/
import Evlog.Lib.ByteCodec

namespace Evlog.Lib

/-- The two's complement of `v` in `w` bytes. -/
def intBytes (w : Nat) (v : Int) : List UInt8 := leBytes w (v % 256 ^ w).toNat

def fillByte (v : Int) : UInt8 := if v < 0 then 255 else 0

/-- `v` is in the range of `w` bytes, signed or unsigned. -/
def InBytes (w : Nat) (v : Int) : Prop := -256 ^ w < v ∧ v < 256 ^ w

section

variable {w : Nat} {v : Int}

@[simp] theorem intBytes_length (w : Nat) (v : Int) : (intBytes w v).length = w :=
  leBytes_length w _

theorem leNat_intBytes (w : Nat) (v : Int) : (leNat (intBytes w v) : Int) = v % 256 ^ w := by
  have hpos : (0 : Int) < 256 ^ w := by positivity
  have hnn := Int.emod_nonneg v hpos.ne'
  have hlt := Int.emod_lt_of_pos v hpos
  rw [intBytes, leNat_leBytes, Nat.mod_eq_of_lt (by zify; rw [Int.toNat_of_nonneg hnn]; exact hlt),
    Int.toNat_of_nonneg hnn]

/-- Lists of bytes of one length are equal when they denote one number. -/
theorem leNat_inj : ∀ {as bs : List UInt8}, as.length = bs.length → leNat as = leNat bs → as = bs
  | [], [], _, _ => rfl
  | a :: as, b :: bs, hlen, h => by
    have ha := a.toNat_lt
    have hb := b.toNat_lt
    simp only [leNat] at h
    have hhead : a = b := UInt8.toNat.inj (by omega)
    have htail : as = bs := leNat_inj (by simpa using hlen) (by omega)
    rw [hhead, htail]

theorem leNat_replicate_zero (w : Nat) : leNat (List.replicate w 0) = 0 := by
  induction w with
  | zero => rfl
  | succ w ih => simp [List.replicate_succ, leNat, ih]

theorem leNat_replicate_ones (w : Nat) : leNat (List.replicate w 255) + 1 = 256 ^ w := by
  induction w with
  | zero => rfl
  | succ w ih =>
    simp only [List.replicate_succ, leNat, Nat.pow_succ', ← ih]
    show 255 + 256 * _ + 1 = 256 * (_ + 1)
    omega

theorem leNat_append (as bs : List UInt8) :
    leNat (as ++ bs) = leNat as + 256 ^ as.length * leNat bs := by
  induction as with
  | nil => simp [leNat]
  | cons a as ih =>
    simp only [List.cons_append, leNat, ih, List.length_cons, Nat.pow_succ']
    ring

theorem emod_of_inBytes (h : InBytes w v) : v % 256 ^ w = if v < 0 then v + 256 ^ w else v := by
  obtain ⟨hlo, hhi⟩ := h
  split
  · rw [← Int.add_emod_right, Int.emod_eq_of_lt (by omega) (by omega)]
  · exact Int.emod_eq_of_lt (by omega) hhi

theorem InBytes.mono (h : InBytes w v) (k : Nat) : InBytes (w + k) v := by
  have hle : (256 : Int) ^ w ≤ 256 ^ (w + k) := by
    gcongr
    · norm_num
    · exact Nat.le_add_right w k
  obtain ⟨hlo, hhi⟩ := h
  exact ⟨by omega, by omega⟩

theorem intBytes_add (h : InBytes w v) (k : Nat) :
    intBytes (w + k) v = intBytes w v ++ List.replicate k (fillByte v) := by
  refine leNat_inj (by simp) ?_
  zify
  rw [leNat_intBytes, leNat_append, intBytes_length]
  push_cast
  rw [leNat_intBytes, emod_of_inBytes h, emod_of_inBytes (h.mono k), fillByte]
  by_cases hv : v < 0
  · have hones : (leNat (List.replicate k 255) : Int) = 256 ^ k - 1 := by
      have h1 := leNat_replicate_ones k
      zify at h1
      omega
    rw [if_pos hv, if_pos hv, if_pos hv, hones, pow_add]
    ring
  · rw [if_neg hv, if_neg hv, if_neg hv, leNat_replicate_zero]
    simp

theorem intBytes_eq_zeros_iff (h : InBytes w v) : intBytes w v = List.replicate w 0 ↔ v = 0 := by
  have hmod := emod_of_inBytes h
  obtain ⟨hlo, hhi⟩ := h
  constructor
  · intro heq
    have hval := leNat_intBytes w v
    rw [heq, leNat_replicate_zero, hmod] at hval
    split at hval
    · omega
    · omega
  · rintro rfl
    refine leNat_inj (by simp) ?_
    zify
    rw [leNat_intBytes, leNat_replicate_zero]
    simp

/-- Only `0` and `-1` are nothing but the byte they are filled up with. -/
theorem intBytes_eq_fill_iff (h : InBytes w v) :
    intBytes w v = List.replicate w (fillByte v) ↔ v = 0 ∨ v = -1 := by
  by_cases hv : v < 0
  · have hmod := emod_of_inBytes h
    have hones := leNat_replicate_ones w
    rw [fillByte, if_pos hv]
    rw [if_pos hv] at hmod
    zify at hones
    constructor
    · intro heq
      have hval := leNat_intBytes w v
      rw [heq, hmod] at hval
      exact Or.inr (by omega)
    · rintro (rfl | rfl)
      · omega
      · refine leNat_inj (by simp) ?_
        zify
        rw [leNat_intBytes, hmod]
        omega
  · rw [fillByte, if_neg hv, intBytes_eq_zeros_iff h]
    omega

theorem fillByte_eq_zero_iff : fillByte v = 0 ↔ 0 ≤ v := by
  rw [fillByte]
  split
  · simp only [show ¬ (255 : UInt8) = 0 by decide, false_iff]
    omega
  · simp only [true_iff]
    omega

end

end Evlog.Lib
