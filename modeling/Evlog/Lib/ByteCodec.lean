/-
Evlog.Lib.ByteCodec — fixed-width little-endian fields over byte lists.

`leBytes` renders a field and `takeLE` consumes one from the front of a byte
list; the second undoes the first and leaves what follows untouched
(`takeLE_leBytes_append`), also at the machine integer types a structure is
made of. On a list that is too short `takeLE` reads what is there.

A machine keeps an integer of several bytes in memory with its least or with
its most significant byte first. What it has stored it reads back
(`ByteOrder.nat_bytes`). `beBytes` is the order in which a network carries an
integer; a wide field is there the fields of its high and of its low bytes,
in this order (`beBytes_add`).
-/
import Mathlib.Tactic

namespace Evlog.Lib

/-- The `w` low bytes of `n`, least significant byte first. -/
def leBytes : Nat → Nat → List UInt8
  | 0, _ => []
  | w + 1, n => UInt8.ofNat n :: leBytes w (n / 256)

def leNat : List UInt8 → Nat
  | [] => 0
  | b :: bs => b.toNat + 256 * leNat bs

/-- Consume a `w`-byte little-endian field: its value and what follows. -/
def takeLE (w : Nat) (bs : List UInt8) : Nat × List UInt8 :=
  (leNat (bs.take w), bs.drop w)

@[simp] theorem leBytes_length (w n : Nat) : (leBytes w n).length = w := by
  induction w generalizing n with
  | zero => rfl
  | succ w ih => simp [leBytes, ih]

/-- A field is the fields of its low and of its high bytes. -/
theorem leBytes_add (v w n : Nat) : leBytes (v + w) n = leBytes v n ++ leBytes w (n / 256 ^ v) := by
  induction v generalizing n with
  | zero => simp [leBytes]
  | succ v ih => rw [Nat.succ_add, leBytes, leBytes, ih, Nat.div_div_eq_div_mul, ← Nat.pow_succ',
      List.cons_append]

/-- Rendering a number and reading it back truncates it to the width. -/
theorem leNat_leBytes (w n : Nat) : leNat (leBytes w n) = n % 256 ^ w := by
  induction w generalizing n with
  | zero => simp [leBytes, leNat, Nat.mod_one]
  | succ w ih =>
    rw [leBytes, leNat, ih, Nat.pow_succ', Nat.mod_mul]
    simp

theorem leNat_lt (bs : List UInt8) : leNat bs < 256 ^ bs.length := by
  induction bs with
  | nil => simp [leNat]
  | cons b bs ih =>
    have hb := b.toNat_lt
    rw [leNat, List.length_cons, Nat.pow_succ']
    omega

theorem leBytes_leNat (bs : List UInt8) : leBytes bs.length (leNat bs) = bs := by
  induction bs with
  | nil => rfl
  | cons b bs ih =>
    have hb := b.toNat_lt
    have hlow : UInt8.ofNat (b.toNat + 256 * leNat bs) = b := by
      rw [← UInt8.toNat_inj, UInt8.toNat_ofNat']
      omega
    rw [List.length_cons, leNat, leBytes, hlow]
    rw [show (b.toNat + 256 * leNat bs) / 256 = leNat bs by omega, ih]

theorem takeLE_lt (w : Nat) (bs : List UInt8) : (takeLE w bs).1 < 256 ^ w := by
  refine (leNat_lt _).trans_le (Nat.pow_le_pow_right (by decide) ?_)
  exact List.length_take_le w bs

/-- Consuming a rendered field yields its value and the bytes after it. -/
@[simp] theorem takeLE_leBytes_append (w n : Nat) (rest : List UInt8) :
    takeLE w (leBytes w n ++ rest) = (n % 256 ^ w, rest) := by
  simp only [takeLE]
  rw [List.take_left' (leBytes_length w n), List.drop_left' (leBytes_length w n), leNat_leBytes]

/-! ## The machine integer types -/

theorem uint32_ofNat_mod (x : UInt32) : UInt32.ofNat (x.toNat % 256 ^ 4) = x := by
  rw [Nat.mod_eq_of_lt (by simpa using x.toNat_lt), UInt32.ofNat_toNat]

theorem uint64_ofNat_mod (x : UInt64) : UInt64.ofNat (x.toNat % 256 ^ 8) = x := by
  rw [Nat.mod_eq_of_lt (by simpa using x.toNat_lt), UInt64.ofNat_toNat]

theorem toUInt64_uint32_ofNat {n : Nat} (h : n < 256 ^ 4) :
    (UInt32.ofNat n).toUInt64 = UInt64.ofNat n := by
  refine UInt64.toNat.inj ?_
  rw [UInt32.toNat_toUInt64, UInt32.toNat_ofNat_of_lt' h, UInt64.toNat_ofNat_of_lt' (h.trans (by decide))]

/-- A length below `2^31` survives the way through `int`. -/
theorem toInt_narrow {len : UInt64} (h : len.toNat < 2 ^ 31) :
    len.toUInt32.toInt32.toInt = len.toNat := by
  have : len.toUInt32.toInt32.toInt = ((len.toNat : Int)).bmod 4294967296 := by
    change len.toUInt32.toInt32.toBitVec.toInt = _
    simp
  rw [this, Int.bmod_eq_of_le (by omega) (by omega)]

/-! ## Signed reading -/

/-- The two's complement reading of a little-endian byte list. -/
def leInt (bs : List UInt8) : Int := Int.bmod (leNat bs) (256 ^ bs.length)

/-- A small non-negative number keeps its value under the signed reading. -/
theorem leInt_leBytes {w n : Nat} (h : 2 * n < 256 ^ w) : leInt (leBytes w n) = n := by
  rw [leInt, leBytes_length, leNat_leBytes, Nat.mod_eq_of_lt (by omega)]
  rw [Int.bmod_eq_of_le (by omega) (by omega)]

/-- The `w` low bytes of `n`, most significant byte first. -/
def beBytes (w n : Nat) : List UInt8 := (leBytes w n).reverse

@[simp] theorem beBytes_length (w n : Nat) : (beBytes w n).length = w := by
  rw [beBytes, List.length_reverse, leBytes_length]

theorem beBytes_add (v w n : Nat) : beBytes (v + w) n = beBytes w (n / 256 ^ v) ++ beBytes v n := by
  rw [beBytes, leBytes_add, List.reverse_append, beBytes, beBytes]

theorem beBytes_mod (w n : Nat) : beBytes w (n % 256 ^ w) = beBytes w n := by
  have h := leBytes_leNat (leBytes w n)
  rw [leBytes_length, leNat_leBytes] at h
  rw [beBytes, h, beBytes]

/-- How a machine stores an integer. -/
inductive ByteOrder where
  | little
  | big
  deriving DecidableEq, Repr

namespace ByteOrder

/-- The `w` low bytes of `n` as they lie in memory. -/
def bytes : ByteOrder → Nat → Nat → List UInt8
  | .little => leBytes
  | .big => beBytes

def nat : ByteOrder → List UInt8 → Nat
  | .little, bs => leNat bs
  | .big, bs => leNat bs.reverse

/-- Consume a field of `w` bytes. -/
def take (order : ByteOrder) (w : Nat) (bs : List UInt8) : Nat × List UInt8 :=
  (order.nat (bs.take w), bs.drop w)

variable (order : ByteOrder) (w : Nat)

theorem nat_bytes (n : Nat) : order.nat (order.bytes w n) = n % 256 ^ w := by
  cases order with
  | little => exact leNat_leBytes w n
  | big => rw [nat, bytes, beBytes, List.reverse_reverse, leNat_leBytes]

/-- Bytes are those of the number that the machine reads. -/
theorem bytes_nat (bs : List UInt8) : order.bytes bs.length (order.nat bs) = bs := by
  cases order with
  | little => exact leBytes_leNat bs
  | big =>
    have h := leBytes_leNat bs.reverse
    rw [List.length_reverse] at h
    rw [nat, bytes, beBytes, h, List.reverse_reverse]

theorem nat_lt (bs : List UInt8) : order.nat bs < 256 ^ bs.length := by
  cases order with
  | little => exact leNat_lt bs
  | big =>
    have h := leNat_lt bs.reverse
    rwa [List.length_reverse] at h

/-- Twice from memory to a number and to network order is the number again. -/
theorem nat_beBytes_nat (n : Nat) : order.nat (beBytes w (order.nat (beBytes w n))) = n % 256 ^ w := by
  cases order with
  | little =>
    have h := leBytes_leNat (beBytes w n)
    rw [beBytes_length] at h
    rw [nat, nat, beBytes, h, beBytes, List.reverse_reverse, leNat_leBytes]
  | big =>
    have h := nat_bytes .big w n
    rw [bytes] at h
    rw [h, beBytes_mod, h]

variable {w}

@[simp] theorem take_append {field : List UInt8} (h : field.length = w) (rest : List UInt8) :
    order.take w (field ++ rest) = (order.nat field, rest) := by
  rw [take, List.take_left' h, List.drop_left' h]

end ByteOrder

end Evlog.Lib
