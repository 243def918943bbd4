/-
Evlog.Template.BitFieldTheorems — what a bit-field is worth.

`extractDataFromBitField` copies the bytes around a bit-field into an
integer of eight bytes, shifts, and replaces what is above the bit-field;
an assertion says that eight bytes are enough. Here it is as it is in the
source (`extractData`), for a machine of either byte order. The value that
`Populate` has for it is the same (`bitsValue_eq`).

`populateBitField` starts a new storage unit whenever the field does not
go into the one it has, so the bytes are always enough
(`storageUnit_fits`), and what is stored is the integer that the bits are
in the order of the machine. Nothing is stored for an address, which is an
integer type to the compiler.
-/
import Evlog.Lib.BitField
import Evlog.Lib.IntBytes
import Evlog.Template.PositionTheorems

namespace Evlog.Template

open Evlog.Lib

/-! ## `extractDataFromBitField` -/

def signExtendLL (value : BitVec 64) (bfBits : Nat) : BitVec 64 :=
  let extraHighBits := 64 - bfBits
  if extraHighBits ≠ 0 then (value <<< extraHighBits).sshiftRight extraHighBits else value

def zeroExtendLL (value : BitVec 64) (bfBits : Nat) : BitVec 64 :=
  if bfBits < 64 then value &&& ((1 : BitVec 64) <<< bfBits - 1) else value

def shiftDown (order : ByteOrder) (value : BitVec 64) (bfOffset bfBits : Nat) : BitVec 64 :=
  match order with
  | .big => value >>> (64 - (bfOffset % 8 + bfBits))
  | .little => value >>> (bfOffset % 8)

/-- The switch over the types: what is in `ta_value` then, which was
`old`. -/
def storeBits (ty : BaseType) (value : BitVec 64) (bfBits : Nat) (old : Value) : Value :=
  match ty with
  | .char | .short | .int | .long | .wchar | .longlong =>
    .scalar (.int (signExtendLL value bfBits).toInt)
  | .uchar | .ushort | .uint | .ulong | .ulonglong =>
    .scalar (.int (zeroExtendLL value bfBits).toNat)
  | _ => old

/-- `extractDataFromBitField` on a machine of the byte order, or nothing if
the assertion fails. -/
def extractData (order : ByteOrder) (r : Record) (ty : BaseType) (bfStart bfOffset bfBits : Nat)
    (old : Value) : Option Value :=
  let firstByte := bfStart + bfOffset / 8
  let lastByte := bfStart + (bfOffset + bfBits - 1) / 8
  if lastByte - firstByte ≤ 7 then
    let n := lastByte + 1 - firstByte
    let value := BitVec.ofNat 64 (order.nat (r.bytesAt firstByte n ++ List.replicate (8 - n) 0))
    some (storeBits ty (shiftDown order value bfOffset bfBits) bfBits old)
  else none

def Record.from (r : Record) (p : Nat) : Nat → UInt8 := fun j => r.mem (p + j)

def fieldValue (order : ByteOrder) (ty : BaseType) (mem : Nat → UInt8) (off w : Nat) : Int :=
  if ty.isSigned then Int.ofBits (order.fieldBit mem off w)
  else (Nat.ofBits (order.fieldBit mem off w) : Nat)

variable {w base width : Nat}

theorem signExtendLL_eq (value : BitVec 64) (hw : 0 < w) (hle : w ≤ 64) :
    signExtendLL value w = (value.setWidth w).signExtend 64 := by
  have hshift := sshiftRight_shiftLeft value hw hle
  rw [signExtendLL]
  split
  · exact hshift
  · rename_i hnone
    rw [not_not.1 hnone] at hshift
    simpa using hshift

theorem zeroExtendLL_eq (value : BitVec 64) (hle : w ≤ 64) :
    zeroExtendLL value w = (value.setWidth w).setWidth 64 := by
  rw [zeroExtendLL]
  split
  · rename_i hlt
    exact and_mask value hlt
  · rename_i hge
    obtain rfl : w = 64 := by omega
    simp

theorem toInt_extended (hle : w ≤ 64) (field : BitVec w) :
    (field.signExtend 64).toInt = field.toInt ∧ (field.setWidth 64).toNat = field.toNat := by
  refine ⟨BitVec.toInt_signExtend_of_le hle, ?_⟩
  rw [BitVec.toNat_setWidth, Nat.mod_eq_of_lt]
  exact Nat.lt_of_lt_of_le field.isLt (Nat.pow_le_pow_right (by decide) hle)

variable {ty : BaseType}

theorem storeBits_eq (hint : ty.isInteger = true) (haddr : ty ≠ .address) (value : BitVec 64)
    (bfBits : Nat) (old : Value) :
    storeBits ty value bfBits old = .scalar (.int
      (if ty.isSigned then (signExtendLL value bfBits).toInt
      else ((zeroExtendLL value bfBits).toNat : Nat))) := by
  cases ty with
  | address => exact absurd rfl haddr
  | float | double | ldouble | string | wstring => cases hint
  | _ => rfl

section Extract

variable (order : ByteOrder) (r : Record) (bfStart : Nat) {bfOffset bfBits : Nat}

theorem bytesAt_eq_image (first n : Nat) :
    r.bytesAt (bfStart + first) n ++ List.replicate (8 - n) 0 = image (r.from bfStart) first n := by
  simp only [Record.bytesAt, image, Record.from, Nat.add_assoc]

def FitsWord (bfOffset bfBits : Nat) : Prop := (bfOffset + bfBits - 1) / 8 - bfOffset / 8 ≤ 7

theorem extractData_eq {ty : BaseType} (hint : ty.isInteger = true) (haddr : ty ≠ .address)
    (hpos : 0 < bfBits) (hle : bfBits ≤ 64) (hfits : FitsWord bfOffset bfBits) (old : Value) :
    extractData order r ty bfStart bfOffset bfBits old =
      some (.scalar (.int (fieldValue order ty (r.from bfStart) bfOffset bfBits))) := by
  rw [FitsWord] at hfits
  have hassert : bfStart + (bfOffset + bfBits - 1) / 8 - (bfStart + bfOffset / 8) ≤ 7 := by omega
  have hn : bfStart + (bfOffset + bfBits - 1) / 8 + 1 - (bfStart + bfOffset / 8) =
      (bfOffset + bfBits - 1) / 8 + 1 - bfOffset / 8 := by omega
  have hcount : (bfOffset + bfBits - 1) / 8 + 1 - bfOffset / 8 ≤ 8 := by omega
  rw [extractData, if_pos hassert, hn]
  simp only [bytesAt_eq_image]
  generalize hvalue : shiftDown order (BitVec.ofNat 64 (order.nat (image (r.from bfStart)
    (bfOffset / 8) ((bfOffset + bfBits - 1) / 8 + 1 - bfOffset / 8)))) bfOffset bfBits = value
  have hfield : value.setWidth bfBits = order.field (r.from bfStart) bfOffset bfBits := by
    cases order with
    | little => rw [← hvalue]; exact field_little _ hpos hcount
    | big => rw [← hvalue]; exact field_big _ hpos hcount
  have hext := toInt_extended hle (order.field (r.from bfStart) bfOffset bfBits)
  have hsigned : (signExtendLL value bfBits).toInt =
      Int.ofBits (order.fieldBit (r.from bfStart) bfOffset bfBits) := by
    rw [signExtendLL_eq value hpos hle, hfield, hext.1, toInt_field]
  have hunsigned : (zeroExtendLL value bfBits).toNat =
      Nat.ofBits (order.fieldBit (r.from bfStart) bfOffset bfBits) := by
    rw [zeroExtendLL_eq value hle, hfield, hext.2, toNat_field]
  rw [storeBits_eq hint haddr, hsigned, hunsigned, fieldValue]

theorem extractData_address (hfits : FitsWord bfOffset bfBits) (old : Value) :
    extractData order r .address bfStart bfOffset bfBits old = some old := by
  rw [FitsWord] at hfits
  have hassert : bfStart + (bfOffset + bfBits - 1) / 8 - (bfStart + bfOffset / 8) ≤ 7 := by omega
  rw [extractData, if_pos hassert]
  rfl

end Extract

/-! ## `populateBitField` -/

/-- The value that `Populate` has is the integer that the bits are. -/
theorem bitsValue_eq (r : Record) (ty : BaseType) (bfStart : Nat) {bfOffset bfBits : Nat}
    (hpos : 0 < bfBits) :
    bitsValue r ty bfStart bfOffset bfBits =
      fieldValue .little ty (r.from bfStart) bfOffset bfBits := by
  have hn : bfStart + (bfOffset + bfBits - 1) / 8 + 1 - (bfStart + bfOffset / 8) =
      (bfOffset + bfBits - 1) / 8 + 1 - bfOffset / 8 := by omega
  have hbytes : leNat (r.bytesAt (bfStart + bfOffset / 8) ((bfOffset + bfBits - 1) / 8 + 1 - bfOffset / 8)) =
      ByteOrder.nat .little (image (r.from bfStart) (bfOffset / 8)
        ((bfOffset + bfBits - 1) / 8 + 1 - bfOffset / 8)) := by
    rw [← bytesAt_eq_image, ByteOrder.nat, leNat_append, leNat_replicate_zero, Nat.mul_zero]
    rfl
  have hfield : BitVec.ofNat bfBits (leNat (r.bytesAt (bfStart + bfOffset / 8)
      ((bfOffset + bfBits - 1) / 8 + 1 - bfOffset / 8)) / 2 ^ (bfOffset % 8)) =
      ByteOrder.field .little (r.from bfStart) bfOffset bfBits := by
    refine BitVec.eq_of_getLsbD_eq fun i hi => ?_
    have hpos : 8 * (bfOffset / 8) + (i + bfOffset % 8) = bfOffset + i := by omega
    rw [BitVec.getLsbD_ofNat, getLsbD_field _ _ _ _ hi, hbytes, Nat.testBit_div_two_pow,
      testBit_little _ _ (by omega), hpos]
    simp [hi, ByteOrder.fieldBit]
  rw [bitsValue, hn, fieldValue, ← toInt_field, ← toNat_field, ← hfield, BitVec.toInt_ofNat',
    BitVec.toNat_ofNat]

theorem size_le_eight (h : ty.isInteger = true) (arch : Arch) :
    (archTypeInfo arch ty).size ≤ 8 := by
  cases ty <;> cases arch <;> first | decide | cases h

/-- Eight bytes are enough for what is taken from the storage unit. -/
theorem storageUnit_fits {r : Record} (hint : ty.isInteger = true) (hpos : 0 < width)
    (hle : width ≤ 64) (l : Loop) : FitsWord (storageUnit r base ty width l).bfOffset width := by
  have hsize := size_le_eight hint r.arch
  rw [FitsWord, storageUnit]
  split
  · show (0 + width - 1) / 8 - 0 / 8 ≤ 7
    omega
  · rename_i hstays
    simp only [startsUnit, Bool.or_eq_true, decide_eq_true_eq, not_or, Nat.not_lt] at hstays
    have hroom := hstays.1
    omega

/-- What is taken from the storage unit, where its bytes are there. -/
theorem populateBitField_value {r : Record} {l : Loop} (hpos : 0 < width)
    (hdata : bitsToBytes ((storageUnit r base ty width (l.noted base ty width)).bfOffset + width) ≤
      bytesRemaining r (storageUnit r base ty width (l.noted base ty width)).bfStart)
    (name : String) (s : AttState) :
    (populateBitField r base ty width (some name) s l).1.value =
      if ty = .address then s.value
      else .scalar (.int (bitsValue r ty (storageUnit r base ty width (l.noted base ty width)).bfStart
        (storageUnit r base ty width (l.noted base ty width)).bfOffset width)) := by
  rw [populateBitField_eq, if_neg (Nat.ne_of_gt hpos)]
  simp only [if_neg (Nat.not_lt.2 hdata), takeBits, Option.isSome_some, if_true]
  split <;> rfl

/-- The bit-field is stored as the integer that its bits are, by the
function as it is in the source on a machine of either byte order, and by
`populateBitField`. -/
def StoresBits (r : Record) (base : Nat) (ty : BaseType) (width : Nat) (name : String) (l : Loop) :
    Prop :=
  let u := storageUnit r base ty width (l.noted base ty width)
  (∀ order old, extractData order r ty u.bfStart u.bfOffset width old =
      some (.scalar (.int (fieldValue order ty (r.from u.bfStart) u.bfOffset width)))) ∧
    ∀ s, (populateBitField r base ty width (some name) s l).1.value =
      .scalar (.int (fieldValue .little ty (r.from u.bfStart) u.bfOffset width))

/-- The assertion on the storage unit never fails, and the bit-field is
stored as it should be just when its type is not that of addresses. -/
theorem populateBitField_stores_iff {r : Record} {base width : Nat} {ty : BaseType} {name : String}
    {l : Loop} (hacc : Field.accepted true (some name) (.bitField ty width) = true)
    (hdata : bitsToBytes ((storageUnit r base ty width (l.noted base ty width)).bfOffset + width) ≤
      bytesRemaining r (storageUnit r base ty width (l.noted base ty width)).bfStart) :
    (∀ order old, extractData order r ty (storageUnit r base ty width (l.noted base ty width)).bfStart
        (storageUnit r base ty width (l.noted base ty width)).bfOffset width old ≠ none) ∧
      (StoresBits r base ty width name l ↔ ty ≠ .address) := by
  obtain ⟨hint, hsize, hnamed⟩ := Field.accepted_bitField hacc
  have hpos := hnamed rfl
  have hle : width ≤ 64 := by
    have := size_le_eight hint .noArch
    omega
  have hfits : FitsWord (storageUnit r base ty width (l.noted base ty width)).bfOffset width :=
    storageUnit_fits hint hpos hle (l.noted base ty width)
  have hvalue := populateBitField_value hpos hdata name
  by_cases haddr : ty = .address
  · subst haddr
    constructor
    · intro order old
      rw [extractData_address _ _ _ hfits]
      exact Option.some_ne_none _
    · refine iff_of_false ?_ fun h => h rfl
      rintro ⟨-, hstored⟩
      have hzero := hstored .zero
      rw [hvalue, if_pos rfl] at hzero
      cases hzero
  · have hextract := fun order => extractData_eq order r
      (storageUnit r base ty width (l.noted base ty width)).bfStart hint haddr hpos hle hfits
    constructor
    · intro order old
      rw [hextract order old]
      exact Option.some_ne_none _
    · refine iff_of_true ⟨hextract, fun s => ?_⟩ haddr
      rw [hvalue, if_neg haddr, bitsValue_eq _ _ _ hpos]

theorem eight_le_entryMaxlen : 8 ≤ Posix.posixLogEntryMaxlen := by decide

def onesRecord : Record := ⟨0, fun _ => 255, 8, eight_le_entryMaxlen, .x86_64⟩

def startLoop : Loop := ⟨.start, 0, 0, []⟩

/-- `int a:10` -/
theorem tenBits_stored : (∀ order old, extractData order onesRecord .int
        (storageUnit onesRecord 0 .int 10 (startLoop.noted 0 .int 10)).bfStart
        (storageUnit onesRecord 0 .int 10 (startLoop.noted 0 .int 10)).bfOffset 10 old ≠ none) ∧
      (StoresBits onesRecord 0 .int 10 "a" startLoop ↔ BaseType.int ≠ .address) :=
  populateBitField_stores_iff (by decide) (by decide)

/-- `address a:3` is accepted, and nothing is stored for it. -/
theorem addressBits_not_stored : Field.accepted true (some "a") (.bitField .address 3) = true ∧
      (populateBitField onesRecord 0 .address 3 (some "a") .zero startLoop).1 =
        { AttState.zero with attExists := true } ∧
      ¬ StoresBits onesRecord 0 .address 3 "a" startLoop := by
  refine ⟨by decide, by decide, ?_⟩
  rintro ⟨-, hstored⟩
  cases hstored .zero

end Evlog.Template
