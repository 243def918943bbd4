/-
Evlog.Template.Cursor — where the members of an aligned struct leave the
loop.

`populateBitField` takes a bit-field from a storage unit that need not be
one of the compiler's. The unit starts with the last member that is no
bit-field, or where a bit-field has started it, and is moved on after 32
bits, from `pn_next`. `Cursor.Follows` says when the bit-field is put where
it belongs all the same, and what comes next, too.
-/
import Evlog.Lib.StructLayout
import Evlog.Template.Populate

namespace Evlog.Template

open Evlog.Lib

/-- The bit-field would cross a multiple of the size of its type. -/
def crosses (size width pos : Nat) : Prop := pos / (8 * size) ≠ (pos + width - 1) / (8 * size)

instance (size width pos : Nat) : Decidable (crosses size width pos) := by
  unfold crosses
  infer_instance

/-- Where the loop is between two members, counted from the start of the
struct: the next bit, the byte that the storage unit starts with, and
`pn_next`. -/
structure Cursor where
  pos : Nat
  unit : Nat
  next : Nat
  deriving DecidableEq

namespace Cursor

def start : Cursor := ⟨0, 0, 0⟩

/-- Behind a member that is no bit-field. -/
def behind (first size : Nat) : Cursor := ⟨8 * (first + size), first, first + size⟩

section Definitions

variable (c : Cursor) (size width : Nat)

def offset : Nat := c.pos - 8 * c.unit

def startsUnit : Bool := Template.startsUnit (8 * size) 0 c.unit c.offset width

/-- The unit that the bit-field is taken from. -/
def unitFor : Cursor :=
  if c.startsUnit size width then behind (roundUp (byteEnd c.pos) size) 0 else c

def taken : Cursor :=
  if 32 ≤ c.offset + width then ⟨8 * c.next + c.offset + width, c.next + 4, c.next + 4⟩
  else { c with pos := c.pos + width }

def pastBits : Cursor :=
  if width = 0 then { c with pos := 8 * roundUp (byteEnd c.pos) size }
  else (c.unitFor size width).taken width

/-- In the first `room` bytes, the bit-field is put where it belongs, and so
is what comes next. A bit-field without a width does not move to the end.
One with a width starts a new unit only where it would cross a multiple of
the size of its type, or is at one, and stays in its unit only where it
would not. But one without a name that would may be the last of 32 bits, and
then the unit has to be moved on as far as is missing. -/
def Follows (room : Nat) (named : Bool) : Prop :=
  if width = 0 then roundUp (byteEnd c.pos) size < room ∨ c.pos % (8 * size) = 0
  else if c.startsUnit size width then crosses size width c.pos ∨ c.pos % (8 * size) = 0
  else if 32 ≤ c.offset + width then
    (named = true → ¬crosses size width c.pos) ∧
      Members.bitStart size width c.pos + 8 * c.unit = c.pos + 8 * c.next
  else ¬crosses size width c.pos

instance (room : Nat) (named : Bool) : Decidable (c.Follows size width room named) := by
  unfold Follows
  infer_instance

structure Valid : Prop where
  unit_le : c.unit ≤ c.next
  next_le : 8 * c.next ≤ c.pos

end Definitions

variable {c : Cursor} {size width room : Nat} {named : Bool}

theorem valid_behind (first size : Nat) : (behind first size).Valid :=
  ⟨Nat.le_add_right _ _, le_rfl⟩

theorem Valid.unitFor (h : c.Valid) (size width : Nat) : (c.unitFor size width).Valid := by
  unfold Cursor.unitFor
  split
  · exact valid_behind ..
  · exact h

theorem Valid.taken (h : c.Valid) (width : Nat) : (c.taken width).Valid := by
  have hunit := h.unit_le
  have hnext := h.next_le
  unfold Cursor.taken
  split
  · exact ⟨le_rfl, by dsimp only; omega⟩
  · exact ⟨hunit, by dsimp only; omega⟩

theorem Valid.pastBits (h : c.Valid) (hsize : 0 < size) (width : Nat) :
    (c.pastBits size width).Valid := by
  have hbyte := le_byteEnd c.pos
  have hup := le_roundUp hsize (byteEnd c.pos)
  have hnext := h.next_le
  unfold Cursor.pastBits
  split
  · exact ⟨h.unit_le, by dsimp only; omega⟩
  · exact (h.unitFor size width).taken width

/-! ## Where a bit-field belongs -/

section BitStart

variable {pos : Nat}

theorem bitStart_of_not (hw : width ≠ 0) (h : ¬crosses size width pos) :
    Members.bitStart size width pos = pos :=
  if_neg fun hno => hno.elim hw h

theorem bitStart_of_crosses (h : crosses size width pos) :
    Members.bitStart size width pos = roundUp pos (8 * size) :=
  if_pos (.inr h)

theorem bitStart_zero (hsize : 0 < size) (pos : Nat) :
    Members.bitStart size 0 pos = 8 * roundUp (byteEnd pos) size := by
  rw [← roundUp_bits hsize]
  exact if_pos (.inl rfl)

theorem bitStart_le (hsize : 0 < size) (width pos : Nat) :
    Members.bitStart size width pos ≤ roundUp pos (8 * size) := by
  unfold Members.bitStart
  split
  · exact le_rfl
  · exact le_roundUp (by omega) pos

/-- A bit-field at a multiple of the size of its type does not cross one. -/
theorem not_crosses_of_dvd (hsize : 0 < size) (hw : width ≠ 0) (hle : width ≤ 8 * size)
    (h : 8 * size ∣ pos) : ¬crosses size width pos := by
  obtain ⟨k, rfl⟩ := h
  have hpos : 0 < 8 * size := by omega
  have hend : (8 * size * k + width - 1) / (8 * size) = k := by
    rw [Nat.add_sub_assoc (by omega), Nat.mul_add_div hpos, Nat.div_eq_of_lt (by omega), Nat.add_zero]
  unfold crosses
  rw [hend, Nat.mul_div_cancel_left _ hpos]
  exact fun hne => hne rfl

theorem bitStart_eq_iff (hsize : 0 < size) (hw : width ≠ 0) (hle : width ≤ 8 * size) :
    Members.bitStart size width pos = pos ↔ ¬crosses size width pos := by
  refine ⟨fun h hcross => ?_, bitStart_of_not hw⟩
  rw [bitStart_of_crosses hcross] at h
  exact not_crosses_of_dvd hsize hw hle (h ▸ dvd_roundUp pos (8 * size)) hcross

theorem bitStart_eq_roundUp_iff (hsize : 0 < size) (hw : width ≠ 0) :
    Members.bitStart size width pos = roundUp pos (8 * size) ↔
      crosses size width pos ∨ pos % (8 * size) = 0 := by
  by_cases hcross : crosses size width pos
  · exact ⟨fun _ => .inl hcross, fun _ => bitStart_of_crosses hcross⟩
  · rw [bitStart_of_not hw hcross]
    constructor
    · exact fun h => .inr (Nat.mod_eq_zero_of_dvd (h ▸ dvd_roundUp pos (8 * size)))
    · rintro (h | h)
      · exact absurd h hcross
      · exact (roundUp_of_dvd (by omega) (Nat.dvd_of_mod_eq_zero h)).symm

end BitStart

/-! ## Where it is put -/

theorem le_unitFor (hsize : 0 < size) (width : Nat) (c : Cursor) :
    c.pos ≤ (c.unitFor size width).pos := by
  unfold unitFor
  split
  · have hbyte := le_byteEnd c.pos
    have hup := le_roundUp hsize (byteEnd c.pos)
    dsimp only [behind]
    omega
  · exact le_rfl

theorem le_taken (hc : c.Valid) (width : Nat) : c.pos + width ≤ (c.taken width).pos := by
  have hunit := hc.unit_le
  have hnext := hc.next_le
  unfold taken offset
  split
  · dsimp only
    omega
  · exact le_rfl

theorem unitFor_pos (hsize : 0 < size) (hstarts : c.startsUnit size width = true) :
    (c.unitFor size width).pos = roundUp c.pos (8 * size) := by
  rw [unitFor, if_pos hstarts, roundUp_bits hsize]
  rfl

theorem taken_unitFor_pos (hsize : 0 < size) (hstarts : c.startsUnit size width = true) :
    ((c.unitFor size width).taken width).pos = roundUp c.pos (8 * size) + width := by
  rw [unitFor, if_pos hstarts, roundUp_bits hsize]
  unfold taken offset behind
  split
  · dsimp only
    omega
  · dsimp only
    omega

/-- `Follows` says that a bit-field with a width is put where it belongs, if
it has a name, and that the one behind it is tried where it belongs. -/
theorem follows_iff (hc : c.Valid) (hsize : 0 < size) (hw : width ≠ 0) (hle : width ≤ 8 * size) :
    c.Follows size width room named ↔
      (named = true → (c.unitFor size width).pos = Members.bitStart size width c.pos) ∧
        (c.pastBits size width).pos = Members.bitStart size width c.pos + width := by
  unfold Follows pastBits
  rw [if_neg hw, if_neg hw]
  by_cases hstarts : c.startsUnit size width = true
  · rw [if_pos hstarts, unitFor_pos hsize hstarts, taken_unitFor_pos hsize hstarts,
      ← bitStart_eq_roundUp_iff hsize hw]
    constructor
    · intro h
      rw [h]
      exact ⟨fun _ => rfl, rfl⟩
    · rintro ⟨-, h⟩
      omega
  · have hunit : c.unitFor size width = c := if_neg hstarts
    have hle_unit := hc.unit_le
    have hle_next := hc.next_le
    have hstays := @bitStart_eq_iff size width c.pos hsize hw hle
    rw [if_neg hstarts, hunit, ← hstays]
    unfold taken offset
    split
    · dsimp only
      refine and_congr ⟨fun h hn => (h hn).symm, fun h hn => (h hn).symm⟩ ?_
      omega
    · dsimp only
      exact ⟨fun h => ⟨fun _ => h.symm, by rw [h]⟩, fun h => by omega⟩

theorem Follows.pastBits_pos (h : c.Follows size width room named) (hc : c.Valid) (hsize : 0 < size)
    (hle : width ≤ 8 * size) :
    (c.pastBits size width).pos = Members.bitStart size width c.pos + width := by
  by_cases hw : width = 0
  · subst hw
    rw [bitStart_zero hsize]
    rfl
  · exact ((follows_iff hc hsize hw hle).1 h).2

theorem Follows.places (h : c.Follows size width room named) (hc : c.Valid) (hsize : 0 < size)
    (hle : width ≤ 8 * size) (hnamed : named = true → 0 < width) (base : Nat) :
    (if named then Members.bitPlaces base (c.unitFor size width).pos width else []) =
      if named then Members.bitPlaces base (Members.bitStart size width c.pos) width else [] := by
  cases named with
  | false => rfl
  | true =>
    have hw := (hnamed rfl).ne'
    rw [((follows_iff hc hsize hw hle).1 h).1 rfl]

/-- Where the unit is not a new one though the bit-field crosses a multiple,
the unit is of 32 bits at most. -/
theorem offset_le_of_crosses (hc : c.Valid) (hsize : size ∈ [1, 2, 4, 8]) (hw : width ≠ 0)
    (hcross : crosses size width c.pos)
    (hstarts : ¬c.startsUnit size width = true) : c.offset + width ≤ 32 := by
  have hunit := hc.unit_le
  have hnext := hc.next_le
  have hoffset : 8 * c.unit + c.offset = c.pos := by
    unfold offset
    omega
  rw [startsUnit, Template.startsUnit, bigMisalignedBitField] at hstarts
  simp only [Bool.or_eq_true, Bool.and_eq_true, decide_eq_true_eq, Nat.sub_zero, not_or, not_and,
    Nat.not_lt, Decidable.not_not] at hstarts
  obtain ⟨hend, hbig⟩ := hstarts
  unfold crosses at hcross
  simp only [List.mem_cons, List.not_mem_nil, or_false] at hsize
  rcases hsize with rfl | rfl | rfl | rfl
  · omega
  · omega
  · omega
  · have hword := hbig (by omega)
    omega

/-- If what comes behind a bit-field is not tried where it belongs, one bit
there is not put where it belongs. -/
theorem unitFor_one_ne (hc : c.Valid) (hsize : size ∈ [1, 2, 4, 8]) (hw : width ≠ 0)
    (h : (c.pastBits size width).pos ≠ Members.bitStart size width c.pos + width) :
    ((c.pastBits size width).unitFor 4 1).pos ≠ Members.bitStart size width c.pos + width := by
  have hpos : 0 < size := by
    simp only [List.mem_cons, List.not_mem_nil, or_false] at hsize
    omega
  have hle := le_unitFor (show 0 < 4 by decide) 1 (c.pastBits size width)
  rcases Nat.lt_or_ge (Members.bitStart size width c.pos + width) (c.pastBits size width).pos with
    hlt | hge
  · omega
  have hpast : c.pastBits size width = (c.unitFor size width).taken width := if_neg hw
  have hstart := bitStart_le hpos width c.pos
  have hstarts : ¬c.startsUnit size width = true := fun hstarts => by
    rw [hpast, taken_unitFor_pos hpos hstarts] at h hge
    omega
  have hunit : c.unitFor size width = c := if_neg hstarts
  rw [hunit] at hpast
  have htaken := le_taken hc width
  rw [← hpast] at htaken
  have hcross : crosses size width c.pos := by
    by_contra hno
    rw [bitStart_of_not hw hno] at h hge
    omega
  have hoffset := offset_le_of_crosses hc hsize hw hcross hstarts
  have hstays : ¬(c.pastBits size width).startsUnit 4 1 = true := by
    have hsmall : (c.pastBits size width).offset < 32 := by
      have hle_unit := hc.unit_le
      have hle_next := hc.next_le
      have hpos : c.offset = c.pos - 8 * c.unit := rfl
      rw [hpast]
      unfold taken
      split
      · change 8 * c.next + c.offset + width - 8 * (c.next + 4) < 32
        omega
      · change c.pos + width - 8 * c.unit < 32
        omega
    rw [startsUnit, Template.startsUnit]
    simp only [Bool.or_eq_true, Bool.and_eq_true, decide_eq_true_eq, not_or, not_and]
    exact ⟨by omega, by omega⟩
  rw [unitFor, if_neg hstays]
  exact h

end Cursor

end Evlog.Template
