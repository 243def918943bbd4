/-
Evlog.Lib.StructLayout — where the members of a C struct are.

Each member starts at the first multiple of its alignment that is not
before the end of the one before it, and the struct ends at a multiple of
its own alignment, which is the greatest of its members'. A bit-field
starts at the next bit, unless it would then cross a multiple of the size
of its type; in that case, and if it has no width, it starts at the next
such multiple. Positions in a struct are counted in bits for that reason.
-/
import Mathlib.Tactic

namespace Evlog.Lib

/-! ## Multiples -/

/-- The least multiple of `a` that is not below `n`. -/
def roundUp (n a : Nat) : Nat := (n + a - 1) / a * a

variable {n m a : Nat}

theorem dvd_roundUp (n a : Nat) : a ∣ roundUp n a := Nat.dvd_mul_left a _

theorem le_roundUp (ha : 0 < a) (n : Nat) : n ≤ roundUp n a := by
  have h := Nat.div_add_mod (n + a - 1) a
  have hmod := Nat.mod_lt (n + a - 1) ha
  rw [roundUp, Nat.mul_comm]
  omega

theorem roundUp_le (ha : 0 < a) (hm : a ∣ m) (h : n ≤ m) : roundUp n a ≤ m := by
  obtain ⟨k, rfl⟩ := hm
  rw [roundUp, Nat.mul_comm a k]
  refine Nat.mul_le_mul_right a (Nat.le_of_lt_succ ((Nat.div_lt_iff_lt_mul ha).2 ?_))
  rw [Nat.succ_mul, Nat.mul_comm k a]
  omega

theorem roundUp_of_dvd (ha : 0 < a) (h : a ∣ n) : roundUp n a = n :=
  Nat.le_antisymm (roundUp_le ha h le_rfl) (le_roundUp ha n)

/-- What is reached by going on to the next multiple, is the least one. -/
theorem roundUp_eq_add (ha : 0 < a) (h : ¬a ∣ n) : roundUp n a = n + (a - n % a) := by
  have hmod := Nat.mod_lt n ha
  have hdvd : a ∣ n + (a - n % a) := by
    have hsum : n + (a - n % a) = a * (n / a) + a := by
      have := Nat.div_add_mod n a
      omega
    rw [hsum]
    exact Nat.dvd_add (Nat.dvd_mul_right ..) dvd_rfl
  refine Nat.le_antisymm (roundUp_le ha hdvd (Nat.le_add_right _ _)) ?_
  obtain ⟨k, hk⟩ := dvd_roundUp n a
  have hle := le_roundUp ha n
  rw [hk] at hle ⊢
  have hdiv := Nat.div_add_mod n a
  have hpos : n % a ≠ 0 := fun h0 => h (Nat.dvd_of_mod_eq_zero h0)
  have hlt : n / a < k := by
    by_contra hge
    have := Nat.mul_le_mul_left a (Nat.not_lt.1 hge)
    omega
  have := Nat.mul_le_mul_left a hlt
  rw [Nat.mul_succ] at this
  omega

def byteEnd (b : Nat) : Nat := (b + 7) / 8

theorem byteEnd_bytes (b : Nat) : byteEnd (8 * b) = b := by
  unfold byteEnd
  omega

theorem le_byteEnd (b : Nat) : b ≤ 8 * byteEnd b := by
  unfold byteEnd
  omega

theorem byteEnd_mono (h : n ≤ m) : byteEnd n ≤ byteEnd m := by
  unfold byteEnd
  omega

theorem roundUp_bits (ha : 0 < a) (b : Nat) : roundUp b (8 * a) = 8 * roundUp (byteEnd b) a := by
  refine Nat.le_antisymm ?_ ?_
  · refine roundUp_le (by omega) (Nat.mul_dvd_mul_left 8 (dvd_roundUp _ a)) ?_
    exact (le_byteEnd b).trans (Nat.mul_le_mul_left 8 (le_roundUp ha _))
  · obtain ⟨k, hk⟩ := dvd_roundUp b (8 * a)
    have hle := le_roundUp (show 0 < 8 * a by omega) b
    rw [hk, Nat.mul_assoc] at hle ⊢
    refine Nat.mul_le_mul_left 8 (roundUp_le ha (Nat.dvd_mul_right a k) ?_)
    have := byteEnd_mono hle
    rwa [byteEnd_bytes] at this

/-! ## Members -/

/-- The members of a struct: scalars and arrays of them, bit-fields of a
type of some size, and structs and arrays of them. -/
inductive Members where
  | nil
  | scalar (size align count : Nat) (rest : Members)
  | bits (size width : Nat) (named : Bool) (rest : Members)
  | struct (sub : Members) (count : Nat) (rest : Members)
  deriving DecidableEq, Repr

/-- What is where. Bytes and structs are given by the offset and the size,
bit-fields by the first bit and the width. -/
inductive Place where
  | bytes (offset size : Nat)
  | bits (pos width : Nat)
  | struct (offset size : Nat)
  deriving DecidableEq, Repr

namespace Members

/-- The greatest alignment of a member. Bit-fields without a name have
none. -/
def align : Members → Nat
  | .nil => 1
  | .scalar _ align _ rest => max align rest.align
  | .bits size _ named rest => if named then max size rest.align else rest.align
  | .struct sub _ rest => max sub.align rest.align

/-- Where a bit-field starts, with `pos` bits before it. -/
def bitStart (size width pos : Nat) : Nat :=
  if width = 0 ∨ pos / (8 * size) ≠ (pos + width - 1) / (8 * size) then roundUp pos (8 * size)
  else pos

/-- Where the members end, with `pos` bits before them. -/
def endBit : Members → Nat → Nat
  | .nil, pos => pos
  | .scalar size align count rest, pos =>
    rest.endBit (8 * (roundUp (byteEnd pos) align + size * count))
  | .bits size width _ rest, pos => rest.endBit (bitStart size width pos + width)
  | .struct sub count rest, pos =>
    rest.endBit
      (8 * (roundUp (byteEnd pos) sub.align + roundUp (byteEnd (sub.endBit 0)) sub.align * count))

def sizeof (ms : Members) : Nat := roundUp (byteEnd (ms.endBit 0)) ms.align

def bitPlaces (base pos width : Nat) : List Place :=
  [.bytes (base + pos / 8) ((pos + width - 1) / 8 + 1 - pos / 8), .bits (8 * base + pos) width]

/-- Where the members are, in a struct that starts at `base`, and with `pos`
bits before them. A struct comes after its members, and only if it has a
size. -/
def places : Members → Nat → Nat → List Place
  | .nil, _, _ => []
  | .scalar size align count rest, base, pos =>
    .bytes (base + roundUp (byteEnd pos) align) (size * count) ::
      rest.places base (8 * (roundUp (byteEnd pos) align + size * count))
  | .bits size width named rest, base, pos =>
    (if named then bitPlaces base (bitStart size width pos) width else []) ++
      rest.places base (bitStart size width pos + width)
  | .struct sub count rest, base, pos =>
    ((List.range count).flatMap fun k =>
        sub.places (base + roundUp (byteEnd pos) sub.align + sub.sizeof * k) 0) ++
      (if 0 < sub.sizeof * count then
        [.struct (base + roundUp (byteEnd pos) sub.align) (sub.sizeof * count)] else []) ++
      rest.places base (8 * (roundUp (byteEnd pos) sub.align + sub.sizeof * count))

theorem places_struct_one (sub rest : Members) (base pos : Nat) :
    (struct sub 1 rest).places base pos =
      (sub.places (base + roundUp (byteEnd pos) sub.align) 0 ++
          if 0 < sub.sizeof then [.struct (base + roundUp (byteEnd pos) sub.align) sub.sizeof] else []) ++
        rest.places base (8 * (roundUp (byteEnd pos) sub.align + sub.sizeof * 1)) := by
  simp only [places, List.range_one, List.flatMap_singleton, Nat.mul_zero, Nat.add_zero, Nat.mul_one]

/-- Sizes and alignments are none of them zero, and only a bit-field
without a name has no width. -/
def WellFormed : Members → Prop
  | .nil => True
  | .scalar size align count rest => (0 < size ∧ 0 < align ∧ 0 < count) ∧ rest.WellFormed
  | .bits size width named rest =>
    (0 < size ∧ width ≤ 8 * size ∧ (named = true → 0 < width)) ∧ rest.WellFormed
  | .struct sub count rest => 0 < count ∧ sub.WellFormed ∧ rest.WellFormed

theorem align_pos (ms : Members) : 0 < ms.align := by
  induction ms with
  | nil => exact Nat.one_pos
  | scalar size align count rest ih => exact ih.trans_le (le_max_right _ _)
  | bits size width named rest ih =>
    unfold align
    split
    · exact ih.trans_le (le_max_right _ _)
    · exact ih
  | struct sub count rest _ ih => exact ih.trans_le (le_max_right _ _)

theorem le_bitStart {size : Nat} (hsize : 0 < size) (width pos : Nat) :
    pos ≤ bitStart size width pos := by
  unfold bitStart
  split
  · exact le_roundUp (by omega) pos
  · exact le_rfl

variable {ms : Members}

theorem le_endBit (h : ms.WellFormed) (pos : Nat) : pos ≤ ms.endBit pos := by
  induction ms generalizing pos with
  | nil => exact le_rfl
  | scalar size align count rest ih =>
    have hle := (le_byteEnd pos).trans (Nat.mul_le_mul_left 8 (le_roundUp h.1.2.1 (byteEnd pos)))
    exact le_trans (by omega) (ih h.2 _)
  | bits size width named rest ih =>
    exact ((le_bitStart h.1.1 width pos).trans (Nat.le_add_right _ _)).trans (ih h.2 _)
  | struct sub count rest _ ih =>
    have hle := (le_byteEnd pos).trans
      (Nat.mul_le_mul_left 8 (le_roundUp sub.align_pos (byteEnd pos)))
    exact le_trans (by omega) (ih h.2.2 _)

theorem endBit_of_sizeof (h : ms.sizeof = 0) : ms.endBit 0 = 0 := by
  have hend := le_roundUp ms.align_pos (byteEnd (ms.endBit 0))
  have hbyte := le_byteEnd (ms.endBit 0)
  unfold sizeof at h
  omega

theorem places_nil (h : ms.WellFormed) {base pos : Nat} (hend : ms.endBit pos ≤ pos) :
    ms.places base pos = [] := by
  induction ms generalizing base pos with
  | nil => rfl
  | scalar size align count rest ih =>
    have hle := le_byteEnd pos
    have hup := le_roundUp h.1.2.1 (byteEnd pos)
    have hsize : 0 < size * count := Nat.mul_pos h.1.1 h.1.2.2
    have hrest := le_endBit h.2 (8 * (roundUp (byteEnd pos) align + size * count))
    rw [endBit] at hend
    omega
  | bits size width named rest ih =>
    obtain ⟨⟨hsize, -, hnamed⟩, hwf⟩ := h
    have hle := le_bitStart hsize width pos
    have hrest := le_endBit hwf (bitStart size width pos + width)
    rw [endBit] at hend
    have hpos : bitStart size width pos + width = pos := by omega
    have hno : named = false := by
      cases named with
      | false => rfl
      | true =>
        have := hnamed rfl
        omega
    rw [hpos] at hend
    rw [places, hpos, hno, ih hwf hend]
    rfl
  | struct sub count rest ihsub ih =>
    obtain ⟨hcount, hsub, hwf⟩ := h
    have hle := le_byteEnd pos
    have hup := le_roundUp sub.align_pos (byteEnd pos)
    have hrest := le_endBit hwf (8 * (roundUp (byteEnd pos) sub.align + sub.sizeof * count))
    change rest.endBit (8 * (roundUp (byteEnd pos) sub.align + sub.sizeof * count)) ≤ pos at hend
    have hpos : 8 * (roundUp (byteEnd pos) sub.align + sub.sizeof * count) = pos := by omega
    have hzero : sub.sizeof * count = 0 := by omega
    have hsize : sub.sizeof = 0 := by
      rcases Nat.mul_eq_zero.1 hzero with h | h
      · exact h
      · omega
    rw [hpos] at hend
    rw [places, hpos, ih hwf hend, hzero]
    simp only [ihsub hsub (endBit_of_sizeof hsize).le, Nat.lt_irrefl, if_false, List.append_nil,
      List.flatMap_eq_nil_iff, implies_true]

theorem le_sizeof (ms : Members) (hpos : 0 < ms.endBit 0) (h : n ≤ ms.align) : n ≤ ms.sizeof := by
  have hle := le_roundUp ms.align_pos (byteEnd (ms.endBit 0))
  have hbyte := le_byteEnd (ms.endBit 0)
  exact h.trans (Nat.le_of_dvd (by unfold sizeof; omega) (dvd_roundUp _ _))

end Members

end Evlog.Lib
