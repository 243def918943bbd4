/-
Evlog.Lib.TextBuffer — a text in a buffer that may be too small for it.

`Shows buf t` says that the buffer shows the text `t` as C code that must
not write behind the end shows it: as much of it as leaves room for a null
character, and that character behind it. Text that is appended while there
is room goes to the end of what is there (`shows_splice`), whole or cut;
text that is appended later changes nothing (`shows_append_of_full`). The
length of the text is never in the buffer: who wants to know it has to
count along.
-/
import Mathlib.Tactic

namespace Evlog.Lib

/-- The buffer shows as much of the text as it has room for. -/
def Shows (buf t : List UInt8) : Prop := t.take (buf.length - 1) ++ [0] <+: buf

def untilNull (bs : List UInt8) : List UInt8 := bs.takeWhile (· ≠ 0)

section

variable {buf sub t u : List UInt8}

theorem Shows.pos (h : Shows buf t) : 0 < buf.length := by
  have hle := h.length_le
  rw [List.length_append, List.length_singleton] at hle
  omega

/-- A buffer that starts with a null character shows the empty text. -/
theorem shows_nil (bs : List UInt8) : Shows (0 :: bs) [] := by
  simp [Shows]

theorem shows_iff_of_lt (h : t.length < buf.length) : Shows buf t ↔ t ++ [0] <+: buf := by
  rw [Shows, List.take_of_length_le (by omega)]

/-- Where the text ends there is room for the rest of the buffer. -/
theorem Shows.take_eq (h : Shows buf t) (hlt : t.length < buf.length) : buf.take t.length = t := by
  rw [shows_iff_of_lt hlt] at h
  obtain ⟨rest, rfl⟩ := h
  rw [List.append_assoc, List.take_left' rfl]

theorem shows_append_of_full (h : Shows buf t) (hfull : buf.length ≤ t.length + 1)
    (u : List UInt8) : Shows buf (t ++ u) := by
  rwa [Shows, List.take_append_of_le_length (by omega)]

/-- What the rest of the buffer shows is shown behind the text. -/
theorem shows_splice (h : Shows buf t) (hlt : t.length < buf.length)
    (hsub : t.length + sub.length = buf.length) (hu : Shows sub u) :
    Shows (buf.take t.length ++ sub) (t ++ u) := by
  have hpos := hu.pos
  have htake : (t ++ u).take (buf.length - 1) = t ++ u.take (sub.length - 1) := by
    rw [List.take_append, List.take_of_length_le (by omega)]
    congr 2
    omega
  have hlen : (t ++ sub).length = buf.length := by rw [List.length_append, hsub]
  rw [h.take_eq hlt, Shows, hlen, htake, List.append_assoc]
  exact (List.prefix_append_right_inj t).mpr hu

theorem shows_write (h : u.length < buf.length) :
    Shows (u ++ [0] ++ buf.drop (u.length + 1)) u := by
  have hlen : (u ++ [0] ++ buf.drop (u.length + 1)).length = buf.length := by
    simp
    omega
  rw [shows_iff_of_lt (by omega)]
  exact List.prefix_append _ _

theorem shows_cut {n : Nat} (h : u.length + 1 ≥ n) (hn : 0 < n) :
    Shows (u.take (n - 1) ++ [0]) u := by
  have hlen : (u.take (n - 1) ++ [0]).length = n := by
    simp
    omega
  rw [Shows, hlen]

/-- The null character at the end is there when the text does not fit. -/
theorem Shows.set_last (h : Shows buf t) (hfull : buf.length ≤ t.length + 1) :
    buf.take (buf.length - 1) ++ [0] = buf := by
  have hpos := h.pos
  have hlen : (t.take (buf.length - 1) ++ [0]).length = buf.length := by
    simp
    omega
  have heq := List.IsPrefix.eq_of_length h hlen
  have htake : buf.take (buf.length - 1) = t.take (buf.length - 1) := by
    conv_lhs => rw [← heq]
    rw [List.take_left' (by rw [List.length_take]; omega)]
  rw [htake, heq]

@[simp] theorem untilNull_nil : untilNull [] = [] := rfl

theorem untilNull_cons (b : UInt8) (bs : List UInt8) :
    untilNull (b :: bs) = if b = 0 then [] else b :: untilNull bs := by
  by_cases hb : b = 0 <;> simp [untilNull, hb]

theorem untilNull_append_zero (t rest : List UInt8) : untilNull (t ++ 0 :: rest) = untilNull t := by
  induction t with
  | nil => rfl
  | cons b t ih => rw [List.cons_append, untilNull_cons, untilNull_cons, ih]

theorem untilNull_eq_self (h : 0 ∉ t) : untilNull t = t := by
  induction t with
  | nil => rfl
  | cons b t ih =>
    rw [List.mem_cons, not_or] at h
    rw [untilNull_cons, if_neg (Ne.symm h.1), ih h.2]

theorem length_untilNull_le (t : List UInt8) : (untilNull t).length ≤ t.length :=
  (List.takeWhile_prefix _).length_le

/-- The string in a buffer is the one in the text, when the text fits. -/
theorem Shows.untilNull_eq (h : Shows buf t) (hlt : t.length < buf.length) : untilNull buf = untilNull t := by
  rw [shows_iff_of_lt hlt] at h
  obtain ⟨rest, rfl⟩ := h
  rw [List.append_assoc]
  exact untilNull_append_zero t rest

end

end Evlog.Lib
