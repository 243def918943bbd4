/-
Evlog.Lib.Strcat — a string that grows in its buffer.

`strcat` looks for the NUL itself. Code that keeps the length beside the
buffer hands it a place further on, to make the search short: any place
within the string will do. The call is defined where the new string fits
in the buffer, and there it appends (`strcatAt_eq`).
-/
import Evlog.Lib.CString

namespace Evlog.Lib

def Stands (mem : List UInt8) (t : CString) : Prop := t.bytes ++ [0] <+: mem

/-- `strcat(mem + pos, s)`, if it stays within the memory. -/
def strcatAt (mem : List UInt8) (pos : Nat) (s : CString) : Option (List UInt8) :=
  let stop := pos + ((mem.drop pos).takeWhile (· ≠ 0)).length
  if stop + s.bytes.length < mem.length then
    some (mem.take stop ++ (s.bytes ++ 0 :: mem.drop (stop + s.bytes.length + 1)))
  else none

section Strcat

variable {mem : List UInt8} {t : CString}

theorem Stands.lt_length (h : Stands mem t) : t.bytes.length < mem.length := by
  have hle := h.length_le
  rw [List.length_append, List.length_singleton] at hle
  omega

theorem stands_nil (rest : List UInt8) : Stands (0 :: rest) ⟨[], CString.noNul_nil⟩ := by
  simp [Stands]

/-- The search from a place within the string ends where it ends. -/
theorem Stands.search (h : Stands mem t) {pos : Nat} (hpos : pos ≤ t.bytes.length) :
    pos + ((mem.drop pos).takeWhile (· ≠ 0)).length = t.bytes.length := by
  obtain ⟨rest, hrest⟩ := h
  have hall : ∀ b ∈ t.bytes.drop pos, decide (b ≠ 0) = true := by
    intro b hb
    have hne : b ≠ 0 := fun h0 => t.noNul (h0 ▸ List.mem_of_mem_drop hb)
    simpa using hne
  rw [← hrest, List.append_assoc, List.drop_append_of_le_length hpos,
    List.takeWhile_append_of_pos hall]
  simp only [List.singleton_append, ne_eq, not_true_eq_false, decide_false, Bool.false_eq_true,
    not_false_eq_true, List.takeWhile_cons_of_neg, List.append_nil, List.length_drop]
  omega

/-- Where there is room, `strcat` appends. -/
theorem strcatAt_eq (h : Stands mem t) {pos : Nat} (hpos : pos ≤ t.bytes.length) {s : CString}
    (hroom : (t.append s).bytes.length < mem.length) :
    ∃ mem', strcatAt mem pos s = some mem' ∧ mem'.length = mem.length
      ∧ Stands mem' (t.append s) := by
  have hlen : (t.append s).bytes.length = t.bytes.length + s.bytes.length := List.length_append
  rw [hlen] at hroom
  have htake : mem.take t.bytes.length = t.bytes := by
    obtain ⟨rest, hrest⟩ := h
    rw [← hrest, List.append_assoc, List.take_left]
  refine ⟨t.bytes ++ (s.bytes ++ 0 :: mem.drop (t.bytes.length + s.bytes.length + 1)), ?_, ?_, ?_⟩
  · simp only [strcatAt]
    rw [h.search hpos, if_pos hroom, htake]
  · simp only [List.length_append, List.length_cons, List.length_drop]
    omega
  · simp [Stands]

end Strcat

end Evlog.Lib
