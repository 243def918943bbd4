/-
Evlog.Lib.ByteStream — the receiving end of a stream socket.

A `ByteStream` is what a descriptor is going to deliver, in the pieces in
which it arrives: one `read` returns at most one piece, and less of it
when fewer bytes were asked for. An empty piece is a `read` that returns
nothing, be it the end of the stream or an error, and so is reading when
no piece is left.

`readLoop` is the usual loop around `read` that goes on until it has all
the bytes it wants. What it stores depends on the bytes of the stream
alone and not on the pieces (`readLoop_stored`), which is what lets a
proof about a receiver forget how the bytes arrived.
-/
import Mathlib.Tactic

namespace Evlog.Lib

abbrev ByteStream := List (List UInt8)

namespace ByteStream

/-- `read(sd, buf, n)`: the bytes stored, and what is still to come. -/
def read : ByteStream → Nat → List UInt8 × ByteStream
  | [], _ => ([], [])
  | p :: ps, n => if n < p.length then (p.take n, p.drop n :: ps) else (p, ps)

/-- Read until `n` bytes are there or a read returns nothing: the bytes
stored by then, whether they are all `n`, and what is still to come. -/
def readLoop : ByteStream → Nat → List UInt8 × Bool × ByteStream
  | s, 0 => ([], true, s)
  | [], _ + 1 => ([], false, [])
  | p :: ps, n + 1 =>
    if p = [] then ([], false, ps)
    else if n + 1 < p.length then (p.take (n + 1), true, p.drop (n + 1) :: ps)
    else
      let r := readLoop ps (n + 1 - p.length)
      (p ++ r.1, r.2)

/-! ## One read -/

theorem read_length_le (s : ByteStream) (n : Nat) : (s.read n).1.length ≤ n := by
  cases s with
  | nil => simp [read]
  | cons p ps =>
    simp only [read]
    split
    · simp
    · simp; omega

/-- Nothing is lost or made up: what was read and what is left are the
bytes of the stream. -/
theorem read_append (s : ByteStream) (n : Nat) :
    (s.read n).1 ++ (s.read n).2.flatten = s.flatten := by
  cases s with
  | nil => simp [read]
  | cons p ps =>
    simp only [read]
    split
    · simp [← List.append_assoc, List.take_append_drop]
    · simp

def ahead (rest : List UInt8) (s : ByteStream) : ByteStream :=
  if rest = [] then s else rest :: s

theorem ahead_eq_append (rest : List UInt8) (s : ByteStream) :
    ahead rest s = (if rest = [] then [] else [rest]) ++ s := by
  rw [ahead]
  split
  · rfl
  · rfl

/-- A read whose bytes lie in the first piece returns all of them. -/
theorem read_ahead {b : List UInt8} (hb : b ≠ []) (rest : List UInt8) (s : ByteStream) :
    (ahead (b ++ rest) s).read b.length = (b, ahead rest s) := by
  rw [ahead, if_neg (by simp [hb]), read, ahead]
  split_ifs with hlt hrest hrest
  · simp [hrest] at hlt
  · simp
  · simp [hrest]
  · have := List.length_pos_iff.2 hrest
    simp only [List.length_append, not_lt] at hlt
    omega

variable {s : ByteStream}

/-- A read that asks for something gets something, as long as there are
pieces and none is empty. -/
theorem read_ne_nil {n : Nat} (hs : s ≠ []) (hne : ∀ p ∈ s, p ≠ []) (hn : 0 < n) :
    (s.read n).1 ≠ [] := by
  cases s with
  | nil => exact absurd rfl hs
  | cons p ps =>
    have hp := hne p List.mem_cons_self
    simp only [read]
    split
    · simp [hp]
      omega
    · exact hp

theorem read_pieces (hne : ∀ p ∈ s, p ≠ []) (n : Nat) : ∀ p ∈ (s.read n).2, p ≠ [] := by
  cases s with
  | nil => simp [read]
  | cons p ps =>
    intro q hq
    simp only [read] at hq
    split at hq
    · rename_i hlt
      rcases List.mem_cons.1 hq with rfl | hq
      · simpa using hlt
      · exact hne q (List.mem_cons_of_mem _ hq)
    · exact hne q (List.mem_cons_of_mem _ hq)

/-! ## The loop -/

/-- A loop that got through stored as many bytes as it was asked for. -/
theorem readLoop_length {n : Nat} (h : (s.readLoop n).2.1 = true) :
    (s.readLoop n).1.length = n := by
  induction s, n using readLoop.induct with
  | case1 s => simp [readLoop]
  | case2 n => simp [readLoop] at h
  | case3 ps n => simp [readLoop] at h
  | case4 p ps n hp hlt =>
    simp only [readLoop, hp, hlt, if_false, if_true]
    simp
    omega
  | case5 p ps n hp hlt ih =>
    simp only [readLoop, hp, hlt, if_false] at h ⊢
    simp only [List.length_append, ih h]
    omega

theorem readLoop_length_le (s : ByteStream) (n : Nat) : (s.readLoop n).1.length ≤ n := by
  induction s, n using readLoop.induct with
  | case1 s => simp [readLoop]
  | case2 n => simp [readLoop]
  | case3 ps n => simp [readLoop]
  | case4 p ps n hp hlt =>
    simp only [readLoop, hp, hlt, if_false, if_true]
    simp
  | case5 p ps n hp hlt ih =>
    simp only [readLoop, hp, hlt, if_false, List.length_append]
    omega

theorem readLoop_append (s : ByteStream) (n : Nat) :
    (s.readLoop n).1 ++ (s.readLoop n).2.2.flatten = s.flatten := by
  induction s, n using readLoop.induct with
  | case1 s => simp [readLoop]
  | case2 n => simp [readLoop]
  | case3 ps n => simp [readLoop]
  | case4 p ps n hp hlt =>
    simp only [readLoop, hp, hlt, if_false, if_true, List.flatten_cons]
    rw [← List.append_assoc, List.take_append_drop]
  | case5 p ps n hp hlt ih =>
    simp only [readLoop, hp, hlt, if_false, List.flatten_cons]
    rw [List.append_assoc, ih]

/-- What a loop that got through stored are the first bytes of the stream,
in whatever pieces they came. -/
theorem readLoop_stored {n : Nat} (h : (s.readLoop n).2.1 = true) :
    (s.readLoop n).1 = s.flatten.take n := by
  rw [← readLoop_append s n, List.take_left' (readLoop_length h)]

/-- The loop over pieces whose bytes are the ones wanted: they are all
stored and nothing of what follows is touched. -/
theorem readLoop_flatten (ps : ByteStream) (hne : ∀ p ∈ ps, p ≠ []) (s : ByteStream) :
    ByteStream.readLoop (ps ++ s) ps.flatten.length = (ps.flatten, true, s) := by
  induction ps with
  | nil => simp [readLoop]
  | cons p ps ih =>
    have hp : p ≠ [] := hne p (by simp)
    have hlen : 0 < p.length := List.length_pos_iff.2 hp
    have hrest := ih (fun q hq => hne q (by simp [hq]))
    obtain ⟨n, hn⟩ : ∃ n, (p :: ps).flatten.length = n + 1 :=
      ⟨(p :: ps).flatten.length - 1, by simp; omega⟩
    simp only [List.flatten_cons, List.length_append] at hn
    have hsub : n + 1 - p.length = ps.flatten.length := by omega
    rw [List.flatten_cons, List.length_append, hn, List.cons_append, readLoop, if_neg hp,
      if_neg (by omega), hsub, hrest]

end ByteStream

end Evlog.Lib
