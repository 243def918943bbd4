/-
Evlog.Lib.OpenFile — a regular file behind one open file description.

`OpenFile` is the bytes of a regular file and the description's offset.
`read`, `write` and `lseek` follow POSIX: a read returns what is left, a seek
may go past the end but not before the start, a write past the end fills the
gap with zeros.

`FileM` is a computation on one description that may stop with an
`Errno`; the offset it has reached by then stays. Two facts carry every
proof about such a computation: `FileM.bind_apply`, which peels a
sequence one call at a time, and `OpenFile.read_at`, which says what a
read returns when the file is known around the offset.

`overlay base start moved` is a file in the middle of a pass that closes
holes in it: the original `base`, with the bytes `moved` written over it from
index `start` on. Behind the moved part it is still the original
(`drop_overlay`); a write at its end extends it (`write_overlay`), and cutting
the file there leaves what was kept (`take_overlay_end`).
-/
import Mathlib.Tactic

namespace Evlog.Lib

/-- The error numbers the modelled calls and functions return. -/
inductive Errno where
  | eagain
  | ebadf
  | ebusy
  | einval
  | eio
  | emsgsize
  | enoent
  | enotsup
  deriving DecidableEq, Repr

/-- The base an `lseek` offset is relative to. -/
inductive Whence where
  | SEEK_SET
  | SEEK_CUR
  | SEEK_END
  deriving DecidableEq, Repr

structure OpenFile where
  content : List UInt8
  offset : Nat
  deriving DecidableEq, Repr

namespace OpenFile

/-- `read(fd, buf, n)`: the bytes stored in `buf`, and the moved offset. -/
def read (f : OpenFile) (n : Nat) : List UInt8 × OpenFile :=
  let bytes := (f.content.drop f.offset).take n
  (bytes, { f with offset := f.offset + bytes.length })

/-- `lseek(fd, off, whence)`; `none` is the `(off_t)-1` of an offset
before the start of the file. -/
def lseek (f : OpenFile) (off : Int) (whence : Whence) : Option OpenFile :=
  let base : Nat := match whence with
    | .SEEK_SET => 0
    | .SEEK_CUR => f.offset
    | .SEEK_END => f.content.length
  if 0 ≤ base + off then some { f with offset := (base + off).toNat } else none

/-- A complete `write(fd, bytes, |bytes|)`. -/
def write (f : OpenFile) (bytes : List UInt8) : OpenFile :=
  { content := f.content.take f.offset
      ++ List.replicate (f.offset - f.content.length) 0
      ++ bytes ++ f.content.drop (f.offset + bytes.length)
    offset := f.offset + bytes.length }

/-! ## What the calls do at a known place -/

/-- A read inside a known file: the bytes at the offset, and the offset
moved past them. -/
theorem read_at (pre mid post : List UInt8) :
    OpenFile.read ⟨pre ++ (mid ++ post), pre.length⟩ mid.length
      = (mid, ⟨pre ++ (mid ++ post), pre.length + mid.length⟩) := by
  simp [OpenFile.read]

/-- A read at or past the end returns nothing and moves nothing. -/
theorem read_past_end {f : OpenFile} (h : f.content.length ≤ f.offset) (n : Nat) :
    f.read n = ([], f) := by
  simp [OpenFile.read, List.drop_eq_nil_of_le h]

theorem read_length (f : OpenFile) (n : Nat) :
    (f.read n).1.length = min n (f.content.length - f.offset) := by
  simp [OpenFile.read]

theorem lseek_set (f : OpenFile) (n : Nat) : f.lseek n .SEEK_SET = some { f with offset := n } := by
  simp [lseek]

theorem lseek_cur (f : OpenFile) (n : Nat) :
    f.lseek n .SEEK_CUR = some { f with offset := f.offset + n } := by
  simp only [lseek]
  rw [if_pos (by omega)]
  congr 2

theorem lseek_cur_back {f : OpenFile} {n : Nat} (h : n ≤ f.offset) :
    f.lseek (-(n : Int)) .SEEK_CUR = some { f with offset := f.offset - n } := by
  simp only [lseek]
  rw [if_pos (by omega)]
  congr 2
  omega

theorem lseek_end (f : OpenFile) :
    f.lseek 0 .SEEK_END = some { f with offset := f.content.length } := by
  simp [lseek]

theorem write_at_end (content bytes : List UInt8) : OpenFile.write ⟨content, content.length⟩ bytes
      = ⟨content ++ bytes, (content ++ bytes).length⟩ := by
  simp [write]

end OpenFile

/-! ## Computations on one description -/

/-- A computation on an open file that ends with a value or an error; in
both cases the description keeps the offset it has reached. -/
def FileM (α : Type) : Type := OpenFile → Except Errno α × OpenFile

namespace FileM

variable {α β : Type}

instance : Monad FileM where
  pure a := fun f => (.ok a, f)
  bind x g := fun f =>
    match x f with
    | (.ok a, f') => g a f'
    | (.error e, f') => (.error e, f')

/-- Return the error `e`. -/
def fail (e : Errno) : FileM α := fun f => (.error e, f)

/-- `read(fd, buf, n)`. -/
def read (n : Nat) : FileM (List UInt8) := fun f =>
  (.ok (f.read n).1, (f.read n).2)

/-- `lseek(fd, off, whence)`, returning the new offset or failing with
`e` when the call fails. -/
def lseek (off : Int) (whence : Whence) (e : Errno) : FileM Nat := fun f =>
  match f.lseek off whence with
  | some f' => (.ok f'.offset, f')
  | none => (.error e, f)

/-- A complete `write(fd, bytes, |bytes|)`. -/
def write (bytes : List UInt8) : FileM Unit := fun f => (.ok (), f.write bytes)

theorem bind_apply (x : FileM α) (g : α → FileM β) (f : OpenFile) : (x >>= g) f = match x f with
      | (.ok a, f') => g a f'
      | (.error e, f') => (.error e, f') := rfl

@[simp] theorem pure_apply (a : α) (f : OpenFile) : (pure a : FileM α) f = (.ok a, f) := rfl

@[simp] theorem fail_apply (e : Errno) (f : OpenFile) : (fail e : FileM α) f = (.error e, f) := rfl

variable {x : FileM α} {g : α → FileM β} {f f' f'' : OpenFile}

/-- A sequence whose first call succeeds continues from where it left. -/
theorem bind_ok {a : α} (h : x f = (.ok a, f')) : (x >>= g) f = g a f' := by
  rw [bind_apply, h]

theorem bind_error {e : Errno} (h : x f = (.error e, f')) : (x >>= g) f = (.error e, f') := by
  rw [bind_apply, h]

/-- Inversion of a sequence that succeeded: both halves did. -/
theorem bind_eq_ok {b : β} (h : (x >>= g) f = (.ok b, f'')) :
    ∃ a f', x f = (.ok a, f') ∧ g a f' = (.ok b, f'') := by
  rw [bind_apply] at h
  cases hx : x f with
  | mk r f' =>
    rw [hx] at h
    cases r with
    | ok a => exact ⟨a, f', rfl, h⟩
    | error e => simp at h

/-- Inversion of a sequence that failed: its first or its second half did. -/
theorem bind_eq_error {e : Errno} (h : (x >>= g) f = (.error e, f'')) :
    x f = (.error e, f'') ∨ ∃ a f', x f = (.ok a, f') ∧ g a f' = (.error e, f'') := by
  cases hx : x f with
  | mk r f' =>
    cases r with
    | ok a => exact Or.inr ⟨a, f', rfl, by rwa [bind_ok hx] at h⟩
    | error e' =>
      rw [bind_error hx, Prod.mk.injEq, Except.error.injEq] at h
      exact Or.inl (by rw [h.1, h.2])

end FileM

/-- `base` with `moved` written over it from `start` on. -/
def overlay (base : List UInt8) (start : Nat) (moved : List UInt8) : List UInt8 :=
  base.take start ++ moved ++ base.drop (start + moved.length)

section

variable {base moved : List UInt8} {start : Nat}

@[simp] theorem overlay_nil (base : List UInt8) (start : Nat) : overlay base start [] = base := by
  simp [overlay]

theorem overlay_length (h : start + moved.length ≤ base.length) :
    (overlay base start moved).length = base.length := by
  simp [overlay]
  omega

theorem drop_overlay (h : start ≤ base.length) {off : Nat} (hoff : start + moved.length ≤ off) :
    (overlay base start moved).drop off = base.drop off := by
  have hpre : (base.take start ++ moved).length = start + moved.length := by
    simp
    omega
  rw [overlay, List.drop_append, hpre, List.drop_eq_nil_of_le (by rw [hpre]; exact hoff),
    List.nil_append, List.drop_drop]
  congr 1
  omega

theorem take_overlay (h : start ≤ base.length) {n : Nat} (hn : n ≤ start) :
    (overlay base start moved).take n = base.take n := by
  rw [overlay, List.append_assoc, List.take_append_of_le_length (by simp; omega), List.take_take,
    Nat.min_eq_left hn]

/-- Cut off at the end of the moved part, what is left is the kept bytes. -/
theorem take_overlay_end (h : start ≤ base.length) :
    (overlay base start moved).take (start + moved.length) = base.take start ++ moved := by
  rw [overlay, List.take_left' (by simp; omega)]

theorem write_overlay (h : start + moved.length ≤ base.length) (bytes : List UInt8) :
    OpenFile.write ⟨overlay base start moved, start + moved.length⟩ bytes
      = ⟨overlay base start (moved ++ bytes), start + (moved ++ bytes).length⟩ := by
  have hlen := overlay_length h
  have hgap : start + moved.length - (overlay base start moved).length = 0 := by omega
  rw [OpenFile.write]
  simp only [hgap, List.replicate_zero, List.append_nil, OpenFile.mk.injEq]
  refine ⟨?_, by simp; omega⟩
  rw [take_overlay_end (by omega), drop_overlay (by omega) (by omega), overlay]
  simp [Nat.add_assoc]

end

end Evlog.Lib
