/-
Evlog.Posix.Pack — the packers of evl_log_write.c.

A record's data is packed into a buffer of `POSIX_LOG_ENTRY_MAXLEN` bytes,
value by value. Each packer stores what there is room for at `d`, returns
the `d` behind it, and adds the whole size of the value to the record's
length, so that the length tells in the end whether everything did fit.
`d` is always behind the bytes stored so far, and the buffer is known here
by these bytes (`written`).

`size_t` is a 64-bit word and `int` a 32-bit one. No object has 2^62
bytes; a process has fewer addresses.
-/
import Evlog.Lib.CString
import Evlog.Lib.ByteCodec
import Evlog.Posix.Entry

namespace Evlog.Posix

open Evlog.Lib

/-! ## What is packed -/

/-- An object that `memcpy` may copy: its bytes. -/
structure Object where
  bytes : List UInt8
  size_lt : bytes.length < 2 ^ 62

/-- A `char *`. -/
structure CharPtr where
  string : CString
  size_lt : string.bytes.length + 1 < 2 ^ 62

def CharPtr.bytes (s : CharPtr) : List UInt8 := s.string.bytes ++ [0]

/-- A `wchar_t *`: the characters before the null character. -/
structure WcharPtr where
  chars : List UInt32
  noNul : 0 ∉ chars
  size_lt : 4 * (chars.length + 1) < 2 ^ 62

def WcharPtr.bytes (s : WcharPtr) : List UInt8 :=
  (s.chars ++ [0]).flatMap fun c : UInt32 => leBytes 4 c.toNat

theorem length_flatMap_leBytes (cs : List UInt32) :
    (cs.flatMap fun c => leBytes 4 c.toNat).length = 4 * cs.length := by
  induction cs with
  | nil => rfl
  | cons c cs ih =>
    rw [List.flatMap_cons, List.length_append, leBytes_length, ih, List.length_cons]
    omega

theorem WcharPtr.length_bytes (s : WcharPtr) : s.bytes.length = 4 * (s.chars.length + 1) := by
  rw [WcharPtr.bytes, length_flatMap_leBytes, List.length_append, List.length_singleton]

/-- What `packWstring` copies. -/
def WcharPtr.object (s : WcharPtr) : Object := ⟨s.bytes, s.length_bytes ▸ s.size_lt⟩

/-! ## The packers -/

/-- `POSIX_LOG_ENTRY_MAXLEN` as a `size_t`. -/
def maxlen : UInt64 := UInt64.ofNat posixLogEntryMaxlen

/-- The buffer, up to `d`, and `reclen`. -/
structure Packing where
  written : List UInt8
  reclen : UInt64
  deriving DecidableEq, Repr

def Packing.empty : Packing := ⟨[], 0⟩

/-- `d += memcpyex(d, src, n, &reclen)`. -/
def memcpyex (st : Packing) (src : Object) : Packing :=
  let rlen := st.reclen + UInt64.ofNat src.bytes.length
  if maxlen < rlen then
    if st.reclen ≤ maxlen then
      ⟨st.written ++ src.bytes.take (maxlen - st.reclen).toNat, rlen⟩
    else st
  else ⟨st.written ++ src.bytes, rlen⟩

def bytesLeft (reclen : UInt64) : Int32 := (maxlen - reclen).toUInt32.toInt32

/-- `d = packString(d, s, &reclen)`. In `slen <= bytesLeft` the `int` is
converted to a `size_t`. -/
def packString (st : Packing) (s : CharPtr) : Packing :=
  let slen := UInt64.ofNat s.string.bytes.length + 1
  let left := bytesLeft st.reclen
  let reclen := st.reclen + slen
  if slen ≤ left.toInt64.toUInt64 then ⟨st.written ++ s.bytes, reclen⟩
  else if 0 < left then
    ⟨st.written ++ (s.bytes.take (left.toInt - 1).toNat ++ [0]), reclen⟩
  else ⟨st.written, reclen⟩

/-- `d = packWstring(d, s, &reclen)`. -/
def packWstring (st : Packing) (s : WcharPtr) : Packing := memcpyex st s.object

/-- `COPYARGS`: the arguments as the little type has them. -/
def copyArgs (st : Packing) (values : List Object) : Packing := values.foldl memcpyex st

inductive PackOp where
  | memcpyex (src : Object)
  | packString (s : CharPtr)
  | packWstring (s : WcharPtr)
  | copyArgs (values : List Object)

def PackOp.exec (st : Packing) : PackOp → Packing
  | .memcpyex src => Posix.memcpyex st src
  | .packString s => Posix.packString st s
  | .packWstring s => Posix.packWstring st s
  | .copyArgs values => Posix.copyArgs st values

def packAll (ops : List PackOp) : Packing := ops.foldl PackOp.exec .empty

end Evlog.Posix
