/-
Evlog.Util.FmtBuf — format buffers, and what writes to them.

A record is formatted piece by piece into a buffer of the caller's, which
may be too small. `fb_next` goes on behind the end of the buffer then, so
that in the end it says how much room there should have been.

What `vsnprintf` makes of a format and its arguments does not depend on the
buffer: it is an `Outcome`. A piece of formatting is an `Op`, and `Op.exec`
what the code does to the buffer for it; where the code goes outside the
buffer, or an assertion of it fails, there is no state after it.
-/
import Evlog.Lib.CString
import Evlog.Lib.OpenFile
import Evlog.Lib.TextBuffer

namespace Evlog.Util

open Evlog.Lib

/-! ## The buffer -/

/-- `evl_fmt_buf_t`. `next` counts from `fb_buf`, and `fb_end` is the end of
`buf`. -/
structure FmtBuf where
  buf : List UInt8
  next : Int
  oflow : Bool
  deriving DecidableEq, Repr

/-- `_evlMakeFmtBuf`. No buffer is an empty one, and `fb_dummy` takes its
place. -/
def makeFmtBuf : List UInt8 → FmtBuf
  | [] => { buf := [0], next := 0, oflow := true }
  | _ :: rest => { buf := 0 :: rest, next := 0, oflow := false }

def FmtBuf.store (f : FmtBuf) (pos : Int) (bytes : List UInt8) : Option FmtBuf :=
  if 0 ≤ pos ∧ pos + bytes.length ≤ f.buf.length then
    some { f with buf := overlay f.buf pos.toNat bytes }
  else none

def FmtBuf.room (f : FmtBuf) : Int := f.buf.length - f.next

/-- `strlen(f->fb_next)`, if that is inside. -/
def FmtBuf.strlenNext (f : FmtBuf) : Option Nat :=
  if 0 ≤ f.next ∧ 0 ∈ f.buf.drop f.next.toNat then
    some (untilNull (f.buf.drop f.next.toNat)).length
  else none

/-- A conversion to `int`. -/
def toInt (x : Int) : Int := Int.bmod x 4294967296

/-- A conversion to `size_t`. -/
def sizeT (x : Int) : Nat := (x % 18446744073709551616).toNat

/-- `writeThisMuch`, an `int`, as the size that is passed on. -/
def writeSize (room : Int) : Nat := if room ≤ 1 then 4 else sizeT (toInt room)

/-! ## `_evlBprintf` -/

/-- Bytes that an `int` can count. -/
abbrev Bytes := {bs : List UInt8 // bs.length < 2 ^ 31}

/-- What `vsnprintf` makes of a format and its arguments: a text of a length it
can return, or, when it fails, some bytes that it has written before. -/
inductive Outcome where
  | text (t : Bytes)
  | failed (written : Bytes)

/-- A text that was put together, `%s` of it. -/
def Outcome.ofBytes (t : List UInt8) : Outcome :=
  if h : t.length < 2 ^ 31 then .text ⟨t, h⟩ else .failed ⟨[], by decide⟩

/-- What is returned, and what is written to a buffer of the size. -/
def vsnprintf (o : Outcome) (size : Nat) : Int × List UInt8 :=
  match o with
  | .text t => (t.val.length, if size = 0 then [] else t.val.take (size - 1) ++ [0])
  | .failed written => (-1, written.val.take size)

/-- The end of `_evlBprintf`: `fb_next` is moved, and where that takes it too
far, the buffer is ended. -/
def advance (n room : Int) (f : FmtBuf) : Option FmtBuf :=
  if toInt (n + 1) > room then
    ({ f with next := f.next + n, oflow := true } : FmtBuf).store (f.buf.length - 1) [0]
  else some { f with next := f.next + n }

/-- `_evlBprintf`, from where `vsnprintf` has returned `n`. -/
def bprintfFrom (n room : Int) (f : FmtBuf) : Option FmtBuf :=
  if n < 0 then (f.store f.next [0]).bind (advance 0 room) else advance n room f

/-- `_evlBprintf`. With no room it is written to the scratch pad. -/
def bprintf (o : Outcome) (f : FmtBuf) : Option FmtBuf :=
  let printed := vsnprintf o (writeSize f.room)
  if f.room ≤ 1 then bprintfFrom printed.1 f.room f
  else (f.store f.next printed.2).bind (bprintfFrom printed.1 f.room)

def bprintfAll (os : List Outcome) (f : FmtBuf) : Option FmtBuf :=
  os.foldlM (fun f o => bprintf o f) f

/-! ## `_evlDumpBytesToFmtBuf` -/

/-- `hexDigits`. -/
def hexDigit (n : Nat) : UInt8 := if n < 10 then UInt8.ofNat (48 + n) else UInt8.ofNat (55 + n)

/-- A byte as two digits and a blank, and no byte as three blanks. -/
def byteCell : Option UInt8 → List UInt8
  | some b => [hexDigit (b.toNat / 16), hexDigit (b.toNat % 16), 32]
  | none => [32, 32, 32]

def format8bytes (cells : List UInt8) : List UInt8 :=
  (List.range 8).flatMap fun i => byteCell cells[i]?

/-- A byte as the character that it is, if it can be printed. -/
def charCell : Option UInt8 → UInt8
  | some b => if 32 ≤ b ∧ b < 127 then b else 46
  | none => 32

def format8chars (cells : List UInt8) : List UInt8 :=
  (List.range 8).map fun i => charCell cells[i]?

/-- `%08X`. -/
def hex8 (n : Nat) : List UInt8 :=
  (List.range 8).map fun i => hexDigit (n / 16 ^ (7 - i) % 16)

/-- `formatDumpLine`, of at most sixteen bytes. -/
def formatDumpLine (cells : List UInt8) (offset : Nat) : List UInt8 :=
  hex8 offset ++ [32] ++ format8bytes cells ++ [32] ++ format8bytes (cells.drop 8) ++ [124, 32]
    ++ format8chars cells ++ [32] ++ format8chars (cells.drop 8)

/-- The loop of `_evlDumpBytes`: the lines from an offset on. -/
def dumpLines (data : List UInt8) (offset : Nat) : List UInt8 :=
  if data = [] then []
  else formatDumpLine (data.take 16) offset ++ [10] ++ dumpLines (data.drop 16) (offset + 16)
termination_by data.length
decreasing_by
  have := List.length_pos_iff.mpr ‹_›
  rw [List.length_drop]
  omega

def dumpText (data : List UInt8) : List UInt8 := (dumpLines data 0).dropLast

def reqBufLen (nBytes : Nat) : Nat := (nBytes + 15) / 16 * 78

/-- Where to write: no buffer, though `buflen` says something, or a buffer
of that size. -/
inductive Dest where
  | null (buflen : Nat)
  | mem (buf : List UInt8)
  deriving DecidableEq, Repr

def Dest.buflen : Dest → Nat
  | .null buflen => buflen
  | .mem buf => buf.length

inductive DumpStatus where
  | ok
  | einval
  | emsgsize
  deriving DecidableEq, Repr

/-- What the caller has after a call. -/
structure Dumped where
  status : DumpStatus
  reqlen : Nat
  dest : Dest
  deriving DecidableEq, Repr

/-- `nLines * (DUMPLINELEN + 1)` as a `size_t`, if the product is an
`int`. -/
def intReqBufLen (nBytes : Nat) : Option Nat :=
  let nLines := toInt ((nBytes + 15) / 16 : Nat)
  if -2 ^ 31 ≤ nLines * 78 ∧ nLines * 78 < 2 ^ 31 then some (sizeT (nLines * 78)) else none

/-- `_evlDumpBytes`. There is nothing after a call that goes beyond the
buffer, or beyond what an `int` can be. -/
def evlDumpBytes (data : Option (List UInt8)) (dest : Dest) : Option Dumped :=
  match data with
  | none => some { status := .einval, reqlen := 0, dest }
  | some data =>
    if data = [] then some { status := .einval, reqlen := 0, dest }
    else do
      let reqlen ← intReqBufLen data.length
      if dest.buflen < reqlen then some { status := .emsgsize, reqlen, dest }
      else
        match dest with
        | .null _ => some { status := .einval, reqlen, dest }
        | .mem buf =>
          if (dumpText data).length + 1 ≤ buf.length then
            some { status := .ok, reqlen, dest := .mem (overlay buf 0 (dumpText data ++ [0])) }
          else none

/-- `_evlDumpBytesForce`, with a buffer and with somewhere to put the
length. What does not fit is dumped to a buffer of its own, with anything
in it, and the beginning of that is copied. -/
def dumpBytesForce (data : Option (List UInt8)) (buf : List UInt8) : Option Dumped := do
  let r ← evlDumpBytes data (.mem buf)
  if r.status = .emsgsize then
    let again ← evlDumpBytes data (.mem (List.replicate r.reqlen 0))
    match again.status, again.dest, buf with
    | .ok, .mem mybuf, _ :: _ =>
      some { again with
        reqlen := r.reqlen, dest := .mem (mybuf.take (buf.length - 1) ++ [0]) }
    | _, _, _ => none
  else some r

def Dest.bytes : Dest → List UInt8
  | .null _ => []
  | .mem buf => buf

def dumpBytesToFmtBuf (data : List UInt8) (f : FmtBuf) : Option FmtBuf := do
  let room := f.room
  let writeThisMuch := writeSize room
  -- the memory from `fb_next` on, or the scratch pad
  let writeHere := (f.buf.drop f.next.toNat ++ List.replicate writeThisMuch 0).take writeThisMuch
  let r ← dumpBytesForce (some data) writeHere
  if r.status ≠ .ok then none
  else
    let f ← if room ≤ 1 then some f else f.store f.next (r.dest.bytes.take r.reqlen)
    -- `roomNeeded` has no sign, and so `room` is compared as if it had none
    if r.reqlen > sizeT room then
      let f ← ({ f with oflow := true } : FmtBuf).store (f.buf.length - 1) [0]
      some { f with next := f.next + r.reqlen }
    else
      let len ← f.strlenNext
      some { f with next := f.next + len }

/-! ## Records of the printf kind -/

/-- What `_evlFormatPrintfRec` makes of the data of a record. -/
inductive PrintfRec where
  /-- There are no data, or no format in them that can be parsed. -/
  | bad
  /-- The pieces that are formatted, and whether the loop is left early then. -/
  | parsed (pieces : List Outcome) (failed : Bool)

/-- `elidePrintkSeverities`, from the start of a line or from the midst of it. -/
def elidePrintkSeverities : Bool → List UInt8 → List UInt8
  | true, 60 :: d :: 62 :: rest =>
    if 48 ≤ d ∧ d ≤ 55 then elidePrintkSeverities false rest
    else 60 :: elidePrintkSeverities false (d :: 62 :: rest)
  | _, [] => []
  | _, c :: rest => c :: elidePrintkSeverities (c == 10) rest

/-- The text without its last character, if that is a newline. -/
def chomp (t : List UInt8) : List UInt8 := if t.getLast? = some 10 then t.dropLast else t

def printkText (t : List UInt8) : List UInt8 := elidePrintkSeverities true (untilNull (chomp t))

/-- `_evlFormatPrintfRec`: the buffer, and `*reqlen`. -/
def evlFormatPrintfRec (r : PrintfRec) (buf : List UInt8) (printk : Bool) :
    Option (List UInt8 × Nat) :=
  match r with
  | .bad => some (buf, 0)
  | .parsed pieces failed => do
    let f ← bprintfAll pieces (makeFmtBuf buf)
    if failed then some (f.buf, 0)
    else
      let myreqlen := (1 + f.next).toNat
      if f.oflow then some (f.buf, myreqlen)
      else if printk then
        let buf := if myreqlen > 1 ∧ f.buf[myreqlen - 2]? = some 10 then f.buf.set (myreqlen - 2) 0
          else f.buf
        let s := elidePrintkSeverities true (untilNull buf)
        some (overlay buf 0 (s ++ [0]), s.length + 1)
      else some (f.buf, myreqlen)

def formatPrintfRecIntoFmtBuf (r : PrintfRec) (printk : Bool) (f : FmtBuf) : Option FmtBuf :=
  if f.room ≤ 0 then some f
  else if f.next < 0 then none
  else do
    let (sub, reqlen) ← evlFormatPrintfRec r (f.buf.drop f.next.toNat) printk
    let next := f.next + ((reqlen : Int) - 1)
    some { buf := f.buf.take f.next.toNat ++ sub, next, oflow := f.buf.length ≤ next }

/-! ## Attributes -/

/-- The loop of `formatArrayOfScalars` from the second element on. -/
def formatScalarsLoop (delimiter : Outcome) : List Outcome → FmtBuf → Option FmtBuf
  | [], f => some f
  | o :: os, f => do
    let f ← bprintf delimiter f
    let f ← bprintf o f
    formatScalarsLoop delimiter os f

def formatArrayOfScalars (delimiter : Outcome) (elements : List Outcome) (f : FmtBuf) :
    Option FmtBuf :=
  match elements with
  | [] => some f
  | o :: os => do
    let f ← bprintf o f
    formatScalarsLoop delimiter os f

/-- `tmpl_bitmap_t`. -/
structure Bitmap where
  name : List UInt8
  ones : BitVec 64
  zeros : BitVec 64

/-- `%ld`. -/
def signedText (v : BitVec 64) : List UInt8 :=
  if v.toInt < 0 then 45 :: CString.decimal v.toInt.natAbs else CString.decimal v.toInt.natAbs

/-- `%lx`. -/
def hexText (n : Nat) : List UInt8 := (Nat.toDigits 16 n).map fun c => c.toNat.toUInt8

/-- The call of `TMPL_AFS_VALNM`: the name of the value, or the value. -/
def valnm (val : BitVec 64) (maps : List Bitmap) : Outcome :=
  match maps.find? (fun bmap => val == bmap.ones) with
  | some bmap => .ofBytes bmap.name
  | none => .ofBytes (signedText val)

/-- The calls of the loop of `TMPL_AFS_BITMAP`. `bar` are the bits already
reported. -/
def bitmapLoop (val : BitVec 64) : List Bitmap → BitVec 64 → List Outcome
  | [], bar => if bar = 0 then [] else [.ofBytes [41]]
  | bmap :: maps, bar =>
    if (bar ||| bmap.ones ||| bmap.zeros) = bar then bitmapLoop val maps bar
    else if val &&& bmap.ones = bmap.ones ∧ val &&& bmap.zeros = 0 then
      .ofBytes [if bar = 0 then 40 else 124] :: .ofBytes bmap.name
        :: bitmapLoop val maps (bar ||| (bmap.ones ||| bmap.zeros))
    else bitmapLoop val maps bar

/-- The calls of `TMPL_AFS_BITMAP`. -/
def bitmap (val : BitVec 64) (maps : List Bitmap) : List Outcome :=
  .ofBytes ([48, 120] ++ hexText val.toNat) :: bitmapLoop val maps 0

/-! ## Everything that is formatted -/

/-- A piece of formatting: a call of `_evlBprintf`, a dump, a record of the
printf kind, an attribute that is a scalar, an array, a bitmap, a struct or an
array of structs. The segments of a record are a list of them. -/
inductive Op where
  | bprintf (o : Outcome)
  | dump (data : List UInt8)
  | printfRec (r : PrintfRec) (printk : Bool)
  | scalars (delimiter : Outcome) (elements : List Outcome)
  | bitmap (val : BitVec 64) (maps : List Bitmap)
  | record (segments : List Op)
  | structs (delimiter : Outcome) (fmt : Nat → List UInt8 → Outcome) (elements : List (List Op))

/-- `SCRATCH_PAD_SIZE` of tmplfmt.c. -/
def scratchPadSize : Nat := 4 * 1024

/-- `bufsz` of `formatArrayOfStructs`. -/
def structBufsz (room : Int) : Nat := if room > scratchPadSize then room.toNat else scratchPadSize

/-- The temporary buffer after a struct that was too big for it, padded with
Xs. -/
def padWithXs (st : FmtBuf) : Option (List UInt8) :=
  let bufsz := st.buf.length
  let reqlen := st.next.toNat
  if reqlen < bufsz then none
  else some (st.buf.take (bufsz - 1) ++ List.replicate (reqlen - bufsz) 88 ++ [0])

def delimit (i : Nat) (delimiter : Outcome) (f : FmtBuf) : Option FmtBuf :=
  if i = 0 then some f else bprintf delimiter f

section

-- what is in memory that was just allocated
variable (malloc : (n : Nat) → {bs : List UInt8 // bs.length = n})

mutual

def Op.exec : Op → FmtBuf → Option FmtBuf
  | .bprintf o, f => Util.bprintf o f
  | .dump data, f => dumpBytesToFmtBuf data f
  | .printfRec r printk, f => formatPrintfRecIntoFmtBuf r printk f
  | .scalars delimiter elements, f => formatArrayOfScalars delimiter elements f
  | .bitmap val maps, f => bprintfAll (Util.bitmap val maps) f
  | .record segments, f => formatRecord segments f
  | .structs delimiter fmt elements, f =>
    formatStructsLoop delimiter fmt elements 0 (malloc (structBufsz f.room)).val f

def formatRecord : List Op → FmtBuf → Option FmtBuf
  | [], f => some f
  | op :: ops, f =>
    match op.exec f with
    | none => none
    | some f => formatRecord ops f

/-- The loop of `formatArrayOfStructs`. -/
def formatStructsLoop (delimiter : Outcome) (fmt : Nat → List UInt8 → Outcome) :
    List (List Op) → Nat → List UInt8 → FmtBuf → Option FmtBuf
  | [], _, _, f => some f
  | st :: sts, i, buf, f =>
    match formatRecord st (makeFmtBuf buf) with
    | none => none
    | some stbuf => do
      let buf ← if stbuf.oflow then padWithXs stbuf else some stbuf.buf
      let f ← delimit i delimiter f
      let f ← Util.bprintf (fmt i (untilNull buf)) f
      formatStructsLoop delimiter fmt sts (i + 1) buf f

end

end

end Evlog.Util
