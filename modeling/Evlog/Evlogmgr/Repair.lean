/-
Evlog.Evlogmgr.Repair — log repair of evlogmgr (evl_logmgmt.c).

`repairLog` walks the records from the first one on with `validateRec`.
At the first bad one it looks, byte by byte, for something that looks
like a record again (`searchForNextGoodRecord`) and slides everything
from there on up over the bad block, without validating it. Whenever that
fails it starts all over (`goto repair_again`), with what it has moved so
far left in the file.

Nothing bounds the number of restarts, so the function is a machine:
`repairStep` is one turn of the outer or of the inner loop. Lengths read
from a corrupt file keep their C types: `log_size` is a `size_t`; the size
behind a record is an `int` that is widened when it is compared; its place
is computed in 64 unsigned bits and taken as an `off_t`, so that it may lie
before the record or be negative, where `lseek` fails.

Offsets themselves stay below 2^62, and `validateRec` returns none below
4, since it has read the four bytes before the offset it returns.
-/
import Evlog.Lib.Machine
import Evlog.Evlogmgr.Compact

namespace Evlog.Evlogmgr

open Evlog.Lib Evlog.Posix

/-! ## Looking at one place of the file -/

/-- `lseek` to `pos` and `read` of up to `n` bytes. -/
def readAt (content : List UInt8) (pos n : Nat) : List UInt8 := (content.drop pos).take n

/-- `offset + log_size + REC_HDR_SIZE` as an `off_t`; `none` where it is
negative and `lseek` fails. -/
def sizeFieldPos (offset : Nat) (logSize : UInt64) : Option Nat :=
  let pos := Int.bmod ((offset + logSize.toNat + recHdrSize : Nat) : Int) (2 ^ 64)
  if 0 ≤ pos then some pos.toNat else none

/-- `(log_size + REC_HDR_SIZE) == recsize`: the `int` is widened to a
`size_t` with its sign. -/
def sizeMatches (logSize : UInt64) (recsize : Int) : Bool :=
  ((logSize.toNat + recHdrSize : Nat) : Int) % 2 ^ 64 == recsize % 2 ^ 64

/-- `validateRec`: the offset of the next record, or `none` for -1. -/
def validateRec (content : List UInt8) (offset : Nat) : Option Nat :=
  let rechdr := readAt content offset recHdrSize
  if rechdr.length ≠ recHdrSize then none
  else
    let entry := PosixLogEntry.ofBytes rechdr
    match sizeFieldPos offset entry.logSize with
    | none => none
    | some pos =>
      let bytes := readAt content pos sizeSize
      if bytes.length ≠ sizeSize then none
      else if entry.logMagic &&& 0xffff0000 = logrecMagicHiword
          ∧ sizeMatches entry.logSize (leInt bytes) then
        some (offset + leInt bytes + sizeSize).toNat
      else none

/-- What `searchForNextGoodRecord` finds at one offset. -/
inductive Probe where
  /-- A read was short: the search is over. -/
  | stop
  /-- A good record. -/
  | found
  /-- Nothing: try the next byte. -/
  | next
  deriving DecidableEq, Repr

/-- Where `log_size` lies in a record header. -/
def logSizeOffset : Nat := 8

/-- One turn of the search. When the `lseek` to the trailing size fails
the size is read from where the file stands, behind `log_size`. -/
def probe (content : List UInt8) (offset : Nat) : Probe :=
  let magic := readAt content offset 4
  if magic.length ≠ 4 then .stop
  else if UInt32.ofNat (leNat magic) &&& 0xffff0000 = logrecMagicHiword then
    let size := readAt content (offset + logSizeOffset) 8
    if size.length ≠ 8 then .stop
    else
      let logSize := UInt64.ofNat (leNat size)
      let pos := (sizeFieldPos offset logSize).getD (offset + logSizeOffset + 8)
      let bytes := readAt content pos sizeSize
      if bytes.length ≠ sizeSize then .stop
      else if sizeMatches logSize (leInt bytes) then .found
      else .next
  else .next

/-- The search over the next `n` offsets. -/
def searchFrom (content : List UInt8) : Nat → Nat → Option Nat
  | 0, _ => none
  | n + 1, offset =>
    match probe content offset with
    | .stop => none
    | .found => some offset
    | .next => searchFrom content n (offset + 1)

/-- `searchForNextGoodRecord`. At the end of the file the read of a magic
is short, so the offsets up to there are all there are. -/
def searchForNextGoodRecord (content : List UInt8) (offset : Nat) : Option Nat :=
  searchFrom content (content.length - offset) offset

/-! ## The machine -/

/-- Which of the two loops the control is in. -/
inductive RepairPc where
  | outer
  | inner
  deriving DecidableEq, Repr

structure RepairState where
  pc : RepairPc
  content : List UInt8
  /-- `st.st_size`, taken once. -/
  stSize : Nat
  offset : Nat
  beginhole : Nat
  bytesToProcess : Int
  status : Bool
  deriving DecidableEq, Repr

/-- How `repairLog` returns: 0 with the file and `*status`, or `EIO`. -/
inductive RepairEnd where
  | done (content : List UInt8) (status : Bool)
  | eio (content : List UInt8)
  deriving DecidableEq, Repr

/-- The file when `repairLog` returns. -/
def RepairEnd.content : RepairEnd → List UInt8
  | .done content _ => content
  | .eio content => content

/-- The label `repair_again`. -/
def repairAgain (content : List UInt8) (stSize : Nat) (status : Bool) : RepairState :=
  { pc := .outer, content := content, stSize := stSize, offset := logHeaderSize, beginhole := 0
    bytesToProcess := (stSize : Int) - logHeaderSize, status := status }

/-- Behind the loops: the file is cut off at the hole, if there is one. -/
def repairFinish (s : RepairState) : RepairEnd :=
  if 0 < s.beginhole then .done (s.content.take s.beginhole) s.status
  else .done s.content s.status

/-- One turn: where it leads, and the file after each write it made. -/
def repairStep (s : RepairState) : (RepairState ⊕ RepairEnd) × List (List UInt8) :=
  match s.pc with
  | .outer =>
    if 0 < s.bytesToProcess then
      match validateRec s.content s.offset with
      | some next =>
        (.inl { s with offset := next, bytesToProcess := s.bytesToProcess - (next - s.offset) },
          [])
      | none =>
        match searchForNextGoodRecord s.content s.offset with
        | none =>
          -- can't find another good record
          let e := repairFinish { s with beginhole := s.offset, status := true }
          (.inr e, [e.content])
        | some next =>
          (.inl { s with pc := .inner, beginhole := s.offset, offset := next, status := true
                         bytesToProcess := s.bytesToProcess - (next - s.offset) }, [])
    else (.inr (repairFinish s), [(repairFinish s).content])
  | .inner =>
    if 0 < s.bytesToProcess then
      let rechdr := readAt s.content s.offset recHdrSize
      if rechdr.length ≠ recHdrSize then (.inr (.eio s.content), [])
      else
        let reclen := getRecLen (PosixLogEntry.ofBytes rechdr)
        if reclen = -1 then (.inl (repairAgain s.content s.stSize s.status), [])
        else
          match moveRecordUp ⟨s.content, s.offset + recHdrSize⟩ s.beginhole rechdr none with
          | none => (.inl (repairAgain s.content s.stSize s.status), [])
          | some (file, beginhole, trail) =>
            (.inl { s with content := file.content, beginhole := beginhole.toNat
                           offset := (s.offset + reclen.toInt).toNat
                           bytesToProcess := s.bytesToProcess - reclen.toInt }, trail)
    else (.inl { s with pc := .outer }, [])

def repairTurn (s : RepairState) : RepairState ⊕ RepairEnd := (repairStep s).1

/-- The first state of `repairLog` on a file that is not empty. -/
def repairStart (content : List UInt8) : RepairState :=
  repairAgain content content.length false

/-- `repairLog` returns, and how. -/
inductive RepairReturns (content : List UInt8) : RepairEnd → Prop
  | empty (h : content.length = 0) : RepairReturns content (.eio content)
  | machine {e : RepairEnd} (hne : content.length ≠ 0)
      (h : Machine.Returns repairTurn (repairStart content) e) : RepairReturns content e

/-! ## `evl_repair_log` -/

/-- What the file contained after each write of the first `n` turns, and
how the function has returned, if it has. -/
def repairTrail : Nat → RepairState → List (List UInt8) × Option RepairEnd
  | 0, _ => ([], none)
  | n + 1, s =>
    match repairStep s with
    | (.inl s', trail) => (trail ++ (repairTrail n s').1, (repairTrail n s').2)
    | (.inr e, trail) => (trail, some e)

/-- `evl_repair_log` from the point on where the log is open and locked:
the file after each write made in so many turns. Only a repair that has
succeeded touches the generation number, and makes it even. -/
def evlRepairLog (turns : Nat) (content : List UInt8) : List (List UInt8) :=
  if content.length = 0 then []
  else
    match repairTrail turns (repairStart content) with
    | (trail, some (.done out _)) =>
      match setGenerationNumber .GEN_EVEN out with
      | some even => trail ++ [even]
      | none => trail
    | (trail, _) => trail

end Evlog.Evlogmgr
