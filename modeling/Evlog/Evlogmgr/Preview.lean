/-
Evlog.Evlogmgr.Preview — how many records a compaction would delete
(countRecsForDeletion in evl_logmgmt.c).

`countRecsForDeletion` walks the log as `compactLog` does and asks the
same two questions of each record, but it buffers a record differently: it
reads the data alone, without the size behind it, and nothing at all for a
record without data. The rest of the buffer keeps what earlier records
left in it. So the string a question is asked about may run on into an
earlier record.

A query knows a record by its header and by the string at its data
(`evaluateTree_string`). `varbuf` is the memory from the buffer on. The
sizes in a corrupt log may lead the walk back, so it is a machine. A
`size_t` is taken as the signed number of the same bits.
-/
import Evlog.Lib.Machine
import Evlog.Evlogmgr.CompactTheorems
import Evlog.Query.Evaluate

namespace Evlog.Evlogmgr

open Evlog.Lib Evlog.Posix Evlog.Query

/-- The evaluation of a query on a record's header and the string at its
data. -/
abbrev StringQuery := PosixLogEntry → List UInt8 → Bool

/-- The string at the record's data as `compactLog` has it: its buffer
holds the size behind the data, which ends the string at the latest. -/
def StringQuery.onRecord (query : StringQuery) : QueryEval := fun entry data =>
  query entry (cBytesAt (data ++ leBytes sizeSize (recHdrSize + data.length)))

/-! ## `countRecsForDeletion` -/

/-- The test for one record: it matches the query, and is not the message
that was logged, if there is one. -/
def countsForDeletion (query : StringQuery) (logmgmtMsg : List UInt8) (entry : PosixLogEntry)
    (varbuf : List UInt8) : Bool :=
  query entry (cBytesAt varbuf) && (logmgmtMsg.isEmpty || cBytesAt varbuf != logmgmtMsg)

structure CountState where
  offset : Int
  bytesToProcess : Int
  varbuf : List UInt8
  delcnt : Nat
  nbytes : Int
  deriving DecidableEq, Repr

/-- What one turn reads: the header, `varbuf` afterwards and the size
behind the record; `none` is `EIO`. -/
def readForCount (content : List UInt8) (offset : Int) (varbuf : List UInt8) :
    Option (PosixLogEntry × List UInt8 × Int) := do
  let f ← OpenFile.lseek ⟨content, 0⟩ offset .SEEK_SET
  let (hdr, f) := f.read recHdrSize
  if hdr.length ≠ recHdrSize then none
  else
    let rechdr := PosixLogEntry.ofBytes hdr
    let (varbuf, f) ←
      if 0 < rechdr.logSize.toNat ∧ rechdr.logSize.toNat ≤ posixLogEntryMaxlen then
        let (data, f) := f.read rechdr.logSize.toNat
        if data.length ≠ rechdr.logSize.toNat then none
        else some (data ++ varbuf.drop data.length, f)
      else some (varbuf, f)
    let (size, _) := f.read sizeSize
    if size.length ≠ sizeSize then none
    else
      let evlrecsize := leInt size
      if (Int64.ofInt evlrecsize).toUInt64 ≠ UInt64.ofNat recHdrSize + rechdr.logSize then none
      else some (rechdr, varbuf, evlrecsize)

/-- One turn of the loop, or its end: the two counts, or the error. -/
def countStep (query : StringQuery) (logmgmtMsg content : List UInt8) (c : CountState) :
    CountState ⊕ Except Errno (Nat × Int) :=
  if c.bytesToProcess = 0 then .inr (.ok (c.delcnt, c.nbytes))
  else
    match readForCount content c.offset c.varbuf with
    | none => .inr (.error .eio)
    | some (rechdr, varbuf, evlrecsize) =>
      let counted := countsForDeletion query logmgmtMsg rechdr varbuf
      .inl
        { offset := c.offset + (evlrecsize + sizeSize)
          bytesToProcess := c.bytesToProcess - (evlrecsize + sizeSize)
          varbuf := varbuf
          delcnt := if counted then c.delcnt + 1 else c.delcnt
          nbytes :=
            if counted then c.nbytes + (recHdrSize + rechdr.logSize.toInt64.toInt + sizeSize)
            else c.nbytes }

/-- What `countRecsForDeletion` returns. -/
inductive CountRecsForDeletion (query : StringQuery) (logmgmtMsg varbuf content : List UInt8) :
    Except Errno (Nat × Int) → Prop
  | empty (h : content.length = 0) :
      CountRecsForDeletion query logmgmtMsg varbuf content (.error .ebadf)
  | walked (ret : Except Errno (Nat × Int)) (h : content.length ≠ 0)
      (hloop : Machine.Returns (countStep query logmgmtMsg content)
        ⟨logHeaderSize, (content.length : Int) - logHeaderSize, varbuf, 0, 0⟩ ret) :
      CountRecsForDeletion query logmgmtMsg varbuf content ret

/-! ## The string at the data -/

theorem cBytesAt_cBytesAt (buf : List UInt8) : cBytesAt (cBytesAt buf) = cBytesAt buf := by
  unfold cBytesAt
  rw [List.takeWhile_takeWhile]
  simp

theorem cString_cBytesAt (buf : List UInt8) : cString (cBytesAt buf) = cString buf := by
  have h : (cBytesAt buf).takeWhile (· ≠ 0) = buf.takeWhile (· ≠ 0) := cBytesAt_cBytesAt buf
  unfold cString
  rw [h]

theorem evaluateStdComparison_string (sys : Query.System) (entry : PosixLogEntry) (buf : List UInt8) (op : Op)
    (sel : Selector) (right : PNode) :
    evaluateStdComparison ⟨sys, entry, buf⟩ op sel right
      = evaluateStdComparison ⟨sys, entry, cBytesAt buf⟩ op sel right := by
  have htext : stdAttText ⟨sys, entry, buf⟩ sel = stdAttText ⟨sys, entry, cBytesAt buf⟩ sel := by
    cases sel <;> simp only [stdAttText, cString_cBytesAt]
  have hval : ∀ uval, compareStdWithVal ⟨sys, entry, buf⟩ op uval sel
      = compareStdWithVal ⟨sys, entry, cBytesAt buf⟩ op uval sel := by
    intro uval
    cases sel <;> rfl
  cases right <;> simp only [evaluateStdComparison, htext, hval]

/-- Of the buffer, the evaluation of a tree without non-standard
attributes looks at the string that begins it. -/
theorem evaluateTree_string (sys : Query.System) (entry : PosixLogEntry) (buf : List UInt8) (tree : PNode) :
    evaluateTree ⟨sys, entry, buf⟩ [] none tree = evaluateTree ⟨sys, entry, cBytesAt buf⟩ [] none tree := by
  induction tree with
  | op a o l r ihl ihr =>
    cases o with
    | and => simp only [evaluateTree, ihl, ihr]
    | or => simp only [evaluateTree, ihl, ihr]
    | not => simp only [evaluateTree, ihl]
    | _ =>
      cases l with
      | attname b sel s => exact evaluateStdComparison_string sys entry buf _ sel r
      | _ => rfl
  | _ => rfl

end Evlog.Evlogmgr
