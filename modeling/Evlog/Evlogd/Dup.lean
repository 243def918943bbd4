/-
Evlog.Evlogd.Dup — how evlogd.c discards duplicate events.

The daemon reads every event into a free slot of one buffer, `buf`. With
duplicate discarding on, each log remembers up to `dup_array_size` events
in `dup_recs_array`; an entry points into the slot its event was read
into, and that slot stays in use as long as the entry points there. An
event equal to a remembered one (`compareEventRecords`) is not logged but
counted in the entry. A "Discarded n duplicate events" record reports the
count: when it reaches `dup_count` or the entry is older than
`dup_interval`, when the entry is replaced or times out, and for all
entries when the configuration changes or the daemon stops.

A pointer into `buf` is the index of the slot, NULL is `none`. The loops
of the source run over arrays of exactly `dup_array_size` entries and
become recursions over lists. What the functions write through
`log_evl_rec` is returned as a list of `DupOutput`, in order; the record
ids `log_evl_rec` stores in the slots are left out, since
`compareEventRecords` does not look at them. Counts are natural numbers;
clock readings, `dup_count` and `dup_interval` are integers.

A malformed evlog.conf is not modelled. An event of more than
`POSIX_LOG_ENTRY_MAXLEN` data bytes runs over its slot: `slotStep` has what that
does to `in_use`, and does not follow the daemon any further.
-/
import Evlog.Lib.Transition
import Evlog.Evlogd.LogWrite

namespace Evlog.Evlogd

open Evlog.Lib Evlog.Posix

/-! ## State -/

/-- `dup_buffer_t`: a remembered event and its duplicates. -/
structure DupBuffer where
  recPtr : Option Nat
  dupCount : Nat
  bufIndex : Nat
  timeStart : Int
  deriving DecidableEq

/-- `event_buffer_t`: a slot of `buf`. -/
structure EventBuffer where
  event : LogRecord
  inUse : Bool

/-- The members of `log_info_t` for discarding duplicates. -/
structure DupLog where
  dupCount : Nat
  dupRecsArray : Option (List DupBuffer)

/-- The globals of evlogd.c for discarding duplicates, the static
`equality_index` of `dropDupRecord` included. `buf_size` is the length of
`buf`. -/
structure DupState where
  buf : List EventBuffer
  evlLog : DupLog
  pvtLog : DupLog
  dupCount : Int
  dupInterval : Int
  dupArraySize : Nat
  disDupRecs : Bool
  equalityIndex : Int

/-- What the dup machinery has written through `log_evl_rec`: an event it
received, or a discard event for `count` duplicates of `kept`. The record
`kept` itself does not get into the log, only the facility and event type
the code passes on do. -/
inductive DupOutput where
  | logEvlRec (l : LogId) (rec : LogRecord)
  | writeDiscardEvent (l : LogId) (facNum : UInt32) (eventType : Int32) (count : Nat)
      (kept : LogRecord)

/-- A slot, an entry and a log as `calloc` and `memset` leave them. -/
def zeroRecord : LogRecord :=
  { entry := PosixLogEntry.ofBytes [], data := [], size_eq := List.length_nil, size_le := Nat.zero_le _ }

def zeroSlot : EventBuffer := { event := zeroRecord, inUse := false }

def zeroEntry : DupBuffer := { recPtr := none, dupCount := 0, bufIndex := 0, timeStart := 0 }

def zeroLog : DupLog := { dupCount := 0, dupRecsArray := none }

namespace DupState

def linfo (s : DupState) : LogId → DupLog
  | .evlLog => s.evlLog
  | .pvtLog => s.pvtLog

def setLinfo (s : DupState) (l : LogId) (linfo : DupLog) : DupState :=
  match l with
  | .evlLog => { s with evlLog := linfo }
  | .pvtLog => { s with pvtLog := linfo }

end DupState

/-- The record a pointer into `buf` points to. -/
def recAt (buf : List EventBuffer) (rec : Option Nat) : LogRecord :=
  match rec with
  | none => zeroRecord
  | some i => ((buf[i]?).map EventBuffer.event).getD zeroRecord

/-- `buf[i].in_use = inUse`. -/
def setInUse (buf : List EventBuffer) (i : Nat) (inUse : Bool) : List EventBuffer :=
  buf.modify i fun slot => { slot with inUse := inUse }

/-! ## Equal events -/

/-- `compareEventRecords` for two records that are there: everything but
magic, id and time stamp. -/
def compareEventRecords (crec prec : LogRecord) : Bool :=
  let chdr := crec.entry
  let phdr := prec.entry
  phdr.logSize == chdr.logSize && phdr.logEventType == chdr.logEventType
    && phdr.logFacility == chdr.logFacility && phdr.logSeverity == chdr.logSeverity
    && phdr.logPid == chdr.logPid && phdr.logUid == chdr.logUid && phdr.logGid == chdr.logGid
    && phdr.logPgrp == chdr.logPgrp && phdr.logFormat == chdr.logFormat
    && phdr.logFlags == chdr.logFlags && phdr.logThread == chdr.logThread
    && phdr.logProcessor == chdr.logProcessor
    && crec.data.take chdr.logSize.toNat == prec.data.take chdr.logSize.toNat

/-! ## One event -/

/-- `DEFAULT_DUP_TIMEOUT`, the value `dup_timeout` keeps. -/
def dupTimeout : Int := 180

/-- `compute_score`, whose result is an `int`. -/
def computeScore (s : DupState) (e : DupBuffer) (curTime : Int) : Int :=
  if e.recPtr = none then 0
  else if e.timeStart ≠ 0 ∧ curTime - e.timeStart > s.dupInterval then
    Int.bmod (e.timeStart + e.dupCount) (2 ^ 32)
  else if e.timeStart ≠ 0 then
    Int.bmod (e.timeStart + s.dupInterval + e.dupCount + s.dupCount) (2 ^ 32)
  else Int.bmod (2 * s.dupCount + curTime + s.dupInterval) (2 ^ 32)

/-- The entry remembers an event equal to `rhdr` that is not timed out. -/
def isDuplicate (s : DupState) (rhdr : LogRecord) (curTime : Int) (e : DupBuffer) : Bool :=
  decide (curTime - e.timeStart < dupTimeout)
    && match e.recPtr with
      | none => false
      | some i => compareEventRecords rhdr (recAt s.buf (some i))

/-- What the loop of `dropDupRecord` finds: a duplicate, or the entry to
replace and the `equality_flag`. -/
inductive LookbackResult where
  | duplicate (count : Nat)
  | replace (count : Nat) (equalityFlag : Bool)

/-- The loop of `dropDupRecord`, from entry `count` on. -/
def lookback (s : DupState) (rhdr : LogRecord) (curTime : Int) (replacePtr : Nat)
    (replaceScore : Int) (equalityFlag : Bool) (count : Nat) : List DupBuffer → LookbackResult
  | [] => .replace replacePtr equalityFlag
  | e :: rest =>
    let dupPtrScore := computeScore s e curTime
    if isDuplicate s rhdr curTime e then .duplicate count
    else if 0 < count ∧ dupPtrScore ≠ replaceScore then
      if dupPtrScore < replaceScore then
        lookback s rhdr curTime count dupPtrScore false (count + 1) rest
      else lookback s rhdr curTime replacePtr replaceScore false (count + 1) rest
    else lookback s rhdr curTime replacePtr replaceScore equalityFlag (count + 1) rest

/-- Write the discard event of an entry, under the facility and event
type of `rhdr`, and forget the entry. -/
def discard (buf : List EventBuffer) (l : LogId) (rhdr : LogRecord) (e : DupBuffer) :
    List EventBuffer × DupBuffer × DupOutput :=
  (setInUse buf e.bufIndex false,
    { e with recPtr := none, dupCount := 0, timeStart := 0 },
    .writeDiscardEvent l rhdr.entry.logFacility rhdr.entry.logEventType e.dupCount
      (recAt buf e.recPtr))

/-- A duplicate of entry `count` of `dup_recs_array`. -/
def countDuplicate (s : DupState) (l : LogId) (rhdr : LogRecord) (curTime : Int)
    (entries : List DupBuffer) (count : Nat) (e : DupBuffer) : DupState × List DupOutput :=
  let e := { e with dupCount := e.dupCount + 1 }
  let logCount := (s.linfo l).dupCount + 1
  if (e.dupCount : Int) = s.dupCount ∨ curTime - e.timeStart ≥ s.dupInterval then
    let (buf, e', out) := discard s.buf l rhdr e
    (({ s with buf := buf }).setLinfo l
      { dupCount := logCount - e.dupCount, dupRecsArray := some (entries.set count e') }, [out])
  else
    (s.setLinfo l { dupCount := logCount, dupRecsArray := some (entries.set count e) }, [])

/-- Replace entry `count` of `dup_recs_array` by the event in slot
`bufIndex`. -/
def replaceEntry (s : DupState) (l : LogId) (bufIndex : Nat) (curTime : Int)
    (entries : List DupBuffer) (count : Nat) (e : DupBuffer) : DupState × List DupOutput :=
  let rechdr := recAt s.buf e.recPtr
  let out : List DupOutput := if 0 < e.dupCount then
      [.writeDiscardEvent l rechdr.entry.logFacility rechdr.entry.logEventType e.dupCount rechdr]
    else []
  let logCount := (s.linfo l).dupCount - e.dupCount
  let buf := if e.recPtr ≠ none then setInUse s.buf e.bufIndex false else s.buf
  let e' : DupBuffer :=
    { recPtr := some bufIndex, dupCount := 0, bufIndex := bufIndex, timeStart := curTime }
  (({ s with buf := setInUse buf bufIndex true }).setLinfo l
    { dupCount := logCount, dupRecsArray := some (entries.set count e') }, out)

/-- `dup_recs_array`, which `dropDupRecord` allocates if it is NULL. -/
def lookbackArray (s : DupState) (l : LogId) : List DupBuffer :=
  (s.linfo l).dupRecsArray.getD (List.replicate s.dupArraySize zeroEntry)

/-- What `dropDupRecord` does with the result of its loop: whether to
drop the event, and what it has written. -/
def afterLookback (s : DupState) (rhdr : LogRecord) (l : LogId) (bufIndex : Nat) (curTime : Int)
    (entries : List DupBuffer) : LookbackResult → Bool × DupState × List DupOutput
  | .duplicate count =>
    (true, countDuplicate s l rhdr curTime entries count (entries.getD count zeroEntry))
  | .replace count false =>
    (false, replaceEntry s l bufIndex curTime entries count (entries.getD count zeroEntry))
  | .replace _ true =>
    -- `++equality_index`, back to 0 at the end of the array
    let next := if s.equalityIndex + 1 ≥ s.dupArraySize then 0 else s.equalityIndex + 1
    (false, replaceEntry { s with equalityIndex := next } l bufIndex curTime entries next.toNat
      (entries.getD next.toNat zeroEntry))

/-- `dropDupRecord` for the event `rhdr` in slot `bufIndex`. -/
def dropDupRecord (s : DupState) (rhdr : LogRecord) (l : LogId) (bufIndex : Nat) (curTime : Int) :
    Bool × DupState × List DupOutput :=
  if ¬ s.disDupRecs then (false, s, [])
  else
    let entries := lookbackArray s l
    let firstScore := computeScore s (entries.headD zeroEntry) curTime
    afterLookback s rhdr l bufIndex curTime entries
      (lookback s rhdr curTime 0 firstScore true 0 entries)

/-- The slot search of `run_parent`; the length of `buf` if every slot is
in use. -/
def findSlot (buf : List EventBuffer) : Nat := buf.findIdx fun slot => !slot.inUse

def nextSlot (s : DupState) : Nat := if s.disDupRecs then findSlot s.buf else 0

def readEvent (s : DupState) (rhdr : LogRecord) : DupState :=
  { s with buf := s.buf.modify (nextSlot s) fun slot => { slot with event := rhdr } }

/-- The end of `Process_Event`, for an event that is to be logged in `l`. -/
def processEvent (s : DupState) (l : LogId) (rhdr : LogRecord) (curTime : Int) :
    DupState × List DupOutput :=
  match dropDupRecord (readEvent s rhdr) rhdr l (nextSlot s) curTime with
  | (true, s, out) => (s, out)
  | (false, s, out) => (s, out ++ [.logEvlRec l rhdr])

/-! ## Timeouts -/

/-- Write the discard events of all entries that have duplicates and are
`due`: the new entries, the new buffer, the sum of the counts, and what
was written. -/
def discardLoop (l : LogId) (due : DupBuffer → Bool) (buf : List EventBuffer) :
    List DupBuffer → List DupBuffer × List EventBuffer × Nat × List DupOutput
  | [] => ([], buf, 0, [])
  | e :: rest =>
    if 0 < e.dupCount ∧ due e then
      let (buf, e', out) := discard buf l (recAt buf e.recPtr) e
      let (rest, buf, count, outs) := discardLoop l due buf rest
      (e' :: rest, buf, e.dupCount + count, out :: outs)
    else
      let (rest, buf, count, outs) := discardLoop l due buf rest
      (e :: rest, buf, count, outs)

/-- The seconds until the entry's discard event is to be logged. -/
def timeoutOf (s : DupState) (now : Int) (e : DupBuffer) : Int :=
  e.timeStart + s.dupInterval - now

/-- `tv_sec` after the entries that are not due yet. -/
def nextTimeout (s : DupState) (now : Int) (entries : List DupBuffer) (tvSec : Int) : Int :=
  entries.foldl (fun tv e =>
    if 0 < e.dupCount ∧ ¬ timeoutOf s now e ≤ 0 ∧ (tv = 0 ∨ tv > timeoutOf s now e)
    then timeoutOf s now e else tv) tvSec

def checkDupEventTimeoutForLog (s : DupState) (l : LogId) (now tvSec : Int) :
    DupState × Int × List DupOutput :=
  match (s.linfo l).dupRecsArray with
  | none => (s, tvSec, [])
  | some entries =>
    if (s.linfo l).dupCount = 0 then (s, tvSec, [])
    else
      let (entries', buf, count, out) :=
        discardLoop l (fun e => decide (timeoutOf s now e ≤ 0)) s.buf entries
      (({ s with buf := buf }).setLinfo l
          { dupCount := (s.linfo l).dupCount - count, dupRecsArray := some entries' },
        nextTimeout s now entries tvSec, out)

/-- `checkDupEventTimeout`, each log with the clock reading it makes. -/
def checkDupEventTimeout (s : DupState) (evlNow pvtNow : Int) : DupState × Int × List DupOutput :=
  let (s, tvSec, out) := checkDupEventTimeoutForLog s .evlLog evlNow 0
  let (s, tvSec, out') := checkDupEventTimeoutForLog s .pvtLog pvtNow tvSec
  (s, tvSec, out ++ out')

/-! ## Reconfiguration and shutdown -/

def dumpDuplicatesBuffer (s : DupState) (l : LogId) : DupState × List DupOutput :=
  match (s.linfo l).dupRecsArray with
  | none => (s, [])
  | some entries =>
    let (_, buf, _, out) := discardLoop l (fun _ => true) s.buf entries
    (({ s with buf := buf }).setLinfo l zeroLog, out)

/-- Both logs, in the order of `reallocBuffer` and `evlogdstopdaemon`. -/
def dumpBoth (s : DupState) : DupState × List DupOutput :=
  let (s, out) := dumpDuplicatesBuffer s .evlLog
  let (s, out') := dumpDuplicatesBuffer s .pvtLog
  (s, out ++ out')

def reallocBuffer (s : DupState) (newsize : Nat) (prevOn curOn : Bool) :
    DupState × List DupOutput :=
  let (s, out) := if prevOn then dumpBoth s else (s, [])
  let bufSize := if curOn then 2 * newsize + 1 else 1
  ({ s with dupArraySize := newsize, buf := List.replicate bufSize zeroSlot }, out)

/-- The elements of an evlconfig message that concern duplicates. -/
inductive ConfValue where
  | DIS_COUNT (value : Int)
  | DIS_INTERVAL (value : Int)
  | DIS_DUPS (cbuf : String)
  | DIS_SIZE (value : Nat)

/-- The body of the loop of `updateConfvalues`. -/
def updateConfvalue (s : DupState) : ConfValue → DupState × List DupOutput
  | .DIS_COUNT value =>
    -- 10 * MAX_DUP_COUNT: do not consider the count
    ({ s with dupCount := if value = 0 then 10 * 10000 else value }, [])
  | .DIS_INTERVAL value =>
    -- 24 * MAX_DUP_INTERVAL: do not consider the interval
    ({ s with dupInterval := if value = 0 then 24 * 3600 else value }, [])
  | .DIS_DUPS cbuf =>
    if s.disDupRecs = false ∧ cbuf = "on" then
      let (s, out) := reallocBuffer s s.dupArraySize false true
      ({ s with disDupRecs := true }, out)
    else if s.disDupRecs = true ∧ cbuf = "off" then
      let (s, out) := reallocBuffer s s.dupArraySize true false
      ({ s with disDupRecs := false }, out)
    else (s, [])
  | .DIS_SIZE value =>
    if s.dupArraySize ≠ value then
      let value := if value = 0 then 5 else value
      reallocBuffer s value s.disDupRecs s.disDupRecs
    else (s, [])

/-! ## Runs -/

/-- What `run_parent` starts with: the values `readEvlogConfig` has left,
`dup_array_size` being at least 1. -/
structure DupConfig where
  dupCount : Int
  dupInterval : Int
  dupArraySize : Nat
  disDupRecs : Bool
  size_pos : 0 < dupArraySize

/-- The state after the first `reallocBuffer` of `run_parent`. -/
def initDup (c : DupConfig) : DupState :=
  { buf := List.replicate (if c.disDupRecs then 2 * c.dupArraySize + 1 else 1) zeroSlot
    evlLog := zeroLog, pvtLog := zeroLog, dupCount := c.dupCount, dupInterval := c.dupInterval
    dupArraySize := c.dupArraySize, disDupRecs := c.disDupRecs, equalityIndex := -1 }

/-- What the parent process does between two looks at its sockets: log an
event, read one it then rejects, check for timeouts, take over a
configuration value. -/
inductive DupAction where
  | event (l : LogId) (rhdr : LogRecord) (curTime : Int)
  | rejected (rhdr : LogRecord)
  | timeout (evlNow pvtNow : Int)
  | config (value : ConfValue)

def dupStep (s : DupState) : DupAction → DupState × List DupOutput
  | .event l rhdr curTime => processEvent s l rhdr curTime
  | .rejected rhdr => (readEvent s rhdr, [])
  | .timeout evlNow pvtNow =>
    let (s, _, out) := checkDupEventTimeout s evlNow pvtNow
    (s, out)
  | .config value => updateConfvalue s value

/-! ### Events of any size -/

/-- An event as a client sends it: its header, and the bytes `_evlReadEx` has
stored behind it in the slot (none when the header is refused). -/
structure ClientEvent where
  entry : PosixLogEntry
  stored : List UInt8

/-- Nothing is stored behind the record of the slot. -/
def ClientEvent.Inside (e : ClientEvent) : Prop := e.stored.length ≤ posixLogEntryMaxlen

instance (e : ClientEvent) : Decidable e.Inside := inferInstanceAs (Decidable (_ ≤ _))

/-- The slot's record after the read, up to the last byte stored. -/
def ClientEvent.record (e : ClientEvent) (h : e.Inside) : LogRecord where
  entry := { e.entry with logSize := .ofNat e.stored.length }
  data := e.stored
  size_eq := by
    simp only [ClientEvent.Inside, posixLogEntryMaxlen] at h
    simp only [UInt64.toNat_ofNat']
    omega
  size_le := by
    simp only [ClientEvent.Inside, posixLogEntryMaxlen] at h ⊢
    simp only [UInt64.toNat_ofNat']
    omega

/-- `sizeof(event_buffer_t)`: the record and `in_use`. -/
def slotSize : Nat := recHdrSize + posixLogEntryMaxlen + 1

/-- Where in `buf` the bytes of an event end that goes into the next slot. -/
def storeEnd (s : DupState) (e : ClientEvent) : Nat :=
  nextSlot s * slotSize + recHdrSize + e.stored.length

/-- `in_use` of the slots after the read: the byte behind the record of the slot
is the 8193rd of the data, and so on in the slots that follow. -/
def readOver (s : DupState) (e : ClientEvent) : DupState :=
  { s with buf := s.buf.mapIdx fun i slot =>
      if i < nextSlot s then slot
      else match e.stored[(i - nextSlot s) * slotSize + posixLogEntryMaxlen]? with
        | none => slot
        | some byte => { slot with inUse := byte != 0 } }

/-- What the parent process does, with events of any size. -/
inductive SlotAction where
  | event (l : LogId) (e : ClientEvent) (curTime : Int)
  | rejected (e : ClientEvent)
  | timeout (evlNow pvtNow : Int)
  | config (value : ConfValue)

/-- The state, and whether an event has run over its slot or is copied and
compared under a `log_size` the slot does not have. -/
structure SlotRun where
  dup : DupState
  overrun : Bool

def slotStep (r : SlotRun) (a : SlotAction) : SlotRun :=
  if r.overrun then r
  else match a with
    | .event l e curTime =>
      if h : e.Inside ∧ e.entry.logSize.toNat = e.stored.length then
        ⟨(dupStep r.dup (.event l (e.record h.1) curTime)).1, false⟩
      else ⟨readOver r.dup e, true⟩
    | .rejected e =>
      if h : e.Inside then ⟨(dupStep r.dup (.rejected (e.record h))).1, false⟩
      else ⟨readOver r.dup e, true⟩
    | .timeout evlNow pvtNow => ⟨(dupStep r.dup (.timeout evlNow pvtNow)).1, false⟩
    | .config value => ⟨(dupStep r.dup (.config value)).1, false⟩

def slotRun (c : DupConfig) (actions : List SlotAction) : SlotRun :=
  run slotStep ⟨initDup c, false⟩ actions

end Evlog.Evlogd
