/-
Evlog.Evlogd.Receive — how evlogd takes a record from a client's socket.

`Process_Event` reads a record into one slot of the lookback buffer: the
header with two plain `read`s (`populateRecHdr`), the variable data with
`_evlReadEx`, a loop that waits for all of it. A 32-bit client of an
x86_64 daemon announces itself in the first word and sends a smaller
header. The record is then screened, and copied into a buffer of
`log_evl_rec`'s own on its way to the log.

Both buffers are fixed arrays, so the model keeps the stores made into them
(`Store`): which buffer, at which index, how many bytes. After a store that
does not fit it goes on as if there were room, and no theorem relies on it.

The machine is x86_64 as in Evlog.Posix.Entry: `LOCAL_ARCH` is
`LOGREC_ARCH_X86_64`. What the daemon decides from its configuration is
a parameter: the discard query, the access query and flags of a
facility, and whether `dropDupRecord` drops the record. Of
`handleFacRegEvent` only its stores into the record are modelled; what it
writes there and its effect on the facility registry are not.
-/
import Evlog.Lib.ByteStream
import Evlog.Posix.LogFile
import Evlog.Evlogd.LogWrite

namespace Evlog.Evlogd.Socket

open Evlog.Lib Evlog.Posix

/-! ## The fixed buffers -/

def maxRecsize : Nat := recHdrSize + posixLogEntryMaxlen

/-- The arrays a record is stored in on its way through the daemons. -/
inductive RecBuffer where
  /-- `rec` of an `event_buffer_t`, where `Process_Event` reads to. -/
  | slot
  /-- `lbuf` of `log_evl_rec`. -/
  | lbuf
  /-- `buf` of evlogrmtd's `fwdClientEvent`. -/
  | rmtbuf
  /-- `writebuf` of evlogrmtd's `writeToEvlogd`. -/
  | writebuf
  /-- No array at all: where a NULL pointer points. -/
  | null
  deriving DecidableEq, Repr

def RecBuffer.size : RecBuffer → Nat
  | .slot => maxRecsize
  | .lbuf => recHdrSize + posixLogEntryMaxlen + sizeSize
  | .rmtbuf => recHdrSize + posixLogEntryMaxlen
  | .writebuf => posixLogEntryMaxlen
  | .null => 0

/-- `len` bytes stored from index `start` on. -/
structure Store where
  buf : RecBuffer
  start : Nat
  len : Nat
  deriving DecidableEq, Repr

def Store.Inside (st : Store) : Prop := st.len = 0 ∨ st.start + st.len ≤ st.buf.size

instance (st : Store) : Decidable st.Inside := inferInstanceAs (Decidable (_ ∨ _))

/-! ## `_evlReadEx` -/

/-- What a call of `_evlReadEx` did: the bytes it stored, its return
value and the stream it left. -/
structure ReadEx where
  stored : List UInt8
  ret : Int32
  rest : ByteStream
  deriving Repr

/-- `_evlReadEx`. The count of bytes still to come is an `int`, and so is
the value returned; `len` is a `size_t`. -/
def evlReadEx (s : ByteStream) (len : UInt64) : ReadEx :=
  let moreBytes : Int32 := len.toUInt32.toInt32
  if 0 < moreBytes then
    let r := s.readLoop moreBytes.toNatClampNeg
    if r.2.1 then ⟨r.1, len.toUInt32.toInt32, r.2.2⟩ else ⟨r.1, -1, r.2.2⟩
  else ⟨[], (len - moreBytes.toInt64.toUInt64).toUInt32.toInt32, s⟩

/-! ## `populateRecHdr` -/

def logrecArchI386 : UInt32 := 0x0001

/-- `LOGREC_ARCH_X86_32`: a record of a 32-bit program under x86_64. -/
def logrecArchX8632 : UInt32 := 0xf000

/-- `sizeof(unsigned int)`, the first word of either header. -/
def logMagicSize : Nat := 4

/-- `sizeof(struct rec_hdr_32)`. -/
def recHdr32Size : Nat := 64

/-- The fields `populateRecHdr` takes over from a `struct rec_hdr_32`, of
which `bs` holds what follows the first word. The id is set to zero, and
`log_flags` is not set: it keeps the value the slot had. -/
def fromRecHdr32 (rhdr : PosixLogEntry) (bs : List UInt8) : PosixLogEntry :=
  let (_, bs) := takeLE 4 bs
  let (size, bs) := takeLE 4 bs
  let (format, bs) := takeLE 4 bs
  let (eventType, bs) := takeLE 4 bs
  let (facility, bs) := takeLE 4 bs
  let (severity, bs) := takeLE 4 bs
  let (uid, bs) := takeLE 4 bs
  let (gid, bs) := takeLE 4 bs
  let (pid, bs) := takeLE 4 bs
  let (pgrp, bs) := takeLE 4 bs
  let (sec, bs) := takeLE 4 bs
  let (nsec, bs) := takeLE 4 bs
  let (_, bs) := takeLE 4 bs
  let (thread, bs) := takeLE 4 bs
  let (processor, _) := takeLE 4 bs
  { rhdr with
    logMagic := logrecArchX8632
    logRecid := 0
    logSize := .ofNat size
    logFormat := (UInt32.ofNat format).toInt32
    logEventType := (UInt32.ofNat eventType).toInt32
    logFacility := .ofNat facility
    logSeverity := (UInt32.ofNat severity).toInt32
    logUid := .ofNat uid
    logGid := .ofNat gid
    logPid := (UInt32.ofNat pid).toInt32
    logPgrp := (UInt32.ofNat pgrp).toInt32
    logTimeSec := (UInt64.ofNat sec).toInt64
    logTimeNsec := (UInt64.ofNat nsec).toInt64
    logThread := .ofNat thread
    logProcessor := (UInt32.ofNat processor).toInt32 }

/-- A header read into the slot: the entry (`none` when the connection
was closed instead), the stores into the slot and the stream left. -/
structure RecHdrRead where
  entry : Option PosixLogEntry
  stores : List Store
  rest : ByteStream

/-- `populateRecHdr`; `rhdr` is the header the slot holds from before. -/
def populateRecHdr (s : ByteStream) (rhdr : PosixLogEntry) : RecHdrRead :=
  let (arch, s) := s.read logMagicSize
  if arch.length ≠ logMagicSize then ⟨none, [], s⟩
  else
    let clientArch := UInt32.ofNat (leNat arch)
    if clientArch = logrecArchI386 then
      -- 32 bit app writes this record: the header size is different
      let (tail, s) := s.read (recHdr32Size - logMagicSize)
      if tail.length ≠ recHdr32Size - logMagicSize then ⟨none, [], s⟩
      else ⟨some (fromRecHdr32 rhdr tail), [⟨.slot, 0, recHdrSize⟩], s⟩
    else
      let (tail, s) := s.read (recHdrSize - logMagicSize)
      let stores := [⟨.slot, logMagicSize, tail.length⟩]
      if tail.length ≠ recHdrSize - logMagicSize then ⟨none, stores, s⟩
      else ⟨some (PosixLogEntry.ofBytes (arch ++ tail)),
        stores ++ [⟨.slot, 0, logMagicSize⟩], s⟩

/-! ## `Process_Event` -/

/-- The entry of the connection in `clients[]`. -/
structure ClientInfo where
  pid : Int32
  uid : UInt32
  deriving DecidableEq, Repr

/-- What `Process_Event` reads of the daemon's globals. -/
structure Daemon where
  kpid : Int32
  rmtdpid : Int32
  defaultPosixLog : Bool
  disQuery : Option QueryEval
  /-- `_evlGetFacilityAccessQuery`: the query and the access flags. -/
  facilityAccessQuery : UInt32 → Option QueryEval × Int32

/-- The check that the event is not from a malicious user. -/
def credentialsOk (d : Daemon) (ci : ClientInfo) (rhdr : PosixLogEntry) : Bool :=
  if ci.pid ≠ d.kpid ∧ ci.pid ≠ d.rmtdpid then
    decide (ci.uid = rhdr.logUid ∧ ci.pid = rhdr.logPid)
      && decide (rhdr.logFlags &&& evlKernelEvent = 0)
  else true

/-- The magic and architecture a record goes into the log with. -/
def setArch (d : Daemon) (ci : ClientInfo) (rhdr : PosixLogEntry) : PosixLogEntry :=
  if ci.pid ≠ d.rmtdpid then
    if rhdr.logMagic = logrecArchX8632 then
      { rhdr with logMagic := (logrecMagic &&& 0xffff0000) ||| logrecArchI386 }
    else { rhdr with logMagic := logMagicArch }
  else if rhdr.logMagic &&& 0xffff0000 = logrecMagic &&& 0xffff0000 then rhdr
  else { rhdr with logMagic := logMagicArch }

def evlFaccKern : Int32 := 0x2

/-- Whether the configuration keeps the record out of the log. -/
def screened (d : Daemon) (rhdr : PosixLogEntry) (varbuf : List UInt8) : Bool :=
  let (query, accFlags) := d.facilityAccessQuery rhdr.logFacility
  (match d.disQuery with
    | some q => q rhdr varbuf
    | none => false)
  || (accFlags &&& evlFaccKern != 0 && rhdr.logFlags &&& evlKernelEvent == 0)
  || (match query with
    | some q => !q rhdr varbuf
    | none => false)

def evlogRegisterFac : Int32 := 40

def facRegRequest (rhdr : PosixLogEntry) : Bool :=
  rhdr.logFacility == logLogmgmt && rhdr.logEventType == evlogRegisterFac
    && rhdr.logFlags &&& evlKernelEvent != 0

/-- The stores of `handleFacRegEvent`: `fr_registry_fac_code` and, unless
the kernel already failed, `fr_rq_status`, the second and third word of
the `struct evl_facreg_rq` at `varbuf`. `varbuf` is NULL for a record
without data. -/
def handleFacRegEventStores (rhdr : PosixLogEntry) (kernelFailed : Bool) : List Store :=
  if facRegRequest rhdr then
    let (buf, varbuf) := if rhdr.logSize ≤ 0 then (RecBuffer.null, 0) else (.slot, recHdrSize)
    ⟨buf, varbuf + 4, 4⟩ :: if kernelFailed then [] else [⟨buf, varbuf + 8, 4⟩]
  else []

/-- The two copies `log_evl_rec` makes into `lbuf`: the record, then its
size. `recsize` is an `unsigned int`. -/
def logEvlRecStores (logSize : UInt64) : List Store :=
  let recsize : UInt32 := (logSize + UInt64.ofNat recHdrSize).toUInt32
  [⟨.lbuf, 0, recsize.toNat⟩, ⟨.lbuf, recsize.toNat, sizeSize⟩]

/-- What one call did with the client's bytes. -/
structure EventTrace where
  /-- The stores into the fixed buffers, in order. -/
  stores : List Store
  /-- `log_size` at every point where the data of a record is read or
  copied under it. -/
  bodySizes : List UInt64
  /-- The record handed on and the bytes of it that were read, from the
  point on where the daemon takes the record as complete. -/
  used : Option (PosixLogEntry × List UInt8)
  /-- The connection was closed. -/
  closed : Bool
  rest : ByteStream

/-- One call: the slot it was given (its old header), what
`handleFacRegEvent` reads in `fr_rq_status` and what `dropDupRecord`
says. -/
structure EventCall where
  rhdr : PosixLogEntry
  kernelFailed : Bool
  dropDup : PosixLogEntry → List UInt8 → Bool

/-- The part of `Process_Event` behind the last byte read. -/
def finishEvent (d : Daemon) (c : EventCall) (stores : List Store) (sizes : List UInt64)
    (rhdr : PosixLogEntry) (varbuf : List UInt8) (s : ByteStream) : EventTrace :=
  if d.defaultPosixLog && screened d rhdr varbuf then
    ⟨stores, sizes, some (rhdr, varbuf), false, s⟩
  else
    let stores := stores ++ handleFacRegEventStores rhdr c.kernelFailed
    if d.defaultPosixLog && !c.dropDup rhdr varbuf then
      ⟨stores ++ logEvlRecStores rhdr.logSize, sizes ++ [rhdr.logSize],
        some (rhdr, varbuf), false, s⟩
    else ⟨stores, sizes, some (rhdr, varbuf), false, s⟩

def processEvent (d : Daemon) (ci : ClientInfo) (c : EventCall) (s : ByteStream) : EventTrace :=
  let hdr := populateRecHdr s c.rhdr
  match hdr.entry with
  | none => ⟨hdr.stores, [], none, true, hdr.rest⟩
  | some rhdr =>
    if credentialsOk d ci rhdr then
      let rhdr := setArch d ci rhdr
      if rhdr.logSize ≤ 0 then finishEvent d c hdr.stores [] rhdr [] hdr.rest
      else
        let body := evlReadEx hdr.rest rhdr.logSize
        let stores := hdr.stores ++ [⟨.slot, recHdrSize, body.stored.length⟩]
        if body.ret < 0 then ⟨stores, [rhdr.logSize], none, true, body.rest⟩
        else finishEvent d c stores [rhdr.logSize] rhdr body.stored body.rest
    else ⟨hdr.stores, [], none, true, hdr.rest⟩

/-- A connection: one call for each time the socket is readable, until it
is closed. -/
def serveClient (d : Daemon) (ci : ClientInfo) : List EventCall → ByteStream → List EventTrace
  | [], _ => []
  | c :: cs, s =>
    let t := processEvent d ci c s
    t :: if t.closed then [] else serveClient d ci cs t.rest

/-! ## Header-then-body parsing -/

/-- The two reads of `Process_Event` alone: the record and the stream
behind it, or nothing when the connection is closed on the way. -/
def receiveRecord (s : ByteStream) (slot : PosixLogEntry) :
    Option ((PosixLogEntry × List UInt8) × ByteStream) :=
  let hdr := populateRecHdr s slot
  match hdr.entry with
  | none => none
  | some rhdr =>
    if rhdr.logSize ≤ 0 then some ((rhdr, []), hdr.rest)
    else
      let body := evlReadEx hdr.rest rhdr.logSize
      if body.ret < 0 then none else some ((rhdr, body.stored), body.rest)

/-- Record after record, each into a slot of its own, until the connection
is closed. -/
def receiveRecords : List PosixLogEntry → ByteStream → List (PosixLogEntry × List UInt8)
  | [], _ => []
  | slot :: slots, s =>
    match receiveRecord s slot with
    | none => []
    | some (r, s') => r :: receiveRecords slots s'

end Evlog.Evlogd.Socket
