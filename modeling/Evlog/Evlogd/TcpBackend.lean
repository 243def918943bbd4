/-
Evlog.Evlogd.TcpBackend — the plug-in that sends events to a remote host
over TCP.

evlogd hands each event to `tcp_rmtlog_be_func`, which asks another process,
over a socket between them, whether the remote host is connected: it writes
`c`, waits for `o` or `b`, and writes the record if the answer is `o`. The
other process, `tcp_rmtlog_be_childthread`, answers, reads the record and
writes it to the remote host; it notices that the host has gone, tries to
connect again, and has a buffer for events that come in between.

A `Backend` is the state of both, with the bytes that are on the way
between them. An `Action` is what one of the two does next; how the remote
host takes each write is part of the action. `handed`, `sending` and
`remote` are not in the code: what evlogd has handed over, the record that
is on its way to the child, and what has been written to the remote host.
-/
import Evlog.Lib.Transition
import Evlog.Evlogd.Receive

namespace Evlog.Evlogd.TcpRmtlog

open Evlog.Lib Evlog.Posix Evlog.Evlogd.Socket

/-- An event that evlogd hands over, in a buffer that has room for it. -/
structure Event where
  rhdr : PosixLogEntry
  varbuf : List UInt8
  whole : varbuf.length = rhdr.logSize.toNat
  fits : rhdr.logSize.toNat ≤ posixLogEntryMaxlen

abbrev Record := PosixLogEntry × List UInt8

def Event.record (e : Event) : Record := (e.rhdr, e.varbuf)

/-- The event as `tcp_rmtlog_be_func` writes it. -/
def Event.bytes (e : Event) : List UInt8 := e.rhdr.toBytes ++ e.varbuf

/-- What the remote host gets: an event, or a record that says how many
were dropped. -/
inductive RemoteRecord where
  | event (r : Record)
  | dropReport (droppedEvt : Nat)

/-- The data of the record that reports dropped events, up to its NUL. -/
def dropMessage (droppedEvt : Nat) : String :=
  toString droppedEvt ++ " events were dropped during the disconnected period."

/-- A block from `malloc`, with what has been stored at its start. -/
structure Block where
  size : Nat
  bytes : List UInt8
  live : Bool
  deriving DecidableEq, Repr

/-- `evlbucket_t`. `watermark` counts from `buf`. -/
structure Bucket where
  buf : Option Block
  watermark : Nat
  droppedEvt : Nat
  deriving DecidableEq, Repr

/-- Where the child is: in its loop, or in `writeToRmtHost`, waiting for the
record. -/
inductive ChildPc where
  | select
  | record
  deriving DecidableEq, Repr

structure Backend where
  /-- The event of which `tcp_rmtlog_be_func` waits to know whether to send
  it. -/
  waiting : Option Event
  toChild : List UInt8
  toParent : List UInt8
  pc : ChildPc
  rmtSd : Int
  tcpRmtlogBuffer : Bucket
  tcpRmtlogBufsize : Nat
  handed : List Event
  sending : Option Event
  remote : List RemoteRecord

/-- `c`, `o` and `b`. -/
def askByte : UInt8 := 0x63
def okByte : UInt8 := 0x6f
def brokenByte : UInt8 := 0x62

namespace Backend

/-! ## The child -/

/-- The writes of `_writeToRmtHost`: the header, and the data if there is
any. Each of `ws` says whether a write is complete. -/
def rmtWrites (logSize : UInt64) : List Bool → Bool × List Bool
  | true :: ws =>
    if 0 < logSize then
      match ws with
      | w :: ws => (w, ws)
      | [] => (false, [])
    else (true, ws)
  | _ :: ws => (false, ws)
  | [] => (false, [])

/-- `_writeToRmtHost`. -/
def writeRecToRmtHost (s : Backend) (r : RemoteRecord) (logSize : UInt64) (ws : List Bool) :
    Backend × Bool × List Bool :=
  let (ok, ws) := rmtWrites logSize ws
  if ok then ({ s with remote := s.remote ++ [r] }, true, ws) else ({ s with rmtSd := -1 }, false, ws)

/-- The loop of `tcp_rmtlog_drain_events` over what is in the buffer. -/
def drainLoop : Nat → List UInt8 → Backend → List Bool → Backend × Bool × List Bool
  | 0, _, s, ws => (s, true, ws)
  | fuel + 1, bs, s, ws =>
    if bs = [] then (s, true, ws)
    else
      let rechdr := PosixLogEntry.ofBytes (bs.take recHdrSize)
      let varbuf := (bs.drop recHdrSize).take rechdr.logSize.toNat
      let (s, ok, ws) := s.writeRecToRmtHost (.event (rechdr, varbuf)) rechdr.logSize ws
      if ok then drainLoop fuel (bs.drop (rechdr.logSize.toNat + recHdrSize)) s ws
      else (s, false, ws)

/-- `free`. -/
def freeBuffer (s : Backend) (b : Block) : Backend :=
  { s with tcpRmtlogBuffer.buf := some { b with live := false } }

/-- `tcp_rmtlog_drain_events`. -/
def drainEvents (s : Backend) (b : Block) (ws : List Bool) : Backend :=
  let watermark := s.tcpRmtlogBuffer.watermark
  -- a record takes more than one byte
  let (s, ok, ws) := drainLoop watermark (b.bytes.take watermark) s ws
  if !ok then s.freeBuffer b
  else if 0 < s.tcpRmtlogBuffer.droppedEvt then
    let droppedEvt := s.tcpRmtlogBuffer.droppedEvt
    let logSize := UInt64.ofNat ((dropMessage droppedEvt).length + 1)
    let (s, ok, _) := s.writeRecToRmtHost (.dropReport droppedEvt) logSize ws
    if !ok then s.freeBuffer b else { s with tcpRmtlogBuffer := ⟨none, 0, 0⟩ }
  else { s with tcpRmtlogBuffer := ⟨none, 0, 0⟩ }

/-- A record is put into the buffer, or counted if there is no room. -/
def bufferEvent (s : Backend) (b : Block) (bytes : List UInt8) : Backend :=
  let bucket := s.tcpRmtlogBuffer
  if bucket.watermark + bytes.length ≤ s.tcpRmtlogBufsize then
    { s with tcpRmtlogBuffer :=
        { bucket with
          buf := some { b with bytes := b.bytes.take bucket.watermark ++ bytes }
          watermark := bucket.watermark + bytes.length } }
  else { s with tcpRmtlogBuffer := { bucket with droppedEvt := bucket.droppedEvt + 1 } }

/-- `writeToRmtHost`. `mallocOk` says whether there is memory. -/
def writeToRmtHost (s : Backend) (mallocOk : Bool) (ws : List Bool) : Backend :=
  let hdr := s.toChild.take recHdrSize
  let s := { s with toChild := s.toChild.drop recHdrSize, pc := .select, sending := none }
  if hdr.length ≠ recHdrSize then s
  else
    let rhdr := PosixLogEntry.ofBytes hdr
    let varbuf := s.toChild.take rhdr.logSize.toNat
    let s := { s with toChild := s.toChild.drop rhdr.logSize.toNat }
    if varbuf.length ≠ rhdr.logSize.toNat then s
    else if s.rmtSd = -1 then
      match s.tcpRmtlogBuffer.buf with
      | some b => s.bufferEvent b (hdr ++ varbuf)
      | none =>
        if mallocOk then
          let b : Block := ⟨s.tcpRmtlogBufsize, [], true⟩
          { s with tcpRmtlogBuffer := ⟨some b, 0, 0⟩ }.bufferEvent b (hdr ++ varbuf)
        else s
    else (s.writeRecToRmtHost (.event (rhdr, varbuf)) rhdr.logSize ws).1

/-- `check_rmt_socket`, and on to `writeToRmtHost` if it says so. -/
def checkRmtSocket (s : Backend) (c : UInt8) (rest : List UInt8) : Backend :=
  let s := { s with toChild := rest }
  if c ≠ askByte then s
  else if s.rmtSd = -1 then { s with toParent := s.toParent ++ [brokenByte] }
  else { s with toParent := s.toParent ++ [okByte], pc := .record }

/-- `connectEvlRmt` comes back with a descriptor, or fails. `bufsize` is what
it finds in the configuration, should it come to that. -/
def reconnect (s : Backend) (bufsize : Option Nat) (sd : Option Nat) (ws : List Bool) : Backend :=
  let s := { s with tcpRmtlogBufsize := bufsize.getD s.tcpRmtlogBufsize }
  match sd with
  | none => s
  | some sd =>
    let s := { s with rmtSd := sd }
    match s.tcpRmtlogBuffer.buf with
    | some b => if 0 < s.tcpRmtlogBuffer.watermark then s.drainEvents b ws else s
    | none => s

/-! ## Both of them -/

inductive Action where
  /-- evlogd calls `tcp_rmtlog_be_func`. -/
  | hand (e : Event)
  /-- `tcp_rmtlog_be_func` reads the answer. -/
  | reply
  /-- The child finds that the remote host has gone. -/
  | rmtGone
  | reconnect (bufsize : Option Nat) (sd : Option Nat) (ws : List Bool)
  /-- The child reads from its end of the socket, in the loop or in
  `writeToRmtHost`. -/
  | check
  | transfer (mallocOk : Bool) (ws : List Bool)

def step (s : Backend) : Action → Backend
  | .hand e =>
    match s.waiting with
    | none =>
      { s with toChild := s.toChild ++ [askByte], waiting := some e, handed := s.handed ++ [e] }
    | some _ => s
  | .reply =>
    match s.waiting, s.toParent with
    | some e, c :: rest =>
      let s := { s with waiting := none, toParent := rest }
      if c = okByte then { s with toChild := s.toChild ++ e.bytes, sending := some e } else s
    | _, _ => s
  | .rmtGone => if s.pc = .select ∧ s.rmtSd ≠ -1 then { s with rmtSd := -1 } else s
  | .reconnect bufsize sd ws =>
    if s.pc = .select ∧ s.rmtSd = -1 then s.reconnect bufsize sd ws else s
  | .check =>
    match s.pc, s.toChild with
    | .select, c :: rest => s.checkRmtSocket c rest
    | _, _ => s
  | .transfer mallocOk ws =>
    if s.pc = .record ∧ s.toChild ≠ [] then s.writeToRmtHost mallocOk ws else s

/-- The two are connected, and the child has tried to reach the remote
host. -/
def start (rmtSd : Int) (bufsize : Nat) : Backend where
  waiting := none
  toChild := []
  toParent := []
  pc := .select
  rmtSd
  tcpRmtlogBuffer := ⟨none, 0, 0⟩
  tcpRmtlogBufsize := bufsize
  handed := []
  sending := none
  remote := []

end Backend

end Evlog.Evlogd.TcpRmtlog
