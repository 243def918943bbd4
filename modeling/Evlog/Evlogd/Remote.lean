/-
Evlog.Evlogd.Remote — evlogrmtd, which takes records from other hosts and
hands them to evlogd.

A record travels between hosts behind a `struct net_rechdr`, whose fields
have fixed widths and network byte order. It arrives on a TCP connection
(`fwdClientEvent`) or in one UDP datagram (`fwdUDPEvent`); the host it
came from is found in the table read from the evlhosts file, and the
host's id goes into the upper half of `log_processor`. Both paths end in
`writeToEvlogd`, which sends header and data to evlogd and waits for one
byte back.

`ForwardTrace` keeps what a call did beside the stores of Evlog.Evlogd
.Receive: the record it forwarded and the writes it made on evlogd's
socket. Whether a write on that socket is complete and which byte comes
back is evlogd's doing, and so a parameter (`EvlogdPeer`).
-/
import Evlog.Evlogd.Receive

namespace Evlog.Evlogd.Socket

open Evlog.Lib Evlog.Posix

/-! ## Network byte order -/

/-- `ntohl` on a little-endian machine. -/
def ntohl (x : UInt32) : UInt32 :=
  let byte1 : UInt32 := x &&& 0xff00
  let byte2 : UInt32 := (x >>> 8) &&& 0xff00
  (x <<< 24) ||| (byte1 <<< 8) ||| byte2 ||| (x >>> 24)

/-- `ntohlonglong` on a little-endian machine. -/
def ntohlonglong (value : UInt64) : UInt64 :=
  let hi : UInt32 := value.toUInt32
  let lo : UInt32 := (value >>> 32).toUInt32
  ((ntohl hi).toUInt64 <<< 32) ||| (ntohl lo).toUInt64

/-- `struct net_rechdr`, as the bytes lie in memory. -/
structure NetRechdr where
  logMagic : UInt32
  logRecid : UInt32
  logFormat : UInt32
  logEventType : UInt32
  logFacility : UInt32
  logSeverity : UInt32
  logUid : UInt32
  logGid : UInt32
  logPid : UInt32
  logPgrp : UInt32
  logFlags : UInt32
  logProcessor : UInt32
  logSize : UInt64
  logTimeTvSec : UInt64
  logTimeTvNsec : UInt64
  logThread : UInt64
  deriving DecidableEq, Repr

def netRecHdrSize : Nat := 80

def NetRechdr.ofBytes (bs : List UInt8) : NetRechdr :=
  let (magic, bs) := takeLE 4 bs
  let (recid, bs) := takeLE 4 bs
  let (format, bs) := takeLE 4 bs
  let (eventType, bs) := takeLE 4 bs
  let (facility, bs) := takeLE 4 bs
  let (severity, bs) := takeLE 4 bs
  let (uid, bs) := takeLE 4 bs
  let (gid, bs) := takeLE 4 bs
  let (pid, bs) := takeLE 4 bs
  let (pgrp, bs) := takeLE 4 bs
  let (flags, bs) := takeLE 4 bs
  let (processor, bs) := takeLE 4 bs
  let (size, bs) := takeLE 8 bs
  let (sec, bs) := takeLE 8 bs
  let (nsec, bs) := takeLE 8 bs
  let (thread, _) := takeLE 8 bs
  { logMagic := .ofNat magic, logRecid := .ofNat recid, logFormat := .ofNat format
    logEventType := .ofNat eventType, logFacility := .ofNat facility
    logSeverity := .ofNat severity, logUid := .ofNat uid, logGid := .ofNat gid
    logPid := .ofNat pid, logPgrp := .ofNat pgrp, logFlags := .ofNat flags
    logProcessor := .ofNat processor, logSize := .ofNat size, logTimeTvSec := .ofNat sec
    logTimeTvNsec := .ofNat nsec, logThread := .ofNat thread }

/-- `ntoh_rechdr`. `long` has 64 bits, so neither branch of the source
narrows anything. -/
def ntohRechdr (src : NetRechdr) : PosixLogEntry :=
  { logMagic := ntohl src.logMagic
    logRecid := (ntohl src.logRecid).toInt32
    logSize := ntohlonglong src.logSize
    logFormat := (ntohl src.logFormat).toInt32
    logEventType := (ntohl src.logEventType).toInt32
    logFacility := ntohl src.logFacility
    logSeverity := (ntohl src.logSeverity).toInt32
    logUid := ntohl src.logUid
    logGid := ntohl src.logGid
    logPid := (ntohl src.logPid).toInt32
    logPgrp := (ntohl src.logPgrp).toInt32
    logTimeSec := (ntohlonglong src.logTimeTvSec).toInt64
    logTimeNsec := (ntohlonglong src.logTimeTvNsec).toInt64
    logFlags := ntohl src.logFlags
    logThread := ntohlonglong src.logThread
    logProcessor := (ntohl src.logProcessor).toInt32 }

/-! ## The host table -/

/-- An entry of `host_array`. -/
structure HostEntry where
  addr : UInt32
  id : Int32
  deriving DecidableEq, Repr

/-- `hostLookUp`: the id of the first entry with the address. -/
def hostLookUp (hostArray : List HostEntry) (addr : UInt32) : Option Int32 :=
  (hostArray.find? fun h => h.addr == addr).map (·.id)

/-! ## `writeToEvlogd` -/

/-- evlogd at the other end of `evlog_sd`: whether a write is complete,
and the byte that answers a record. -/
structure EvlogdPeer where
  takes : List UInt8 → Bool
  ack : UInt8

/-- The writes of one call and whether the connection outlived it. -/
structure EvlogdWrite where
  writes : List (List UInt8)
  stores : List Store
  ret : Int32
  deriving DecidableEq, Repr

/-- The writes up to and including the first incomplete one. -/
def sendAll (peer : EvlogdPeer) : List (List UInt8) → List (List UInt8) × Bool
  | [] => ([], true)
  | w :: ws =>
    if peer.takes w then
      let r := sendAll peer ws
      (w :: r.1, r.2)
    else ([w], false)

/-- The record is a string that was cut off at `POSIX_LOG_ENTRY_MAXLEN`. -/
def truncatedString (rhdr : PosixLogEntry) : Bool :=
  rhdr.logFormat == posixLogString && rhdr.logFlags &&& posixLogTruncate != 0

/-- `writebuf` of a truncated string: the data, with a NUL in the last
byte of the array. -/
def truncatedCopy (rhdr : PosixLogEntry) (varbuf : List UInt8) : List UInt8 :=
  ((varbuf.take rhdr.logSize.toNat).set (posixLogEntryMaxlen - 1) 0)

/-- The bodies `writeToEvlogd` sends behind the header. A truncated
string is sent from `writebuf`, and the statement that sends `varbuf`
follows whether or not that branch was taken. -/
def evlogdBodies (rhdr : PosixLogEntry) (varbuf : List UInt8) : List (List UInt8) :=
  (if truncatedString rhdr then [truncatedCopy rhdr varbuf] else [])
  ++ (if 0 < rhdr.logSize then [varbuf.take rhdr.logSize.toNat] else [])

/-- The stores into `writebuf`. -/
def writebufStores (rhdr : PosixLogEntry) : List Store :=
  if truncatedString rhdr then
    [⟨.writebuf, 0, rhdr.logSize.toNat⟩, ⟨.writebuf, posixLogEntryMaxlen - 1, 1⟩]
  else []

/-- `writeToEvlogd`; `peer` is `none` while `evlog_sd` is -1. -/
def writeToEvlogd (peer : Option EvlogdPeer) (rhdr : PosixLogEntry) (varbuf : List UInt8) :
    EvlogdWrite :=
  match peer with
  | none => ⟨[], [], -1⟩
  | some peer =>
    let (sent, whole) := sendAll peer (rhdr.toBytes :: evlogdBodies rhdr varbuf)
    let stores := if peer.takes rhdr.toBytes then writebufStores rhdr else []
    if whole && peer.ack == 0xac then ⟨sent, stores, 0⟩ else ⟨sent, stores, -1⟩

/-! ## The two ways in -/

/-- What one call did: the record it forwarded, what it wrote to evlogd,
and on a connection the stream it left. -/
structure ForwardTrace where
  stores : List Store
  bodySizes : List UInt64
  /-- The record handed to `writeToEvlogd`. -/
  forwarded : Option (PosixLogEntry × List UInt8)
  writes : List (List UInt8)
  closed : Bool
  rest : ByteStream

/-- `log_processor |= (nodeID << 16)`. -/
def squeezeNodeId (rhdr : PosixLogEntry) (nodeId : Int32) : PosixLogEntry :=
  { rhdr with logProcessor := rhdr.logProcessor ||| (nodeId <<< 16) }

/-- `fwdClientEvent` for the connection of the host `nodeId`. -/
def fwdClientEvent (peer : Option EvlogdPeer) (nodeId : Int32) (s : ByteStream) : ForwardTrace :=
  let hdr := evlReadEx s (UInt64.ofNat netRecHdrSize)
  if hdr.ret.toInt64.toUInt64 ≠ UInt64.ofNat netRecHdrSize then
    ⟨[], [], none, [], true, hdr.rest⟩
  else
    let rhdr := ntohRechdr (NetRechdr.ofBytes hdr.stored)
    let stores := [⟨.rmtbuf, 0, recHdrSize⟩]
    if 0 < rhdr.logSize then
      let body := evlReadEx hdr.rest rhdr.logSize
      let stores := stores ++ [⟨.rmtbuf, recHdrSize, body.stored.length⟩]
      if body.ret.toInt64.toUInt64 ≠ rhdr.logSize then
        ⟨stores, [rhdr.logSize], none, [], true, body.rest⟩
      else
        let rhdr := squeezeNodeId rhdr (nodeId &&& 0x0000FFFF)
        let w := writeToEvlogd peer rhdr body.stored
        ⟨stores ++ w.stores, [rhdr.logSize], some (rhdr, body.stored), w.writes, false,
          body.rest⟩
    else
      let rhdr := squeezeNodeId rhdr (nodeId &&& 0x0000FFFF)
      let w := writeToEvlogd peer rhdr []
      ⟨stores ++ w.stores, [], some (rhdr, []), w.writes, false, hdr.rest⟩

def fwdUDPEvent (peer : Option EvlogdPeer) (hostArray : List HostEntry) (buff : List UInt8)
    (recvlen : UInt32) (addr : UInt32) : ForwardTrace :=
  match hostLookUp hostArray addr with
  | none => ⟨[], [], none, [], false, []⟩
  | some nodeId =>
    let hdr := ntohRechdr (NetRechdr.ofBytes (buff.take netRecHdrSize))
    if hdr.logSize + UInt64.ofNat netRecHdrSize ≠ recvlen.toUInt64 then
      -- we did not receive the whole record
      ⟨[], [], none, [], false, []⟩
    else
      let hdr := squeezeNodeId hdr nodeId
      let vardata := (buff.drop netRecHdrSize).take hdr.logSize.toNat
      let w := writeToEvlogd peer hdr vardata
      ⟨w.stores, [], some (hdr, vardata), w.writes, false, []⟩

def maxBufreadLen : Nat := recHdrSize + posixLogEntryMaxlen

/-- A datagram as the main loop hands it to `fwdUDPEvent`: received into a
buffer that was cleared before, and cut off where the buffer ends. -/
def recvUDP (peer : Option EvlogdPeer) (hostArray : List HostEntry) (addr : UInt32)
    (datagram : List UInt8) : ForwardTrace :=
  let packet := datagram.take maxBufreadLen
  fwdUDPEvent peer hostArray (packet ++ List.replicate (maxBufreadLen - packet.length) 0)
    (UInt32.ofNat packet.length) addr

/-- A connection to evlogrmtd behind its authentication: one call for each
time the socket is readable, until it is closed. -/
def serveRemote (nodeId : Int32) : List (Option EvlogdPeer) → ByteStream → List ForwardTrace
  | [], _ => []
  | peer :: peers, s =>
    let t := fwdClientEvent peer nodeId s
    t :: if t.closed then [] else serveRemote nodeId peers t.rest

/-! ## Any mix of arrivals -/

/-- A record's worth of input: the rest of an authenticated connection's
stream, or a datagram. -/
inductive Arrival where
  | tcp (nodeId : Int32) (s : ByteStream)
  | udp (addr : UInt32) (datagram : List UInt8)

/-- evlogd alive at the other end: it takes every write and answers every
record. -/
def connected : EvlogdPeer := { takes := fun _ => true, ack := 0xac }

/-- What evlogrmtd does with an arrival while it is connected to evlogd. -/
def forward (hostArray : List HostEntry) : Arrival → ForwardTrace
  | .tcp nodeId s => fwdClientEvent (some connected) nodeId s
  | .udp addr datagram => recvUDP (some connected) hostArray addr datagram

def forwardedRecords (hostArray : List HostEntry) (arrivals : List Arrival) :
    List (PosixLogEntry × List UInt8) :=
  arrivals.filterMap fun a => (forward hostArray a).forwarded

def sentWrites (hostArray : List HostEntry) (arrivals : List Arrival) : List (List (List UInt8)) :=
  (arrivals.map fun a => (forward hostArray a).writes).filter fun ws => !ws.isEmpty

end Evlog.Evlogd.Socket
