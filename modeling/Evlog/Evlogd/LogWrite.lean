/-
Evlog.Evlogd.LogWrite — how evlogd.c gets a record into a log file.

The daemon owns two logs, the event log and the private log. Each record
gets an id from one counter (`getNextRecId`: odd for the event log, even
for the private one) and is then handed to `write_rec_to_log`, which
takes one of three ways: into the file when the file lock is free, into
the log's secondary buffer when it is not, and nowhere but into
`dropped_evt` when that buffer is full. The first call that gets the lock
again drains the buffer into the file and, if records were dropped, logs
a message with their number.

The code selects the secondary buffer by comparing descriptors. A buffer is
the part of it that is in use (`buf` up to `watermark`; `none` is NULL).
Whether a lock attempt succeeds and what the clock and the process say are
inputs of a call. `malloc`, writes and seeks succeed. The notification socket,
the `fdatasync` and the unlocking change none of this state.
-/
import Evlog.Posix.LogFile

namespace Evlog.Evlogd

open Evlog.Lib Evlog.Posix

/-! ## State -/

/-- The two logs, in the source `evl_log` and `pvt_log`. -/
inductive LogId where
  | evlLog
  | pvtLog
  deriving DecidableEq, Repr

/-- `userbuf_info_t`: the secondary buffer of a log. -/
structure UserbufInfo where
  buf : Option (List UInt8)
  droppedEvt : Int32
  fd : Int
  deriving DecidableEq

/-- `log_info_t`, with the open file behind `fd`; the mapped header
`map_hdr` is the first bytes of that file. The members for discarding
duplicates are in Evlog.Evlogd.Dup. -/
structure LogInfo where
  fd : Int
  recId : Int32
  file : OpenFile
  deriving DecidableEq

/-- The globals of evlogd.c that writing a record reads or changes. -/
structure LogState where
  evlLog : LogInfo
  pvtLog : LogInfo
  userEvlbuf : UserbufInfo
  userprivEvlbuf : UserbufInfo
  gRecId : Int32
  deriving DecidableEq

namespace LogState

/-- What the `log_info_t *` of a log points to. -/
def linfo (s : LogState) : LogId → LogInfo
  | .evlLog => s.evlLog
  | .pvtLog => s.pvtLog

def userbuf (s : LogState) : LogId → UserbufInfo
  | .evlLog => s.userEvlbuf
  | .pvtLog => s.userprivEvlbuf

def setFile (s : LogState) (l : LogId) (f : OpenFile) : LogState :=
  match l with
  | .evlLog => { s with evlLog := { s.evlLog with file := f } }
  | .pvtLog => { s with pvtLog := { s.pvtLog with file := f } }

def setUserbuf (s : LogState) (l : LogId) (u : UserbufInfo) : LogState :=
  match l with
  | .evlLog => { s with userEvlbuf := u }
  | .pvtLog => { s with userprivEvlbuf := u }

/-- The buffer `write_rec_to_buf` and `drain_buf_to_log` select by
descriptor; `none` is their "should never happen". -/
def userbufOfFd (s : LogState) (fd : Int) : Option LogId :=
  if fd = s.userEvlbuf.fd then some .evlLog
  else if fd = s.userprivEvlbuf.fd then some .pvtLog
  else none

end LogState

/-- `MAX_USER_EVLBUF` and `MAX_USERPRIV_EVLBUF`. -/
def maxUserbuf : LogId → Nat
  | .evlLog => 512 * 1024
  | .pvtLog => 256 * 1024

/-- What a call learns about the clock and about its own process. -/
structure ProcInfo where
  time : Int64
  euid : UInt32
  egid : UInt32
  pid : Int32
  pgrp : Int32
  processor : Int32

/-! ## Records evlogd makes itself -/

/-- `LOG_MAGIC_ARCH` on x86_64. -/
def logMagicArch : UInt32 := (logrecMagic &&& 0xffff0000) ||| 0x0007

def logLogmgmt : UInt32 := (12 : UInt32) <<< 3
def logInfo : Int32 := 6

/-- A message that fits in the data buffer of a record with its NUL. -/
abbrev MsgText := { text : List UInt8 // text.length < posixLogEntryMaxlen }

def cBytes (text : String) : List UInt8 := text.toList.map fun c => UInt8.ofNat c.toNat

/-- The record `mk_evl_rec` and `log_dropped_evtcnt_msg` compose. -/
def msgRecord (env : ProcInfo) (recid : Int32) (facility : UInt32) (eventType severity : Int32)
    (text : MsgText) : LogRecord where
  entry :=
    { logMagic := logMagicArch, logRecid := recid, logSize := .ofNat (text.1.length + 1)
      logFormat := posixLogString, logEventType := eventType, logFacility := facility
      logSeverity := severity, logUid := env.euid, logGid := env.egid, logPid := env.pid
      logPgrp := env.pgrp, logTimeSec := env.time, logTimeNsec := 0, logFlags := 0
      logThread := 0, logProcessor := env.processor }
  data := text.1 ++ [0]
  size_eq := by
    have := text.2
    simp only [posixLogEntryMaxlen] at this
    simp only [List.length_append, List.length_singleton, UInt64.toNat_ofNat']
    omega
  size_le := by
    have := text.2
    simp only [posixLogEntryMaxlen] at this ⊢
    simp only [UInt64.toNat_ofNat']
    omega

/-- The text of the message about dropped records. A count of type `int`
never comes near the length at which `snprintf` cuts the text off. -/
def droppedText (numevtDropped : Int) : MsgText :=
  ⟨(cBytes (toString numevtDropped
      ++ " events dropped due to secondary user buffer overflow.\n")).take
        (posixLogEntryMaxlen - 1),
    by rw [List.length_take]; simp only [posixLogEntryMaxlen]; omega⟩

/-- The record of `log_dropped_evtcnt_msg`. -/
def droppedRecord (env : ProcInfo) (recid : Int32) (numevtDropped : Int) : LogRecord :=
  msgRecord env recid logLogmgmt 1 logInfo (droppedText numevtDropped)

/-! ## Ids -/

/-- `getNextRecId(logType)`: the new value of `gRecId`. -/
def getNextRecId (gRecId logType : Int32) : Int32 :=
  if logType = 0 then
    -- private log - even recid
    if gRecId % 2 ≠ 0 then gRecId + 1 else gRecId + 2
  else if logType = 1 then
    -- regular log - odd recid
    if gRecId % 2 ≠ 0 then gRecId + 2 else gRecId + 1
  else gRecId

def LogState.nextRecId (s : LogState) (l : LogId) : LogState :=
  { s with gRecId := getNextRecId s.gRecId (s.linfo l).recId }

/-! ## Writing -/

/-- `lseek(fd, 0, SEEK_END)` and `write`. -/
def seekEndWrite (bytes : List UInt8) : FileM Unit := do
  let _ ← FileM.lseek 0 .SEEK_END .eio
  FileM.write bytes

def LogState.append (s : LogState) (l : LogId) (bytes : List UInt8) : LogState :=
  s.setFile l (seekEndWrite bytes (s.linfo l).file).2

def logDroppedEvtcntMsg (s : LogState) (l : LogId) (env : ProcInfo) (numevtDropped : Int32) :
    LogState :=
  let s := s.nextRecId l
  s.append l (droppedRecord env s.gRecId numevtDropped.toInt).toBytes

/-- The allocation in `write_rec_to_buf`, which also resets `dropped_evt`. -/
def UserbufInfo.alloc (u : UserbufInfo) : UserbufInfo :=
  match u.buf with
  | none => { u with buf := some [], droppedEvt := 0 }
  | some _ => u

def writeRecToBuf (s : LogState) (l : LogId) (rbuf : List UInt8) : LogState :=
  match s.userbufOfFd (s.linfo l).fd with
  | none => s
  | some b =>
    let u := (s.userbuf b).alloc
    let used := u.buf.getD []
    if used.length + rbuf.length ≤ maxUserbuf b then
      s.setUserbuf b { u with buf := some (used ++ rbuf) }
    -- `dropped_evt++`: behind the largest count the int starts again below zero
    else s.setUserbuf b { u with droppedEvt := u.droppedEvt + 1 }

/-- `drain_buf_to_log`; `none` is the status -1. -/
def drainBufToLog (s : LogState) (l : LogId) (env : ProcInfo) : Option LogState :=
  match s.userbufOfFd (s.linfo l).fd with
  | none => none
  | some b =>
    let s := s.append l ((s.userbuf b).buf.getD [])
    let s := if 0 < (s.userbuf b).droppedEvt
      then logDroppedEvtcntMsg s l env (s.userbuf b).droppedEvt else s
    some (s.setUserbuf b { s.userbuf b with buf := none })

/-- One of the two tests of `write_rec_to_log`: drain the buffer `b` if
it belongs to the log's descriptor and holds events. -/
def drainIfUsed (b : LogId) (l : LogId) (env : ProcInfo) (s : LogState) : Option LogState :=
  if (s.linfo l).fd = (s.userbuf b).fd ∧ (s.userbuf b).buf.isSome then drainBufToLog s l env
  else some s

/-- `write_rec_to_log`; `locked` tells whether `lock_routine` got the
lock, `none` is the status -1. -/
def writeRecToLog (s : LogState) (l : LogId) (rbuf : List UInt8) (locked : Bool)
    (env : ProcInfo) : Option LogState :=
  if ¬ locked then some (writeRecToBuf s l rbuf)
  else do
    let s ← drainIfUsed .evlLog l env s
    let s ← drainIfUsed .pvtLog l env s
    return s.append l rbuf

/-- The record with the id `log_evl_rec` stores in it. -/
def withRecid (r : LogRecord) (recid : Int32) : LogRecord :=
  { r with entry := { r.entry with logRecid := recid } }

def logEvlRec (s : LogState) (l : LogId) (rec : LogRecord) (locked : Bool) (env : ProcInfo) :
    Option LogState :=
  let s := s.nextRecId l
  writeRecToLog s l (withRecid rec s.gRecId).toBytes locked env

def mkEvlRec (s : LogState) (l : LogId) (facility : UInt32) (eventType severity : Int32)
    (text : MsgText) (locked : Bool) (env : ProcInfo) : Option LogState :=
  logEvlRec s l (msgRecord env 0 facility eventType severity text) locked env

/-! ## Start and stop -/

/-- The id in the last record of a log, as `openMaybeCreate` reads it
from the end of the file. -/
def readLastRecId : FileM Int32 := do
  let _ ← FileM.lseek (-4) .SEEK_CUR .eio
  let sizeBytes ← FileM.read 4
  if sizeBytes.length ≠ 4 then FileM.fail .eio
  else do
    -- `recsize = recsize + sizeof(int)`, stored in an int
    let recsize := Int.bmod (leInt sizeBytes + 4) (2 ^ 32)
    let _ ← FileM.lseek (-recsize) .SEEK_CUR .eio
    let recHdr ← FileM.read recHdrSize
    if recHdr.length ≠ recHdrSize then FileM.fail .eio
    else return (PosixLogEntry.ofBytes recHdr).logRecid

/-- The header behind `map_hdr`. -/
def mapHdr : FileM LogHeader := fun f => (.ok (LogHeader.ofBytes f.content), f)

/-- The `recId` `openMaybeCreate` finds in a log that was there before:
the id in the header or, after a SIGKILL, the one in the last record. -/
def recoverRecId (stSize : Nat) : FileM Int32 := do
  let _ ← FileM.lseek 0 .SEEK_END .eio
  if logHeaderSize < stSize then do
    let logRecid ← readLastRecId
    let hdr ← mapHdr
    return if hdr.lastRecId < logRecid then logRecid else hdr.lastRecId
  else return 0

/-- `openMaybeCreate` on a file with the given content (empty for a file
that does not exist), opened as descriptor `fd`. -/
def openMaybeCreate (disk : List UInt8) (fd : Int) : Except Errno LogInfo :=
  let file : OpenFile := ⟨disk, 0⟩
  let file := if disk.length = 0 then file.write freshLogHeader.toBytes else file
  match recoverRecId disk.length file with
  | (.error e, _) => .error e
  | (.ok recId, file) => .ok { fd := fd, recId := recId, file := file }

/-- The descriptors the two `open` calls return. -/
structure LogFds where
  evl : Int
  pvt : Int
  ne : evl ≠ pvt

/-- `initLogFiles`, up to the reading of the configuration; the error is
its `exit(1)`. -/
def initLogFiles (fds : LogFds) (evlDisk pvtDisk : List UInt8) : Except Errno LogState := do
  let evlLog ← openMaybeCreate evlDisk fds.evl
  let pvtLog ← openMaybeCreate pvtDisk fds.pvt
  let gRecId := if pvtLog.recId = 0 ∧ evlLog.recId = 0 then 0
    else if pvtLog.recId > evlLog.recId then pvtLog.recId else evlLog.recId
  -- `recId` now tells `getNextRecId` the type of the log
  return { evlLog := { evlLog with recId := 1 }, pvtLog := { pvtLog with recId := 0 }
           userEvlbuf := { buf := none, droppedEvt := 0, fd := evlLog.fd }
           userprivEvlbuf := { buf := none, droppedEvt := 0, fd := pvtLog.fd }
           gRecId := gRecId }

/-- A store to `last_recId` in the mapped header of a log file. -/
def setLastRecId (content : List UInt8) (recId : Int32) : List UInt8 :=
  content.take 16 ++ leBytes 4 recId.toUInt32.toNat ++ content.drop 20

/-- What `evlogdstopdaemon` leaves on disk, after it has written the
pending duplicates. Records in the secondary buffers are not drained. -/
def evlogdstopdaemon (s : LogState) : List UInt8 × List UInt8 :=
  (setLastRecId s.evlLog.file.content s.gRecId, setLastRecId s.pvtLog.file.content s.gRecId)

/-- What happens to the daemon: it logs a record it received, logs one of
its own, is stopped by a signal it handles and started again, or is
killed by SIGKILL and started again. -/
inductive DaemonStep where
  | logEvlRec (l : LogId) (rec : LogRecord) (locked : Bool) (env : ProcInfo)
  | mkEvlRec (l : LogId) (facility : UInt32) (eventType severity : Int32) (text : MsgText)
      (locked : Bool) (env : ProcInfo)
  | restart (fds : LogFds)
  | sigkill (fds : LogFds)

/-- One step of the daemon; `none` is a failed call or start. -/
def daemonStep (s : LogState) : DaemonStep → Option LogState
  | .logEvlRec l rec locked env => logEvlRec s l rec locked env
  | .mkEvlRec l facility eventType severity text locked env =>
    mkEvlRec s l facility eventType severity text locked env
  | .restart fds =>
    (initLogFiles fds (evlogdstopdaemon s).1 (evlogdstopdaemon s).2).toOption
  | .sigkill fds =>
    -- the secondary buffers and the counter are gone, the headers as they were
    (initLogFiles fds s.evlLog.file.content s.pvtLog.file.content).toOption

end Evlog.Evlogd
