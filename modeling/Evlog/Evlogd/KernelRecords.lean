/-
Evlog.Evlogd.KernelRecords — the records of the kernel.

A child of evlogd reads the kernel's event buffer, some records at a time,
and sends them to evlogd. Each record has a header, which begins with a
magic number and a version if it is one of three `struct kern_log_entry`,
and is a `struct posix_log_entry` otherwise. `getRecHeader` finds out what
it is and how long it is, and the data follows. Before a record is passed
on, the loop corrects the time of an event that the kernel could not date,
and sets the event type where the kernel leaves it to the daemon.

`KernEnv` is what the child finds at a record: the registry, the clock and
whether `writeKernEvt` gets the record to evlogd.
-/
import Evlog.Posix.Facility

namespace Evlog.Evlogd.Kernel

open Evlog.Lib Evlog.Posix

/-! ## Headers -/

def logrecKmagic : Nat := 0x7af8

/-- The fields of a `struct kern_log_entry`. Version 1 and 2 have the code of
the facility, and version 3 has its name in 16 bytes. -/
structure KernLogEntry (φ : Type) where
  logSize : UInt16
  logFormat : Int8
  logSeverity : Int8
  logEventType : Int32
  logFacility : φ
  logUid : UInt32
  logGid : UInt32
  logPid : Int32
  logPgrp : Int32
  logTimeSec : Int64
  logTimeNsec : Int32
  logFlags : UInt32
  logProcessor : Int32

/-- The sizes of the three with their padding, on x86_64. -/
def kernLogEntryV1Size : Nat := 56
def kernLogEntryV2Size : Nat := 56
def kernLogEntryV3Size : Nat := 72

/-- A `struct kern_log_entry_v1` behind the magic and the version. -/
def KernLogEntry.ofBytesV1 (bs : List UInt8) : KernLogEntry UInt32 :=
  let (size, bs) := takeLE 2 bs
  let (format, bs) := takeLE 1 bs
  let (severity, bs) := takeLE 1 bs
  let (eventType, bs) := takeLE 4 bs
  let (facility, bs) := takeLE 4 bs
  let (uid, bs) := takeLE 4 bs
  let (gid, bs) := takeLE 4 bs
  let (pid, bs) := takeLE 4 bs
  let (pgrp, bs) := takeLE 4 bs
  let (sec, bs) := takeLE 8 bs
  let (nsec, bs) := takeLE 4 bs
  let (flags, bs) := takeLE 4 bs
  let (processor, _) := takeLE 4 bs
  { logSize := .ofNat size
    logFormat := (UInt8.ofNat format).toInt8
    logSeverity := (UInt8.ofNat severity).toInt8
    logEventType := (UInt32.ofNat eventType).toInt32
    logFacility := .ofNat facility
    logUid := .ofNat uid
    logGid := .ofNat gid
    logPid := (UInt32.ofNat pid).toInt32
    logPgrp := (UInt32.ofNat pgrp).toInt32
    logTimeSec := (UInt64.ofNat sec).toInt64
    logTimeNsec := (UInt32.ofNat nsec).toInt32
    logFlags := .ofNat flags
    logProcessor := (UInt32.ofNat processor).toInt32 }

def KernLogEntry.ofBytesV2 (bs : List UInt8) : KernLogEntry UInt32 :=
  let (size, bs) := takeLE 2 bs
  let (format, bs) := takeLE 1 bs
  let (severity, bs) := takeLE 1 bs
  let (eventType, bs) := takeLE 4 bs
  let (facility, bs) := takeLE 4 bs
  let (uid, bs) := takeLE 4 bs
  let (gid, bs) := takeLE 4 bs
  let (pid, bs) := takeLE 4 bs
  let (pgrp, bs) := takeLE 4 bs
  let (flags, bs) := takeLE 4 bs
  let (processor, bs) := takeLE 4 bs
  let (sec, bs) := takeLE 8 bs
  let (nsec, _) := takeLE 4 bs
  { logSize := .ofNat size
    logFormat := (UInt8.ofNat format).toInt8
    logSeverity := (UInt8.ofNat severity).toInt8
    logEventType := (UInt32.ofNat eventType).toInt32
    logFacility := .ofNat facility
    logUid := .ofNat uid
    logGid := .ofNat gid
    logPid := (UInt32.ofNat pid).toInt32
    logPgrp := (UInt32.ofNat pgrp).toInt32
    logTimeSec := (UInt64.ofNat sec).toInt64
    logTimeNsec := (UInt32.ofNat nsec).toInt32
    logFlags := .ofNat flags
    logProcessor := (UInt32.ofNat processor).toInt32 }

def facilityNameSize : Nat := 16

/-- There are four bytes of padding in front of the time. -/
def KernLogEntry.ofBytesV3 (bs : List UInt8) : KernLogEntry (List UInt8) :=
  let (size, bs) := takeLE 2 bs
  let (format, bs) := takeLE 1 bs
  let (severity, bs) := takeLE 1 bs
  let (eventType, bs) := takeLE 4 bs
  let (flags, bs) := takeLE 4 bs
  let (processor, bs) := takeLE 4 bs
  let (_, bs) := takeLE 4 bs
  let (sec, bs) := takeLE 8 bs
  let (nsec, bs) := takeLE 4 bs
  let (uid, bs) := takeLE 4 bs
  let (gid, bs) := takeLE 4 bs
  let (pid, bs) := takeLE 4 bs
  let (pgrp, bs) := takeLE 4 bs
  { logSize := .ofNat size
    logFormat := (UInt8.ofNat format).toInt8
    logSeverity := (UInt8.ofNat severity).toInt8
    logEventType := (UInt32.ofNat eventType).toInt32
    logFacility := bs.take facilityNameSize
    logUid := .ofNat uid
    logGid := .ofNat gid
    logPid := (UInt32.ofNat pid).toInt32
    logPgrp := (UInt32.ofNat pgrp).toInt32
    logTimeSec := (UInt64.ofNat sec).toInt64
    logTimeNsec := (UInt32.ofNat nsec).toInt32
    logFlags := .ofNat flags
    logProcessor := (UInt32.ofNat processor).toInt32 }

/-- What a case of `copyKernelHeader` sets in `entry`. -/
def KernLogEntry.copyTo {φ : Type} (kentry : KernLogEntry φ) (facility : UInt32)
    (entry : PosixLogEntry) : PosixLogEntry :=
  { entry with
    logMagic := 0
    logRecid := 0
    logSize := kentry.logSize.toUInt64
    logFormat := kentry.logFormat.toInt32
    logEventType := kentry.logEventType
    logFacility := facility
    logSeverity := kentry.logSeverity.toInt32
    logUid := kentry.logUid
    logGid := kentry.logGid
    logPid := kentry.logPid
    logPgrp := kentry.logPgrp
    logTimeSec := kentry.logTimeSec
    logTimeNsec := kentry.logTimeNsec.toInt64
    logFlags := kentry.logFlags
    logThread := 0
    logProcessor := kentry.logProcessor }

structure KernEnv where
  /-- `posix_log_strtofac`, with the registry as it is. -/
  strtofac : List UInt8 → Option UInt32
  /-- `time(0)`, and the `uptime` when the child was started. -/
  now : Int64
  uptime : Int64
  rtcIsLocal : Bool
  tzMinuteswest : Int32
  /-- `writeKernEvt` does not return `EIO`. -/
  writeOk : Bool

def logKern : UInt32 := 0

def KernEnv.facilityCode (env : KernEnv) (logFacility : List UInt8) : UInt32 :=
  let name := logFacility.takeWhile (· ≠ 0)
  match env.strtofac name with
  | some facility => facility
  | none => (evlGenFacilityCode name).getD logKern

def kernelVersion (buf : List UInt8) : Option Nat :=
  let (kmagic, bs) := takeLE 2 buf
  if kmagic = logrecKmagic then some (takeLE 2 bs).1 else none

/-- `copyKernelHeader`: the entry and the size of the header. -/
def copyKernelHeader (env : KernEnv) (buf : List UInt8) (entry : PosixLogEntry) :
    Option (PosixLogEntry × Nat) :=
  let version3 (entry : PosixLogEntry) : PosixLogEntry × Nat :=
    let kentry := KernLogEntry.ofBytesV3 (buf.drop 4)
    (kentry.copyTo (env.facilityCode kentry.logFacility) entry, kernLogEntryV3Size)
  match kernelVersion buf with
  | some 1 =>
    let kentry := KernLogEntry.ofBytesV1 (buf.drop 4)
    some (kentry.copyTo kentry.logFacility entry, kernLogEntryV1Size)
  | some 2 =>
    -- the case of version 2 has no break and goes on with that of version 3
    let kentry := KernLogEntry.ofBytesV2 (buf.drop 4)
    some (version3 (kentry.copyTo kentry.logFacility entry))
  | some 3 => some (version3 entry)
  | _ => none

def getRecHeader (env : KernEnv) (buf : List UInt8) (entry : PosixLogEntry) : PosixLogEntry × Nat :=
  match copyKernelHeader env buf entry with
  | some r => r
  | none => (PosixLogEntry.ofBytes buf, recHdrSize)

/-! ## The loop -/

def evlInitialBootEvent : UInt32 := 0x4
def evlKerntimeLocal : UInt32 := 0x8

/-- `EVL_EVTYCRC`: the daemon sets the event type. -/
def evlEvtycrc : UInt32 := 0x40

def typeFromString (rhdr : PosixLogEntry) : Bool :=
  rhdr.logFlags &&& evlEvtycrc != 0
    && (rhdr.logFormat == posixLogString || rhdr.logFormat == posixLogPrintf)

/-- The time of an event from before the clock was known, or of one that is
in local time. -/
def adjustTime (env : KernEnv) (rhdr : PosixLogEntry) : PosixLogEntry :=
  if rhdr.logFlags &&& evlInitialBootEvent ≠ 0 then
    { rhdr with logTimeSec := env.now - env.uptime, logTimeNsec := 0 }
  else if rhdr.logFlags &&& evlKerntimeLocal ≠ 0 ∧ env.rtcIsLocal then
    { rhdr with logTimeSec := rhdr.logTimeSec + (env.tzMinuteswest * 60).toInt64 }
  else rhdr

/-- What the loop changes in a header. `varbuf` is the buffer from the data
of the record on. -/
def adjust (env : KernEnv) (rhdr : PosixLogEntry) (varbuf : List UInt8) : PosixLogEntry :=
  let rhdr := adjustTime env rhdr
  -- mask off the time related flags
  let rhdr :=
    { rhdr with logFlags := rhdr.logFlags &&& ~~~(evlInitialBootEvent ||| evlKerntimeLocal) }
  if typeFromString rhdr then
    { rhdr with logEventType := evlGenEventTypeV2 (varbuf.takeWhile (· ≠ 0)) }
  else rhdr

/-- The loop over the records of one read. It gives the records handed to
`writeKernEvt`, if it comes to an end. `i` counts the records, and `entry`
is the `recheader` of the last one. -/
def processRecords (env : Nat → KernEnv) :
    Nat → Nat → PosixLogEntry → List UInt8 → Nat → Option (List (PosixLogEntry × List UInt8))
  | _, _, _, _, 0 => some []
  | 0, _, _, _, _ + 1 => none
  | fuel + 1, i, entry, bufp, j + 1 =>
    let (recheader, rechdrSize) := getRecHeader (env i) bufp entry
    let rlen := (recheader.logSize + UInt64.ofNat rechdrSize).toUInt32.toNat
    if j + 1 < rlen then
      -- found a partial record
      some []
    else
      let varbuf := bufp.drop rechdrSize
      let rhdr := adjust (env i) recheader varbuf
      let written := (rhdr, varbuf.take rhdr.logSize.toNat)
      if (env i).writeOk then
        (processRecords env fuel (i + 1) rhdr (bufp.drop rlen) (j + 1 - rlen)).map (written :: ·)
      else some [written]

/-- `processKernelEvents` on what one `ksyslog` has put into the buffer. A
record takes at least one byte. -/
def processKernelEvents (env : Nat → KernEnv) (entry : PosixLogEntry) (buf : List UInt8)
    (bytesRead : Nat) : Option (List (PosixLogEntry × List UInt8)) :=
  processRecords env bytesRead 0 entry buf bytesRead

end Evlog.Evlogd.Kernel
