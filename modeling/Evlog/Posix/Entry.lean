/-
Evlog.Posix.Entry — the two structures an event log file is made of.

A log file is a `log_header_t` followed by records; a record is a
`struct posix_log_entry`, `log_size` bytes of variable data and the
length of the two as an `evlrecsize_t`, for seeking backward. Both
structures are written as they lie in memory: LP64 little endian (x86_64),
40 and 88 bytes. Padding bytes, which no function looks at, are rendered as
zeros and skipped on reading.

Field types follow the headers: `int` is `Int32`, `unsigned int` is
`UInt32`, `size_t` and `pthread_t` are `UInt64`, `long`, `off_t` and the
members of `struct timespec` are `Int64`.

`LogRecord` is a record a writer may log: the data has the length the header
announces and fits in `POSIX_LOG_ENTRY_MAXLEN`.
-/
import Evlog.Lib.ByteCodec

namespace Evlog.Posix

open Evlog.Lib

/-! ## Constants of evl_log.h and evlog.h -/

/-- `POSIX_LOG_ENTRY_MAXLEN`: maximum length of the variable portion. -/
def posixLogEntryMaxlen : Nat := 8 * 1024

def posixLogMemstrMaxlen : Nat := 128

/-- `REC_HDR_SIZE`, i.e. `sizeof(struct posix_log_entry)`. -/
def recHdrSize : Nat := 88

/-- `SIZESIZE`, i.e. `sizeof(evlrecsize_t)`. -/
def sizeSize : Nat := 4

/-- `sizeof(log_header_t)`. -/
def logHeaderSize : Nat := 40

/-- `LOGFILE_MAGIC`, the first word of every log file. -/
def logfileMagic : UInt32 := 0xbeefface

/-- `LOGREC_MAGIC`; the low half is replaced by an architecture code. -/
def logrecMagic : UInt32 := 0xfeefface

/-! ### Formats and flags -/

def posixLogNodata : Int32 := 0
def posixLogBinary : Int32 := 1
def posixLogString : Int32 := 2
def posixLogPrintf : Int32 := 3

def posixLogTruncate : UInt32 := 0x1
def evlKernelEvent : UInt32 := 0x2
def evlInterrupt : UInt32 := 0x10
def evlPrintk : UInt32 := 0x20

/-! ## `struct posix_log_entry` -/

structure PosixLogEntry where
  logMagic : UInt32
  logRecid : Int32
  logSize : UInt64
  logFormat : Int32
  logEventType : Int32
  logFacility : UInt32
  logSeverity : Int32
  logUid : UInt32
  logGid : UInt32
  logPid : Int32
  logPgrp : Int32
  logTimeSec : Int64
  logTimeNsec : Int64
  logFlags : UInt32
  logThread : UInt64
  logProcessor : Int32
  deriving DecidableEq, Repr

def PosixLogEntry.toBytes (e : PosixLogEntry) : List UInt8 :=
  leBytes 4 e.logMagic.toNat ++ (leBytes 4 e.logRecid.toUInt32.toNat ++
  (leBytes 8 e.logSize.toNat ++ (leBytes 4 e.logFormat.toUInt32.toNat ++
  (leBytes 4 e.logEventType.toUInt32.toNat ++ (leBytes 4 e.logFacility.toNat ++
  (leBytes 4 e.logSeverity.toUInt32.toNat ++ (leBytes 4 e.logUid.toNat ++
  (leBytes 4 e.logGid.toNat ++ (leBytes 4 e.logPid.toUInt32.toNat ++
  (leBytes 4 e.logPgrp.toUInt32.toNat ++ (leBytes 8 e.logTimeSec.toUInt64.toNat ++
  (leBytes 8 e.logTimeNsec.toUInt64.toNat ++ (leBytes 4 e.logFlags.toNat ++
  (leBytes 4 0 ++ (leBytes 8 e.logThread.toNat ++
  (leBytes 4 e.logProcessor.toUInt32.toNat ++ leBytes 4 0))))))))))))))))

def PosixLogEntry.ofBytes (bs : List UInt8) : PosixLogEntry :=
  let (magic, bs) := takeLE 4 bs
  let (recid, bs) := takeLE 4 bs
  let (size, bs) := takeLE 8 bs
  let (format, bs) := takeLE 4 bs
  let (eventType, bs) := takeLE 4 bs
  let (facility, bs) := takeLE 4 bs
  let (severity, bs) := takeLE 4 bs
  let (uid, bs) := takeLE 4 bs
  let (gid, bs) := takeLE 4 bs
  let (pid, bs) := takeLE 4 bs
  let (pgrp, bs) := takeLE 4 bs
  let (sec, bs) := takeLE 8 bs
  let (nsec, bs) := takeLE 8 bs
  let (flags, bs) := takeLE 4 bs
  let (_, bs) := takeLE 4 bs
  let (thread, bs) := takeLE 8 bs
  let (processor, _) := takeLE 4 bs
  { logMagic := .ofNat magic
    logRecid := (UInt32.ofNat recid).toInt32
    logSize := .ofNat size
    logFormat := (UInt32.ofNat format).toInt32
    logEventType := (UInt32.ofNat eventType).toInt32
    logFacility := .ofNat facility
    logSeverity := (UInt32.ofNat severity).toInt32
    logUid := .ofNat uid
    logGid := .ofNat gid
    logPid := (UInt32.ofNat pid).toInt32
    logPgrp := (UInt32.ofNat pgrp).toInt32
    logTimeSec := (UInt64.ofNat sec).toInt64
    logTimeNsec := (UInt64.ofNat nsec).toInt64
    logFlags := .ofNat flags
    logThread := .ofNat thread
    logProcessor := (UInt32.ofNat processor).toInt32 }

@[simp] theorem PosixLogEntry.toBytes_length (e : PosixLogEntry) :
    e.toBytes.length = recHdrSize := by
  simp [toBytes, recHdrSize]

/-- A header read back from its bytes, whatever follows them. -/
theorem PosixLogEntry.ofBytes_toBytes_append (e : PosixLogEntry) (rest : List UInt8) :
    PosixLogEntry.ofBytes (e.toBytes ++ rest) = e := by
  simp only [toBytes, ofBytes, List.append_assoc, takeLE_leBytes_append,
    uint32_ofNat_mod, uint64_ofNat_mod, Int32.toInt32_toUInt32, Int64.toInt64_toUInt64]

@[simp] theorem PosixLogEntry.ofBytes_toBytes (e : PosixLogEntry) :
    PosixLogEntry.ofBytes e.toBytes = e := by
  simpa using e.ofBytes_toBytes_append []

/-! ## `log_header_t` -/

structure LogHeader where
  logMagic : UInt32
  logVersion : Int64
  lastRecId : Int32
  reserved1 : Int64
  logGeneration : UInt32
  deriving DecidableEq, Repr

def LogHeader.toBytes (h : LogHeader) : List UInt8 :=
  leBytes 4 h.logMagic.toNat ++ (leBytes 4 0 ++ (leBytes 8 h.logVersion.toUInt64.toNat ++
  (leBytes 4 h.lastRecId.toUInt32.toNat ++ (leBytes 4 0 ++
  (leBytes 8 h.reserved1.toUInt64.toNat ++ (leBytes 4 h.logGeneration.toNat ++
  leBytes 4 0))))))

def LogHeader.ofBytes (bs : List UInt8) : LogHeader :=
  let (magic, bs) := takeLE 4 bs
  let (_, bs) := takeLE 4 bs
  let (version, bs) := takeLE 8 bs
  let (recId, bs) := takeLE 4 bs
  let (_, bs) := takeLE 4 bs
  let (reserved, bs) := takeLE 8 bs
  let (generation, _) := takeLE 4 bs
  { logMagic := .ofNat magic
    logVersion := (UInt64.ofNat version).toInt64
    lastRecId := (UInt32.ofNat recId).toInt32
    reserved1 := (UInt64.ofNat reserved).toInt64
    logGeneration := .ofNat generation }

@[simp] theorem LogHeader.toBytes_length (h : LogHeader) : h.toBytes.length = logHeaderSize := by
  simp [toBytes, logHeaderSize]

/-- A file header read back from its bytes, whatever follows them. -/
theorem LogHeader.ofBytes_toBytes_append (h : LogHeader) (rest : List UInt8) :
    LogHeader.ofBytes (h.toBytes ++ rest) = h := by
  simp only [toBytes, ofBytes, List.append_assoc, takeLE_leBytes_append,
    uint32_ofNat_mod, uint64_ofNat_mod, Int32.toInt32_toUInt32, Int64.toInt64_toUInt64]

/-! ## Records -/

/-- A record whose data block has the announced size and fits. -/
structure LogRecord where
  entry : PosixLogEntry
  data : List UInt8
  size_eq : data.length = entry.logSize.toNat
  size_le : entry.logSize.toNat ≤ posixLogEntryMaxlen

/-- Header and data together: the record without its trailing size. -/
def LogRecord.body (r : LogRecord) : List UInt8 := r.entry.toBytes ++ r.data

def LogRecord.toBytes (r : LogRecord) : List UInt8 :=
  r.entry.toBytes ++ (r.data ++ leBytes sizeSize (recHdrSize + r.entry.logSize.toNat))

theorem LogRecord.body_length (r : LogRecord) :
    r.body.length = recHdrSize + r.entry.logSize.toNat := by
  simp [body, r.size_eq]

theorem LogRecord.toBytes_eq (r : LogRecord) :
    r.toBytes = r.body ++ leBytes sizeSize r.body.length := by
  rw [body_length, body, toBytes, List.append_assoc]

theorem LogRecord.toBytes_length (r : LogRecord) :
    r.toBytes.length = recHdrSize + r.entry.logSize.toNat + sizeSize := by
  simp [toBytes, r.size_eq]
  omega

end Evlog.Posix
