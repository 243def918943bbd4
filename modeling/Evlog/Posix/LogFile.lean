/-
Evlog.Posix.LogFile — the functions of posix2.c that know the layout of
the log file, and `posix_log_read` and `posix_log_seek` of posix1.c on top
of them.

Each C function becomes a `FileM` computation on the log descriptor's
open file: status 0 is `.ok`, every other status the `Errno` it returns,
and the file offset the read pointer the caller is left with. Advisory locks
and the messages on stderr are left out.

A query is its evaluation, an arbitrary predicate on header and data
(`QueryEval`); `none` is the NULL query, which matches every record.

The two scan loops are recursions on the open file: a successful `_evlRead`
started before the end of the file and moved the offset forward, a
successful backward step moved it back.
-/
import Evlog.Lib.OpenFile
import Evlog.Posix.Entry

namespace Evlog.Posix

open Evlog.Lib

/-! ## Writing -/

/-- `_evlFdWrite`: header, data and the size of both, in one `write`.
`none` is an entry whose data does not fit in `writebuf`. -/
def evlFdWrite (entry : PosixLogEntry) (buf : List UInt8) : Option (FileM Unit) :=
  let wholeRecSize := recHdrSize + entry.logSize.toNat
  if entry.logSize.toNat ≤ posixLogEntryMaxlen then
    some (FileM.write (entry.toBytes
      ++ (buf.take entry.logSize.toNat ++ leBytes sizeSize wholeRecSize)))
  else none

/-- The header `_evlWriteLogHeader` composes. -/
def freshLogHeader : LogHeader :=
  { logMagic := logfileMagic, logVersion := 0, lastRecId := 0, reserved1 := 0,
    logGeneration := 0 }

def evlWriteLogHeader : FileM Unit := FileM.write freshLogHeader.toBytes

/-! ## Reading -/

/-- `readBuf`: exactly `len` bytes, or `EAGAIN` at the end of the file
and `EIO` when the file ends inside the block. -/
def readBuf (len : Nat) : FileM (List UInt8) := do
  let bytes ← FileM.read len
  if bytes.length = 0 then FileM.fail .eagain
  else if bytes.length ≠ len then FileM.fail .eio
  else return bytes

/-- `readBuf` at a place where its caller turns every failure into `EIO`. -/
def readBufEio (len : Nat) : FileM (List UInt8) := fun f =>
  match readBuf len f with
  | (.error _, f') => (.error .eio, f')
  | r => r

/-- The variable data of a record of `dataLen` bytes, as far as the
caller's buffer (`none` for NULL, else its length) takes it. -/
def readData (buf : Option Nat) (dataLen : Nat) : FileM (List UInt8) :=
  if 0 < dataLen then
    match buf with
    | some (bufLen + 1) => do
      let ioBuf ← readBufEio dataLen
      if dataLen ≤ bufLen + 1 then return ioBuf else return ioBuf.take (bufLen + 1)
    | _ => do
      let _ ← FileM.lseek dataLen .SEEK_CUR .eio
      return []
  else return []

def evlRead (buf : Option Nat) : FileM (PosixLogEntry × List UInt8) := do
  let hdr ← readBuf recHdrSize
  let entry := PosixLogEntry.ofBytes hdr
  let dataLen := entry.logSize.toNat
  if posixLogEntryMaxlen < dataLen then FileM.fail .eio
  else do
    let data ← readData buf dataLen
    let _ ← FileM.lseek sizeSize .SEEK_CUR .eio
    return (entry, data)

/-- `_evlRewind`: to the first record, just past the file header. -/
def evlRewind : FileM Unit := do
  let _ ← FileM.lseek logHeaderSize .SEEK_SET .eio
  return ()

def evlSeekEnd : FileM Unit := do
  let _ ← FileM.lseek 0 .SEEK_END .eio
  return ()

/-! ## What a successful read leaves behind -/

variable {f f' : OpenFile}

theorem readBuf_ok {len : Nat} {bytes : List UInt8} (h : readBuf len f = (.ok bytes, f')) :
    0 < len ∧ bytes.length = len ∧ f.offset + len ≤ f.content.length
      ∧ f' = { f with offset := f.offset + len } := by
  simp only [readBuf, FileM.bind_apply, FileM.read] at h
  have hlen := f.read_length len
  split_ifs at h with h0 h1
  · simp at h
  · simp at h
  · simp only [FileM.pure_apply, Prod.mk.injEq, Except.ok.injEq] at h
    obtain ⟨rfl, rfl⟩ := h
    push Not at h1
    refine ⟨by omega, h1, by omega, ?_⟩
    simp only [OpenFile.read] at h1 ⊢
    rw [h1]

theorem readBufEio_ok {len : Nat} {bytes : List UInt8} (h : readBufEio len f = (.ok bytes, f')) :
    readBuf len f = (.ok bytes, f') := by
  rw [readBufEio] at h
  split at h
  · simp at h
  · exact h

theorem lseek_ok {off : Int} {w : Whence} {e : Errno} {pos : Nat}
    (h : FileM.lseek off w e f = (.ok pos, f')) : f.lseek off w = some f' ∧ pos = f'.offset := by
  simp only [FileM.lseek] at h
  split at h
  · rename_i f'' hf
    simp only [Prod.mk.injEq, Except.ok.injEq] at h
    obtain ⟨rfl, rfl⟩ := h
    exact ⟨hf, rfl⟩
  · simp at h

theorem readData_ok {buf : Option Nat} {n : Nat} {data : List UInt8}
    (h : readData buf n f = (.ok data, f')) : f' = { f with offset := f.offset + n } := by
  simp only [readData] at h
  split at h
  · split at h
    · obtain ⟨ioBuf, f1, h1, h2⟩ := FileM.bind_eq_ok h
      have hf1 := (readBuf_ok (readBufEio_ok h1)).2.2.2
      split_ifs at h2
      all_goals
        simp only [FileM.pure_apply, Prod.mk.injEq, Except.ok.injEq] at h2
        rw [← h2.2, hf1]
    · obtain ⟨pos, f1, h1, h2⟩ := FileM.bind_eq_ok h
      have hf1 := (lseek_ok h1).1
      rw [OpenFile.lseek_cur, Option.some.injEq] at hf1
      simp only [FileM.pure_apply, Prod.mk.injEq, Except.ok.injEq] at h2
      rw [← h2.2, hf1]
  · simp only [FileM.pure_apply, Prod.mk.injEq, Except.ok.injEq] at h
    obtain ⟨-, rfl⟩ := h
    obtain rfl : n = 0 := by omega
    rfl

/-- A successful `_evlRead` started before the end of the file and moved
the offset past header, data and trailing size. -/
theorem evlRead_ok {buf : Option Nat} {entry : PosixLogEntry} {data : List UInt8}
    (h : evlRead buf f = (.ok (entry, data), f')) :
    f.offset < f.content.length
      ∧ f' = { f with
          offset := f.offset + (recHdrSize + entry.logSize.toNat + sizeSize) } := by
  obtain ⟨hdr, f1, h1, h2⟩ := FileM.bind_eq_ok h
  obtain ⟨-, -, hle, hf1⟩ := readBuf_ok h1
  have hlt : f.offset < f.content.length := by
    simp only [recHdrSize] at hle
    omega
  refine ⟨hlt, ?_⟩
  dsimp only at h2
  split_ifs at h2
  · simp at h2
  · obtain ⟨d, f2, h3, h4⟩ := FileM.bind_eq_ok h2
    obtain ⟨pos, f3, h5, h6⟩ := FileM.bind_eq_ok h4
    have hf3 := (lseek_ok h5).1
    rw [OpenFile.lseek_cur, Option.some.injEq] at hf3
    simp only [FileM.pure_apply, Prod.mk.injEq, Except.ok.injEq] at h6
    obtain ⟨⟨rfl, rfl⟩, rfl⟩ := h6
    rw [← hf3, readData_ok h3, hf1]
    simp only [OpenFile.mk.injEq, true_and]
    omega

/-! ## The two scan loops -/

/-- The evaluation of a query on a record's header and data. -/
abbrev QueryEval := PosixLogEntry → List UInt8 → Bool

/-- `!query || _evlEvaluateQuery(query, entry, buf)`. -/
def queryMatches (query : Option QueryEval) (entry : PosixLogEntry) (buf : List UInt8) : Bool :=
  match query with
  | none => true
  | some q => q entry buf

/-- The common end of a scan that found nothing: restore the read
pointer and return `ENOENT`. -/
def notFound (startPosition : Nat) : FileM Unit := do
  let _ ← FileM.lseek startPosition .SEEK_SET .eio
  FileM.fail .enoent

/-- The `for (;;)` of `_evlSeekFwd`. -/
def evlSeekFwdLoop (query : Option QueryEval) (startPosition : Nat) (f : OpenFile) :
    Except Errno Unit × OpenFile :=
  let curPosition := f.offset
  match _hread : evlRead (some posixLogEntryMaxlen) f with
  | (.error .eagain, f') => notFound startPosition f'
  | (.error _, f') => (.error .eio, f')
  | (.ok (entry, buf), f') =>
    if queryMatches query entry buf then
      (do let _ ← FileM.lseek curPosition .SEEK_SET .eio; return ()) f'
    else evlSeekFwdLoop query startPosition f'
termination_by f.content.length - f.offset
decreasing_by
  obtain ⟨hlt, rfl⟩ := evlRead_ok _hread
  simp only [recHdrSize]
  omega

def evlSeekFwd (query : Option QueryEval) : FileM Unit := fun f =>
  evlSeekFwdLoop query f.offset f

/-- The body of the `while` of `_evlSeekBkwd`: from the end of a record
to its start, returning the record. -/
def prevRecord : FileM (PosixLogEntry × List UInt8) := do
  let _ ← FileM.lseek (-(sizeSize : Int)) .SEEK_CUR .eio
  let sizeBytes ← readBufEio sizeSize
  -- `wholeRecSize` is an int, compared and added as a `size_t`
  let wholeRecSize := (leInt sizeBytes % 2 ^ 64).toNat
  if recHdrSize + posixLogEntryMaxlen < wholeRecSize then FileM.fail .einval
  else do
    let curPosition ← FileM.lseek (-((wholeRecSize + sizeSize : Nat) : Int)) .SEEK_CUR .eio
    let wholeRec ← readBufEio wholeRecSize
    let _ ← FileM.lseek curPosition .SEEK_SET .eio
    return (PosixLogEntry.ofBytes wholeRec, wholeRec.drop recHdrSize)

/-- A successful backward step moves the offset back by the record and
its trailing size, and nothing else. -/
theorem prevRecord_ok {r : PosixLogEntry × List UInt8} (h : prevRecord f = (.ok r, f')) :
    f'.content = f.content ∧ f'.offset + sizeSize < f.offset := by
  obtain ⟨p1, f1, h1, h⟩ := FileM.bind_eq_ok h
  obtain ⟨sz, f2, h2, h⟩ := FileM.bind_eq_ok h
  obtain ⟨hpos2, hlen2, hle2, hf2⟩ := readBuf_ok (readBufEio_ok h2)
  dsimp only at h
  split_ifs at h with hbig
  · simp at h
  · obtain ⟨p3, f3, h3, h⟩ := FileM.bind_eq_ok h
    obtain ⟨rec, f4, h4, h⟩ := FileM.bind_eq_ok h
    obtain ⟨hpos4, hlen4, hle4, hf4⟩ := readBuf_ok (readBufEio_ok h4)
    obtain ⟨p5, f5, h5, h⟩ := FileM.bind_eq_ok h
    obtain ⟨hs1, -⟩ := lseek_ok h1
    obtain ⟨hs3, hp3⟩ := lseek_ok h3
    obtain ⟨hs5, -⟩ := lseek_ok h5
    simp only [FileM.pure_apply, Prod.mk.injEq] at h
    obtain ⟨-, rfl⟩ := h
    rw [OpenFile.lseek_set, Option.some.injEq] at hs5
    simp only [OpenFile.lseek] at hs1 hs3
    split_ifs at hs1 hs3 with hge1 hge3
    simp only [Option.some.injEq] at hs1 hs3
    subst hs1 hs3
    simp only at hf2 hf4 hp3 hs5 hge3 hge1
    subst hf2 hf4 hs5
    simp only [sizeSize] at *
    refine ⟨trivial, ?_⟩
    omega

/-- The `while` of `_evlSeekBkwd`. At the loop head the offset is
`curPosition`. -/
def evlSeekBkwdLoop (query : Option QueryEval) (startPosition : Nat) (f : OpenFile) :
    Except Errno Unit × OpenFile :=
  if recHdrSize < f.offset then
    match _hprev : prevRecord f with
    | (.error e, f') => (.error e, f')
    | (.ok (entry, buf), f') =>
      if queryMatches query entry buf then (.ok (), f')
      else evlSeekBkwdLoop query startPosition f'
  else notFound startPosition f
termination_by f.offset
decreasing_by
  have := (prevRecord_ok _hprev).2
  omega

def evlSeekBkwd (query : Option QueryEval) : FileM Unit := fun f =>
  evlSeekBkwdLoop query f.offset f

/-! ## Opening, reading and seeking -/

/-- The `direction` argument of `posix_log_seek`. -/
inductive SeekDirection where
  | POSIX_LOG_SEEK_START
  | POSIX_LOG_SEEK_END
  | POSIX_LOG_SEEK_FORWARD
  | POSIX_LOG_SEEK_BACKWARD
  | POSIX_LOG_SEEK_FIRST
  | POSIX_LOG_SEEK_LAST
  deriving DecidableEq, Repr

/-- `posix_log_query_t`, with the parse tree replaced by its evaluation. -/
structure PosixLogQuery where
  quPurpose : UInt32
  quExpr : Option String
  quTree : Option QueryEval

/-- `_evlValidateQuery(query, 1)`: a NULL query is fine, any other needs
a tree, an expression and known purpose flags. -/
def evlValidateQuery (query : Option PosixLogQuery) : Bool :=
  match query with
  | none => true
  | some q => q.quTree.isSome && q.quExpr.isSome && q.quPurpose != 0
      && (q.quPurpose &&& ~~~(0xf : UInt32)) == 0

def logdMagic : UInt32 := 0xf00dface

/-- `log_desc_t`: an open log. `ld_header` is a map of the file's first
bytes, so it is read from the file. -/
structure LogDesc where
  ldMagic : UInt32
  ldGeneration : UInt32
  ldFile : OpenFile

/-- `_evlValidateLogdes(logd, 1)`. -/
def evlValidateLogdes (logd : LogDesc) : Bool :=
  logd.ldMagic == logdMagic
    && logd.ldGeneration == (LogHeader.ofBytes logd.ldFile.content).logGeneration

def isBusyLog (hdr : LogHeader) : Bool := hdr.logGeneration &&& 1 != 0

/-- `_evlOpen` of a file that can be opened and mapped. -/
def evlOpen (content : List UInt8) : Except Errno LogDesc :=
  let hdr := LogHeader.ofBytes content
  if hdr.logMagic ≠ logfileMagic then .error .einval
  else if isBusyLog hdr then .error .ebusy
  else .ok { ldMagic := logdMagic, ldGeneration := hdr.logGeneration
             ldFile := ⟨content, logHeaderSize⟩ }

/-- `posix_log_read`; `entry` tells whether the caller gave room for the
entry. -/
def posixLogRead (logd : LogDesc) (entry : Bool) (buf : Option Nat) :
    Except Errno (PosixLogEntry × List UInt8) × LogDesc :=
  if ¬ evlValidateLogdes logd then (.error .ebadf, logd)
  else if ¬ entry then (.error .einval, logd)
  else ((evlRead buf logd.ldFile).1, { logd with ldFile := (evlRead buf logd.ldFile).2 })

def LogDesc.run (logd : LogDesc) (m : FileM Unit) : Except Errno Unit × LogDesc :=
  ((m logd.ldFile).1, { logd with ldFile := (m logd.ldFile).2 })

def PosixLogQuery.eval (query : Option PosixLogQuery) : Option QueryEval :=
  query.bind PosixLogQuery.quTree

/-- `posix_log_seek`. The `switch` covers every `SeekDirection`; other
integers return `EINVAL`. -/
def posixLogSeek (logd : LogDesc) (query : Option PosixLogQuery) (direction : SeekDirection) :
    Except Errno Unit × LogDesc :=
  if ¬ evlValidateLogdes logd then (.error .ebadf, logd)
  else if ¬ evlValidateQuery query then (.error .einval, logd)
  else match direction with
    | .POSIX_LOG_SEEK_START =>
      if query.isSome then (.error .einval, logd) else logd.run evlRewind
    | .POSIX_LOG_SEEK_END =>
      if query.isSome then (.error .einval, logd) else logd.run evlSeekEnd
    | .POSIX_LOG_SEEK_FIRST =>
      logd.run do
        -- `_evlRewind` reports failure by a positive errno, tested with `< 0`
        let _ ← evlRewind
        if query.isSome then evlSeekFwd (PosixLogQuery.eval query) else return ()
    | .POSIX_LOG_SEEK_LAST =>
      logd.run do
        let _ ← evlSeekEnd
        evlSeekBkwd (PosixLogQuery.eval query)
    | .POSIX_LOG_SEEK_FORWARD => logd.run (evlSeekFwd (PosixLogQuery.eval query))
    | .POSIX_LOG_SEEK_BACKWARD => logd.run (evlSeekBkwd (PosixLogQuery.eval query))

end Evlog.Posix
