/-
Evlog.Evlogmgr.Compact — log compaction of evlogmgr (evl_logmgmt.c).

`compactLog` walks the records of the locked log file and slides every
record it keeps up into the hole that the deleted ones before it have
left; at the end the file is cut off where the hole begins. Nothing but
the query and the text of the message it has just logged itself decides
what is kept. `evl_compact_log` wraps this in a backup copy and two
changes of the header's generation number.

The log is one open file. `off_t` is `Int`: file offsets do not reach
2^63. Counts out of a corrupt record keep their C width: `log_size` is a
`size_t`, `getRecLen` returns an `int`. A `read` of more than `SSIZE_MAX`
bytes fails. `varbuf` is a fixed array that keeps what earlier records left
in it; a record that puts more into it than it holds is the end `overrun`.
Writes, the lock and `ftruncate` succeed. `trail` lists what the file
contained after each change: readers, who do not take the lock, may meet it.
-/
import Evlog.Lib.OpenFile
import Evlog.Posix.LogFile

namespace Evlog.Evlogmgr

open Evlog.Lib Evlog.Posix

/-! ## Records of a log file that may be corrupt -/

/-- `struct file_offset_info`; `beginhole` is 0 while there is no hole. -/
structure FileOffsetInfo where
  offset : Int
  beginhole : Int
  bytesToProcess : Int
  deriving DecidableEq, Repr

def logrecMagicHiword : UInt32 := 0xfeef0000

/-- `getRecLen`: the length of the whole record as an `int`, or -1. -/
def getRecLen (rhdr : PosixLogEntry) : Int32 :=
  if rhdr.logMagic &&& 0xffff0000 = logrecMagicHiword then
    (rhdr.logSize + UInt64.ofNat (recHdrSize + sizeSize)).toUInt32.toInt32
  else -1

/-- `lseek(logfd, offset, SEEK_SET)` where the result is not looked at. -/
def seekTo (f : OpenFile) (offset : Int) : OpenFile :=
  (f.lseek offset .SEEK_SET).getD f

/-- `read(logfd, buf, count)` with the value returned taken as a `size_t`:
the bytes stored, that value and the file. -/
def readCount (f : OpenFile) (count : UInt64) : List UInt8 × UInt64 × OpenFile :=
  if 2 ^ 63 ≤ count.toNat then ([], -1, f)
  else
    let r := f.read count.toNat
    (r.1, UInt64.ofNat r.1.length, r.2)

/-- `moveRecordUp`: the file, the new begin of the hole and the file after
each of the two writes; `none` when it returns -1. The record's data is
given in `buf`, or read from the file when `buf` is NULL. -/
def moveRecordUp (f : OpenFile) (beginhole : Int) (rechdr : List UInt8)
    (buf : Option (List UInt8)) : Option (OpenFile × Int × List (List UInt8)) :=
  let logSize := (PosixLogEntry.ofBytes rechdr).logSize
  let remainder := logSize.toNat + sizeSize
  if posixLogEntryMaxlen < logSize.toNat then none
  else
    let varbuf := match buf with
      | some buf => some (buf.take remainder)
      | none =>
        let bytes := (f.read remainder).1
        if bytes.length = remainder then some bytes else none
    match varbuf, f.lseek beginhole .SEEK_SET with
    | some varbuf, some f =>
      let f₁ := f.write rechdr
      let f₂ := f₁.write varbuf
      some (f₂, beginhole + recHdrSize + remainder, [f₁.content, f₂.content])
    | _, _ => none

/-! ## `compactLog` -/

/-- Why a pass does not get to the end of the log. -/
inductive CompactEnd where
  | eio
  | overrun
  deriving DecidableEq, Repr

/-- A record as the pass reads it: its header, `varbuf` afterwards and the
record's length. -/
structure ReadRecord where
  rechdr : List UInt8
  varbuf : List UInt8
  reclen : Int32
  deriving DecidableEq, Repr

/-- The three reads of one turn, at `offset`. -/
def readRecord (f : OpenFile) (offset : Int) (varbuf : List UInt8) : Except CompactEnd ReadRecord :=
  let (rechdr, f) := (seekTo f offset).read recHdrSize
  if rechdr.length ≠ recHdrSize then .error .eio
  else
    let entry := PosixLogEntry.ofBytes rechdr
    let reclen := getRecLen entry
    if reclen = -1 then .error .eio
    else
      let count := entry.logSize + UInt64.ofNat sizeSize
      let (bytes, ret, _) := readCount f count
      if posixLogEntryMaxlen + sizeSize < bytes.length then .error .overrun
      else if ret ≠ count then .error .eio
      else .ok ⟨rechdr, bytes ++ varbuf.drop bytes.length, reclen⟩

/-- The string that starts at `buf`. -/
def cBytesAt (buf : List UInt8) : List UInt8 := buf.takeWhile (· ≠ 0)

/-- `doesRecMatchForDel`: the record matches the query, and is not the
message that was logged when this compaction started. -/
def doesRecMatchForDel (query : QueryEval) (logmgmtMsg : List UInt8) (rechdr varbuf : List UInt8) :
    Bool :=
  let entry := PosixLogEntry.ofBytes rechdr
  query entry (varbuf.take entry.logSize.toNat) && cBytesAt varbuf != logmgmtMsg

structure CompactState where
  file : OpenFile
  fi : FileOffsetInfo
  varbuf : List UInt8
  numDelrec : Nat
  trail : List (List UInt8)
  deriving DecidableEq, Repr

def compactStep (query : QueryEval) (logmgmtMsg : List UInt8) (c : CompactState) :
    Except CompactEnd CompactState :=
  match readRecord c.file c.fi.offset c.varbuf with
  | .error e => .error e
  | .ok r =>
    let offset := c.fi.offset + r.reclen.toInt
    let bytesToProcess := c.fi.bytesToProcess - r.reclen.toInt
    if doesRecMatchForDel query logmgmtMsg r.rechdr r.varbuf then
      let beginhole := if c.fi.beginhole = 0 then c.fi.offset else c.fi.beginhole
      .ok { c with fi := ⟨offset, beginhole, bytesToProcess⟩, varbuf := r.varbuf,
                   numDelrec := c.numDelrec + 1 }
    else if c.fi.beginhole ≠ 0 then
      match moveRecordUp c.file c.fi.beginhole r.rechdr (some r.varbuf) with
      | none => .error .eio
      | some (file, beginhole, trail) =>
        .ok { file := file, fi := ⟨offset, beginhole, bytesToProcess⟩, varbuf := r.varbuf,
              numDelrec := c.numDelrec, trail := c.trail ++ trail }
    else .ok { c with fi := ⟨offset, c.fi.beginhole, bytesToProcess⟩, varbuf := r.varbuf }

/-! ### Progress -/

variable {varbuf logmgmtMsg : List UInt8}

/-- The record has the length of its header and of the bytes read behind
it. Only a count of -1 is equal to the -1 that a failed `read` returns;
`varbuf` is then left alone. -/
theorem readRecord_spec {f : OpenFile} {offset : Int} {r : ReadRecord}
    (h : readRecord f offset varbuf = .ok r) :
    r.rechdr = ((seekTo f offset).read recHdrSize).1 ∧ r.rechdr.length = recHdrSize
      ∧ (PosixLogEntry.ofBytes r.rechdr).logMagic &&& 0xffff0000 = logrecMagicHiword
      ∧ (((PosixLogEntry.ofBytes r.rechdr).logSize + UInt64.ofNat sizeSize = -1
            ∧ r.reclen.toInt = 87 ∧ r.varbuf = varbuf)
        ∨ ∃ count : UInt64, (PosixLogEntry.ofBytes r.rechdr).logSize + UInt64.ofNat sizeSize = count
            ∧ count.toNat ≤ posixLogEntryMaxlen + sizeSize
            ∧ r.reclen.toInt = recHdrSize + count.toNat
            ∧ ∃ bytes, bytes = (((seekTo f offset).read recHdrSize).2.read count.toNat).1
              ∧ bytes.length = count.toNat ∧ r.varbuf = bytes ++ varbuf.drop bytes.length) := by
  simp only [readRecord] at h
  split_ifs at h with hhdr hlen hover hret
  obtain rfl := Except.ok.inj h
  simp only [ne_eq, not_not, not_lt] at hhdr hret hover ⊢
  rw [getRecLen] at hlen ⊢
  split at hlen
  · rename_i hmagic
    refine ⟨trivial, hhdr, hmagic, ?_⟩
    rw [if_pos hmagic]
    generalize (PosixLogEntry.ofBytes ((seekTo f offset).read recHdrSize).1).logSize = logSize at *
    generalize ((seekTo f offset).read recHdrSize).2 = f' at *
    have hsum : logSize + UInt64.ofNat (recHdrSize + sizeSize)
        = logSize + UInt64.ofNat sizeSize + UInt64.ofNat recHdrSize := by
      rw [UInt64.add_assoc]
      rfl
    rw [hsum]
    generalize logSize + UInt64.ofNat sizeSize = count at *
    rw [readCount] at hover hret ⊢
    split at hret
    · rename_i hmax
      simp only [hmax, if_true, List.length_nil, List.drop_zero, List.nil_append]
      obtain rfl : (-1 : UInt64) = count := hret
      exact Or.inl ⟨rfl, by decide, trivial⟩
    · rename_i hmax
      rw [if_neg hmax] at hover ⊢
      have hcount : (f'.read count.toNat).1.length = count.toNat := by
        have hlt : (f'.read count.toNat).1.length < 2 ^ 64 := by
          rw [OpenFile.read_length]
          have := count.toNat_lt
          omega
        have := congrArg UInt64.toNat hret
        rwa [UInt64.toNat_ofNat', Nat.mod_eq_of_lt hlt] at this
      rw [hcount] at hover
      have hsmall : count.toNat ≤ 8196 := hover
      have hadd : (count + UInt64.ofNat recHdrSize).toNat = count.toNat + 88 := by
        simp [recHdrSize]
        omega
      refine Or.inr ⟨count, rfl, hover, ?_, _, rfl, hcount, rfl⟩
      rw [toInt_narrow (by omega), hadd, recHdrSize]
      omega
  · simp at hlen

theorem readRecord_reclen {f : OpenFile} {offset : Int} {r : ReadRecord}
    (h : readRecord f offset varbuf = .ok r) : 0 < r.reclen.toInt := by
  obtain ⟨-, -, -, ⟨-, hlen, -⟩ | ⟨count, -, -, hlen, -⟩⟩ := readRecord_spec h
  · omega
  · rw [hlen, recHdrSize]
    omega

/-- What a turn that goes on did with the record: counted it as deleted,
moved it up, or left it where it is. -/
theorem compactStep_cases {query : QueryEval} {c c' : CompactState}
    (h : compactStep query logmgmtMsg c = .ok c') :
    ∃ r, readRecord c.file c.fi.offset c.varbuf = .ok r
      ∧ c'.fi.offset = c.fi.offset + r.reclen.toInt
      ∧ c'.fi.bytesToProcess = c.fi.bytesToProcess - r.reclen.toInt
      ∧ c'.varbuf = r.varbuf
      ∧ ((doesRecMatchForDel query logmgmtMsg r.rechdr r.varbuf = true
            ∧ c'.fi.beginhole = (if c.fi.beginhole = 0 then c.fi.offset else c.fi.beginhole)
            ∧ c'.file = c.file ∧ c'.numDelrec = c.numDelrec + 1 ∧ c'.trail = c.trail)
        ∨ (doesRecMatchForDel query logmgmtMsg r.rechdr r.varbuf = false
            ∧ c.fi.beginhole ≠ 0 ∧ c'.numDelrec = c.numDelrec
            ∧ ∃ trail, moveRecordUp c.file c.fi.beginhole r.rechdr (some r.varbuf)
                = some (c'.file, c'.fi.beginhole, trail) ∧ c'.trail = c.trail ++ trail)
        ∨ (doesRecMatchForDel query logmgmtMsg r.rechdr r.varbuf = false
            ∧ c.fi.beginhole = 0 ∧ c'.fi.beginhole = 0
            ∧ c'.file = c.file ∧ c'.numDelrec = c.numDelrec ∧ c'.trail = c.trail)) := by
  simp only [compactStep] at h
  split at h
  · simp at h
  · rename_i r hr
    refine ⟨r, hr, ?_⟩
    by_cases hdel : doesRecMatchForDel query logmgmtMsg r.rechdr r.varbuf = true
    · rw [if_pos hdel] at h
      obtain rfl := Except.ok.inj h
      exact ⟨rfl, rfl, rfl, Or.inl ⟨hdel, rfl, rfl, rfl, rfl⟩⟩
    · rw [if_neg hdel] at h
      have hkeep : doesRecMatchForDel query logmgmtMsg r.rechdr r.varbuf = false := by
        simpa using hdel
      by_cases hhole : c.fi.beginhole = 0
      · rw [if_neg (not_not.2 hhole)] at h
        obtain rfl := Except.ok.inj h
        exact ⟨rfl, rfl, rfl, Or.inr (Or.inr ⟨hkeep, hhole, hhole, rfl, rfl, rfl⟩)⟩
      · rw [if_pos hhole] at h
        split at h
        · simp at h
        · rename_i file beginhole trail hmove
          obtain rfl := Except.ok.inj h
          exact ⟨rfl, rfl, rfl, Or.inr (Or.inl ⟨hkeep, hhole, rfl, trail, hmove, rfl⟩)⟩

theorem compactStep_progress {query : QueryEval} {c c' : CompactState}
    (h : compactStep query logmgmtMsg c = .ok c') : c'.fi.bytesToProcess < c.fi.bytesToProcess := by
  obtain ⟨r, hr, -, hbytes, -⟩ := compactStep_cases h
  have := readRecord_reclen hr
  omega

/-- The loop: the state it ends in, and why it ended if not at the end of
the file. -/
def compactLoop (query : QueryEval) (logmgmtMsg : List UInt8) (c : CompactState) :
    CompactState × Option CompactEnd :=
  if 0 < c.fi.bytesToProcess then
    match _h : compactStep query logmgmtMsg c with
    | .error e => (c, some e)
    | .ok c' => compactLoop query logmgmtMsg c'
  else (c, none)
termination_by c.fi.bytesToProcess.toNat
decreasing_by
  have := compactStep_progress _h
  omega

section Loop

variable {query : QueryEval} {logmgmtMsg : List UInt8} {c c' : CompactState} {e : CompactEnd}

theorem compactLoop_of_ok (hpos : 0 < c.fi.bytesToProcess)
    (h : compactStep query logmgmtMsg c = .ok c') :
    compactLoop query logmgmtMsg c = compactLoop query logmgmtMsg c' := by
  rw [compactLoop, if_pos hpos]
  split
  · simp_all
  · simp_all

theorem compactLoop_of_error (hpos : 0 < c.fi.bytesToProcess)
    (h : compactStep query logmgmtMsg c = .error e) :
    compactLoop query logmgmtMsg c = (c, some e) := by
  rw [compactLoop, if_pos hpos]
  split
  · simp_all
  · simp_all

theorem compactLoop_of_stop (hpos : ¬ 0 < c.fi.bytesToProcess) :
    compactLoop query logmgmtMsg c = (c, none) := by
  rw [compactLoop, if_neg hpos]

end Loop

/-- What `compactLog` leaves behind: its status (`none` when it did not
return one), the file, `g_num_delrec` and the trail. -/
structure CompactResult where
  ret : Option (Except Errno Unit)
  content : List UInt8
  numDelrec : Nat
  trail : List (List UInt8)

def compactStart (content varbuf : List UInt8) : CompactState :=
  { file := ⟨content, 0⟩
    fi := ⟨logHeaderSize, 0, (content.length : Int) - logHeaderSize⟩
    varbuf := varbuf, numDelrec := 0, trail := [] }

/-- `compactLog`; `varbuf` is what the array holds before it is first
written. -/
def compactLog (query : QueryEval) (logmgmtMsg : List UInt8) (varbuf content : List UInt8) :
    CompactResult :=
  if content.length = 0 then ⟨some (.error .eio), content, 0, []⟩
  else
    match compactLoop query logmgmtMsg (compactStart content varbuf) with
    | (c, some .overrun) => ⟨none, c.file.content, c.numDelrec, c.trail⟩
    | (c, some .eio) => ⟨some (.error .eio), c.file.content, c.numDelrec, c.trail⟩
    | (c, none) =>
      if 0 < c.fi.beginhole then
        let cut := c.file.content.take c.fi.beginhole.toNat
        ⟨some (.ok ()), cut, c.numDelrec, c.trail ++ [cut]⟩
      else ⟨some (.ok ()), c.file.content, c.numDelrec, c.trail⟩

/-! ## `evl_compact_log` -/

/-- `set_gen_t`; only the two values that are passed anywhere. -/
inductive SetGen where
  | GEN_EVEN
  | GEN_ODD
  deriving DecidableEq, Repr

/-- The generation `setGenerationNumber` stores. -/
def SetGen.next : SetGen → UInt32 → UInt32
  | .GEN_EVEN, gen => if gen % 2 ≠ 0 then gen + 1 else gen
  | .GEN_ODD, gen => if gen % 2 = 0 then gen + 1 else gen

/-- Where `log_generation` lies in a `log_header_t`. -/
def logGenerationOffset : Nat := 32

/-- The file with another generation number in its header. -/
def withGeneration (content : List UInt8) (gen : UInt32) : List UInt8 :=
  content.take logGenerationOffset ++ leBytes 4 gen.toNat
    ++ content.drop (logGenerationOffset + 4)

/-- `setGenerationNumber`; `none` is `EBADF`. -/
def setGenerationNumber (type : SetGen) (content : List UInt8) : Option (List UInt8) :=
  if content.length < logHeaderSize then none
  else
    let hdr := LogHeader.ofBytes content
    if hdr.logMagic ≠ logfileMagic then none
    else some (withGeneration content (type.next hdr.logGeneration))

/-- What `evl_compact_log` leaves behind; `backup` is the backup file, if
there is one when it returns. -/
structure CompactLogResult where
  ret : Option (Except Errno Unit)
  content : List UInt8
  backup : Option (List UInt8)
  trail : List (List UInt8)

/-- Everything from `err_exit` on: the generation is made even and the
backup, if one was made, is removed. -/
def compactExit (ret : Option (Except Errno Unit)) (content : List UInt8)
    (trail : List (List UInt8)) : CompactLogResult :=
  match setGenerationNumber .GEN_EVEN content with
  | some content' => ⟨ret, content', none, trail ++ [content']⟩
  | none => ⟨some (.error .ebadf), content, none, trail⟩

/-- `evl_compact_log` from the point on where the log is open and locked.
`backupMade` says whether `createBackUp` succeeds, `force` is the
`EVL_FORCE_COMPACT` flag. A backup is a copy of the whole file. -/
def evlCompactLog (query : QueryEval) (logmgmtMsg varbuf : List UInt8) (backupMade force : Bool)
    (content : List UInt8) : CompactLogResult :=
  if !backupMade && !force then compactExit (some (.error .ebadf)) content []
  else
    match setGenerationNumber .GEN_ODD content with
    | none => compactExit (some (.error .ebadf)) content []
    | some odd =>
      let r := compactLog query logmgmtMsg varbuf odd
      match r.ret with
      | none =>
        -- the process is gone in the middle of the pass
        ⟨none, r.content, if backupMade then some content else none, odd :: r.trail⟩
      | some ret => compactExit (some ret) r.content (odd :: r.trail)

end Evlog.Evlogmgr
