/-
Evlog.Posix.LogFileTheorems — a well-formed log reads back, forward and
backward.

`logAt hdr rs i` is an open log holding the records `rs` behind the file
header `hdr`, with the read pointer on the boundary before record `i`
(`i = rs.length` is the end of the file). Two lemmas say what one step
does on such a log, and everything else is induction over boundaries:

  evlRead_logAt     a read at boundary `i` returns record `i`, shortened
                    to the caller's buffer, and stops at boundary `i + 1`;
  prevRecord_logAt  a backward step from boundary `i + 1` returns record
                    `i` and stops at boundary `i`.

The loop bound of `_evlSeekBkwd` compares the offset with
`sizeof(struct posix_log_entry)`, not with the size of the file header:
`offset_logAt_zero_le` and `lt_offset_logAt_succ` are why that is right.
-/
import Evlog.Posix.LogFile

namespace Evlog.Posix

open Evlog.Lib

/-! ## Well-formed logs and their boundaries -/

def logBytes (hdr : LogHeader) (rs : List LogRecord) : List UInt8 :=
  hdr.toBytes ++ rs.flatMap LogRecord.toBytes

/-- The offset before record `i`, or the end of the file. -/
def boundary (rs : List LogRecord) (i : Nat) : Nat :=
  logHeaderSize + ((rs.take i).flatMap LogRecord.toBytes).length

/-- The log with the read pointer on boundary `i`. -/
def logAt (hdr : LogHeader) (rs : List LogRecord) (i : Nat) : OpenFile :=
  ⟨logBytes hdr rs, boundary rs i⟩

theorem boundary_zero (rs : List LogRecord) : boundary rs 0 = logHeaderSize := by
  simp [boundary]

theorem boundary_length (hdr : LogHeader) (rs : List LogRecord) :
    boundary rs rs.length = (logBytes hdr rs).length := by
  simp only [boundary, logBytes, List.take_length, List.length_append, LogHeader.toBytes_length]

theorem boundary_succ (rs : List LogRecord) (i : Fin rs.length) :
    boundary rs (i + 1) = boundary rs i + (rs.get i).toBytes.length := by
  simp only [boundary, List.take_add_one, List.getElem?_eq_getElem i.isLt, Option.toList_some,
    List.flatMap_append, List.flatMap_singleton, List.length_append, List.get_eq_getElem]
  omega

/-- The log around boundary `i`: what precedes record `i`, the record,
and what follows it. -/
theorem logBytes_split (hdr : LogHeader) (rs : List LogRecord) (i : Fin rs.length) :
    ∃ pre post, logBytes hdr rs = pre ++ ((rs.get i).toBytes ++ post)
      ∧ pre.length = boundary rs i := by
  refine ⟨hdr.toBytes ++ (rs.take i).flatMap LogRecord.toBytes,
    (rs.drop (i + 1)).flatMap LogRecord.toBytes, ?_, ?_⟩
  · have hrs : rs = rs.take i ++ rs.get i :: rs.drop (i + 1) := by
      rw [List.get_eq_getElem, List.cons_getElem_drop_succ, List.take_append_drop]
    conv_lhs => rw [logBytes, hrs]
    rw [List.flatMap_append, List.flatMap_cons, List.append_assoc]
  · rw [List.length_append, LogHeader.toBytes_length, boundary]

/-- Before the first record the loop of `_evlSeekBkwd` stops. -/
theorem offset_logAt_zero_le (hdr : LogHeader) (rs : List LogRecord) :
    (logAt hdr rs 0).offset ≤ recHdrSize := by
  simp only [logAt, boundary_zero]
  decide

theorem lt_offset_logAt_succ (hdr : LogHeader) (rs : List LogRecord) (i : Fin rs.length) :
    recHdrSize < (logAt hdr rs (i + 1)).offset := by
  rw [logAt, boundary_succ, LogRecord.toBytes_length, boundary]
  simp only [logHeaderSize, recHdrSize, sizeSize]
  omega

/-! ## One step on a well-formed log -/

variable {f f' : OpenFile} {pre mid post data buf : List UInt8} {n start : Nat}

/-- `readBuf` where the file is known around the offset. -/
theorem readBuf_at (hc : f.content = pre ++ (mid ++ post)) (ho : f.offset = pre.length)
    (hn : mid.length = n) (hpos : 0 < n) :
    readBuf n f = (.ok mid, { f with offset := f.offset + n }) := by
  obtain ⟨content, offset⟩ := f
  simp only at hc ho
  subst hc ho hn
  simp only [readBuf, FileM.bind_apply, FileM.read, OpenFile.read_at]
  rw [if_neg (by omega), if_neg (by simp)]
  rfl

theorem readBufEio_at (hc : f.content = pre ++ (mid ++ post)) (ho : f.offset = pre.length)
    (hn : mid.length = n) (hpos : 0 < n) :
    readBufEio n f = (.ok mid, { f with offset := f.offset + n }) := by
  rw [readBufEio, readBuf_at hc ho hn hpos]

theorem lseek_cur_apply (n : Nat) (e : Errno) (f : OpenFile) : FileM.lseek n .SEEK_CUR e f
      = (.ok (f.offset + n), { f with offset := f.offset + n }) := by
  rw [FileM.lseek, OpenFile.lseek_cur]

theorem lseek_cur_back_apply (e : Errno) (h : n ≤ f.offset) : FileM.lseek (-(n : Int)) .SEEK_CUR e f
      = (.ok (f.offset - n), { f with offset := f.offset - n }) := by
  rw [FileM.lseek, OpenFile.lseek_cur_back h]

theorem lseek_set_apply (n : Nat) (e : Errno) (f : OpenFile) :
    FileM.lseek n .SEEK_SET e f = (.ok n, { f with offset := n }) := by
  rw [FileM.lseek, OpenFile.lseek_set]

/-- What a caller's buffer (`none` for NULL) receives of a data block. -/
def delivered (buf : Option Nat) (data : List UInt8) : List UInt8 :=
  data.take (buf.getD 0)

theorem delivered_of_le (h : data.length ≤ n) : delivered (some n) data = data := by
  simp [delivered, List.take_of_length_le h]

/-- The variable data where the file is known around the offset. -/
theorem readData_at (buf : Option Nat) (hc : f.content = pre ++ (data ++ post))
    (ho : f.offset = pre.length) (hn : data.length = n) :
    readData buf n f = (.ok (delivered buf data), { f with offset := f.offset + n }) := by
  unfold readData
  by_cases hpos : 0 < n
  · rw [if_pos hpos]
    match buf with
    | some (bufLen + 1) =>
      dsimp only
      rw [FileM.bind_ok (readBufEio_at hc ho hn hpos)]
      by_cases hle : n ≤ bufLen + 1
      · rw [if_pos hle, FileM.pure_apply, delivered_of_le (by omega)]
      · rw [if_neg hle, FileM.pure_apply]
        rfl
    | some 0 =>
      dsimp only
      rw [FileM.bind_ok (lseek_cur_apply n .eio f), FileM.pure_apply]
      simp [delivered]
    | none =>
      dsimp only
      rw [FileM.bind_ok (lseek_cur_apply n .eio f), FileM.pure_apply]
      simp [delivered]
  · obtain rfl : n = 0 := by omega
    obtain rfl : data = [] := List.length_eq_zero_iff.mp hn
    simp [delivered]

/-- A read at the start of a record returns the record, shortened to the
caller's buffer, and stops past its trailing size. -/
theorem evlRead_at {r : LogRecord} (buf : Option Nat) (hc : f.content = pre ++ (r.toBytes ++ post))
    (ho : f.offset = pre.length) :
    evlRead buf f = (.ok (r.entry, delivered buf r.data),
      { f with offset := f.offset + r.toBytes.length }) := by
  have hc1 : f.content = pre ++ (r.entry.toBytes ++ (r.data
      ++ leBytes sizeSize (recHdrSize + r.entry.logSize.toNat) ++ post)) := by
    rw [hc, LogRecord.toBytes, List.append_assoc]
  have hc2 : f.content = (pre ++ r.entry.toBytes) ++ (r.data
      ++ (leBytes sizeSize (recHdrSize + r.entry.logSize.toNat) ++ post)) := by
    rw [hc1, List.append_assoc, List.append_assoc]
  have hhdr := readBuf_at hc1 ho r.entry.toBytes_length (by decide)
  rw [evlRead, FileM.bind_ok hhdr]
  simp only [PosixLogEntry.ofBytes_toBytes]
  rw [if_neg (Nat.not_lt.mpr r.size_le)]
  have hdata := readData_at (f := { f with offset := f.offset + recHdrSize }) buf hc2
    (by rw [List.length_append, r.entry.toBytes_length, ho]) r.size_eq
  rw [FileM.bind_ok hdata, FileM.bind_ok (lseek_cur_apply sizeSize .eio _), FileM.pure_apply,
    r.toBytes_length]
  simp only [Nat.add_assoc]

theorem evlRead_logAt (hdr : LogHeader) (rs : List LogRecord) (buf : Option Nat)
    (i : Fin rs.length) :
    evlRead buf (logAt hdr rs i)
      = (.ok ((rs.get i).entry, delivered buf (rs.get i).data), logAt hdr rs (i + 1)) := by
  obtain ⟨pre, post, hc, hlen⟩ := logBytes_split hdr rs i
  rw [evlRead_at buf (f := logAt hdr rs i) hc hlen.symm]
  simp only [logAt, boundary_succ]

/-- At the end of the log a read returns `EAGAIN` and moves nothing. -/
theorem evlRead_logAt_end (hdr : LogHeader) (rs : List LogRecord) (buf : Option Nat) :
    evlRead buf (logAt hdr rs rs.length) = (.error .eagain, logAt hdr rs rs.length) := by
  have hend : (logAt hdr rs rs.length).content.length ≤ (logAt hdr rs rs.length).offset :=
    (boundary_length hdr rs).ge
  have hread : readBuf recHdrSize (logAt hdr rs rs.length)
      = (.error .eagain, logAt hdr rs rs.length) := by
    simp only [readBuf, FileM.bind_apply, FileM.read, OpenFile.read_past_end hend]
    rfl
  rw [evlRead, FileM.bind_error hread]

/-- A trailing size reads back as the length of header and data. -/
theorem wholeRecSize_leBytes (h : n ≤ recHdrSize + posixLogEntryMaxlen) :
    (leInt (leBytes sizeSize n) % 2 ^ 64).toNat = n := by
  have hmax : recHdrSize + posixLogEntryMaxlen = 8280 := rfl
  have hlt : 2 * n < 256 ^ sizeSize := by
    simp only [sizeSize]
    omega
  rw [leInt_leBytes hlt, Int.emod_eq_of_lt (by omega) (by omega), Int.toNat_natCast]

/-- A backward step from the end of a record returns the record and
stops at its start. -/
theorem prevRecord_logAt (hdr : LogHeader) (rs : List LogRecord) (i : Fin rs.length) :
    prevRecord (logAt hdr rs (i + 1))
      = (.ok ((rs.get i).entry, (rs.get i).data), logAt hdr rs i) := by
  obtain ⟨pre, post, hc, hlen⟩ := logBytes_split hdr rs i
  generalize hr : rs.get i = r at hc ⊢
  have hsz : r.body.length ≤ recHdrSize + posixLogEntryMaxlen := by
    rw [r.body_length]
    exact Nat.add_le_add_left r.size_le _
  have hend : boundary rs (i + 1) = boundary rs i + (r.body.length + sizeSize) := by
    rw [boundary_succ, hr, r.toBytes_eq, List.length_append, leBytes_length]
  have hc1 : logBytes hdr rs = (pre ++ r.body) ++ (leBytes sizeSize r.body.length ++ post) := by
    rw [hc, r.toBytes_eq, List.append_assoc, List.append_assoc]
  have hc2 : logBytes hdr rs = pre ++ (r.body ++ (leBytes sizeSize r.body.length ++ post)) := by
    rw [hc1, List.append_assoc]
  have hback : sizeSize ≤ (logAt hdr rs (i + 1)).offset := by
    simp only [logAt, hend]
    omega
  rw [prevRecord, FileM.bind_ok (lseek_cur_back_apply .eio hback)]
  have hoff : (logAt hdr rs (i + 1)).offset - sizeSize = (pre ++ r.body).length := by
    simp only [logAt, hend, List.length_append, hlen]
    omega
  rw [FileM.bind_ok (readBufEio_at (f := { logAt hdr rs (i + 1) with
    offset := (logAt hdr rs (i + 1)).offset - sizeSize }) hc1 hoff (leBytes_length _ _)
    (by decide))]
  simp only [wholeRecSize_leBytes hsz]
  rw [if_neg (by omega)]
  have hback2 : r.body.length + sizeSize ≤ (logAt hdr rs (i + 1)).offset - sizeSize + sizeSize := by
    simp only [logAt, hend]
    omega
  rw [FileM.bind_ok (lseek_cur_back_apply .eio hback2)]
  have hoff2 : (logAt hdr rs (i + 1)).offset - sizeSize + sizeSize
      - (r.body.length + sizeSize) = pre.length := by
    simp only [logAt, hend, hlen]
    omega
  rw [FileM.bind_ok (readBufEio_at (f := { logAt hdr rs (i + 1) with
    offset := (logAt hdr rs (i + 1)).offset - sizeSize + sizeSize
      - (r.body.length + sizeSize) }) hc2 hoff2 rfl
    (by rw [r.body_length]; simp [recHdrSize]))]
  rw [FileM.bind_ok (lseek_set_apply _ .eio _), FileM.pure_apply]
  have hentry : PosixLogEntry.ofBytes r.body = r.entry :=
    r.entry.ofBytes_toBytes_append r.data
  have hdata : r.body.drop recHdrSize = r.data := by
    rw [LogRecord.body, List.drop_left' r.entry.toBytes_length]
  rw [hentry, hdata, hoff2, hlen]
  rfl

/-! ## One turn of the scan loops -/

/-- `notFound` restores the read pointer it is given. -/
theorem notFound_apply (startPosition : Nat) (f : OpenFile) :
    notFound startPosition f = (.error .enoent, { f with offset := startPosition }) := by
  rw [notFound, FileM.bind_ok (lseek_set_apply startPosition .eio f), FileM.fail_apply]

/-- A forward turn that reads a record: stop in front of it, or go on. -/
theorem evlSeekFwdLoop_read (query : Option QueryEval) (start : Nat) {entry : PosixLogEntry}
    (h : evlRead (some posixLogEntryMaxlen) f = (.ok (entry, buf), f')) :
    evlSeekFwdLoop query start f
      = if queryMatches query entry buf then (.ok (), { f' with offset := f.offset })
        else evlSeekFwdLoop query start f' := by
  rw [evlSeekFwdLoop]
  split
  · simp_all
  · simp_all
  · rename_i entry' buf' f'' hread
    rw [h] at hread
    simp only [Prod.mk.injEq, Except.ok.injEq] at hread
    obtain ⟨⟨rfl, rfl⟩, rfl⟩ := hread
    rw [FileM.bind_ok (lseek_set_apply f.offset .eio f'), FileM.pure_apply]

variable {query : Option QueryEval}

theorem evlSeekFwdLoop_eof (h : evlRead (some posixLogEntryMaxlen) f = (.error .eagain, f')) :
    evlSeekFwdLoop query start f = (.error .enoent, { f' with offset := start }) := by
  rw [evlSeekFwdLoop]
  split
  · rename_i f'' hread
    rw [h] at hread
    simp only [Prod.mk.injEq, true_and] at hread
    rw [← hread, notFound_apply]
  · simp_all
  · simp_all

theorem evlSeekFwdLoop_error {e : Errno} (h : evlRead (some posixLogEntryMaxlen) f = (.error e, f'))
    (he : e ≠ .eagain) : evlSeekFwdLoop query start f = (.error .eio, f') := by
  rw [evlSeekFwdLoop]
  split
  · simp_all
  · simp_all
  · simp_all

/-- A backward turn that reads a record: stop on it, or go on. -/
theorem evlSeekBkwdLoop_step (query : Option QueryEval) (start : Nat) {entry : PosixLogEntry}
    (hf : recHdrSize < f.offset) (h : prevRecord f = (.ok (entry, buf), f')) :
    evlSeekBkwdLoop query start f
      = if queryMatches query entry buf then (.ok (), f')
        else evlSeekBkwdLoop query start f' := by
  rw [evlSeekBkwdLoop, if_pos hf]
  split
  · simp_all
  · rename_i entry' buf' f'' hprev
    rw [h] at hprev
    simp only [Prod.mk.injEq, Except.ok.injEq] at hprev
    obtain ⟨⟨rfl, rfl⟩, rfl⟩ := hprev
    rfl

theorem evlSeekBkwdLoop_first (hf : f.offset ≤ recHdrSize) :
    evlSeekBkwdLoop query start f = (.error .enoent, { f with offset := start }) := by
  rw [evlSeekBkwdLoop, if_neg (Nat.not_lt.mpr hf), notFound_apply]

theorem evlSeekBkwdLoop_error {e : Errno} (hf : recHdrSize < f.offset)
    (h : prevRecord f = (.error e, f')) : evlSeekBkwdLoop query start f = (.error e, f') := by
  rw [evlSeekBkwdLoop, if_pos hf]
  split
  · simp_all
  · simp_all

/-! ## The round trip -/

/-- The file header followed by one `_evlFdWrite` per record. -/
def writeLogFile : List LogRecord → Option (FileM Unit)
  | rs => do
    let writes ← rs.mapM fun r => evlFdWrite r.entry r.data
    some (writes.foldl (fun m w => do m; w) evlWriteLogHeader)

/-- Successive `_evlRead` calls, one per buffer. -/
def evlReadSeq : List (Option Nat) → FileM (List (PosixLogEntry × List UInt8))
  | [] => return []
  | buf :: bufs => do
    let r ← evlRead buf
    let rest ← evlReadSeq bufs
    return r :: rest

/-- `n` successive `_evlSeekBkwd` calls with a NULL query; the read
pointer after each. -/
def evlSeekBkwdSeq : Nat → FileM (List Nat)
  | 0 => return []
  | n + 1 => do
    evlSeekBkwd none
    let pos ← FileM.lseek 0 .SEEK_CUR .eio
    let rest ← evlSeekBkwdSeq n
    return pos :: rest

/-- `_evlFdWrite` of a record that fits writes the record's bytes. -/
theorem evlFdWrite_record (r : LogRecord) :
    evlFdWrite r.entry r.data = some (FileM.write r.toBytes) := by
  have htake : r.data.take r.entry.logSize.toNat = r.data := by
    rw [← r.size_eq, List.take_length]
  simp only [evlFdWrite, if_pos r.size_le, LogRecord.toBytes, htake]

theorem foldl_write_records (hdr : LogHeader) (m : FileM Unit) :
    ∀ (rs done : List LogRecord), m ⟨[], 0⟩ = (.ok (), logAt hdr done done.length) →
      (rs.map fun r => FileM.write r.toBytes).foldl (fun m w => do m; w) m ⟨[], 0⟩
        = (.ok (), logAt hdr (done ++ rs) (done ++ rs).length)
  | [], done, h => by simpa using h
  | r :: rs, done, h => by
    have hstep : (do m; FileM.write r.toBytes : FileM Unit) ⟨[], 0⟩
        = (.ok (), logAt hdr (done ++ [r]) (done ++ [r]).length) := by
      rw [FileM.bind_ok h, FileM.write]
      have hat : logAt hdr done done.length = ⟨logBytes hdr done, (logBytes hdr done).length⟩ := by
        rw [logAt, boundary_length hdr]
      rw [hat, OpenFile.write_at_end, logAt, boundary_length hdr]
      simp [logBytes]
    have ih := foldl_write_records hdr (do m; FileM.write r.toBytes) rs (done ++ [r]) hstep
    rw [List.map_cons, List.foldl_cons, ih, List.append_assoc, List.singleton_append]

/-- Writing a log leaves exactly the well-formed log of its records. -/
theorem writeLogFile_logAt (rs : List LogRecord) : ∃ w, writeLogFile rs = some w
      ∧ w ⟨[], 0⟩ = (.ok (), logAt freshLogHeader rs rs.length) := by
  refine ⟨(rs.map fun r => FileM.write r.toBytes).foldl (fun m w => do m; w)
    evlWriteLogHeader, ?_, ?_⟩
  · have hmap : rs.mapM (fun r => evlFdWrite r.entry r.data)
        = some (rs.map fun r => FileM.write r.toBytes) := by
      simp only [evlFdWrite_record]
      exact List.mapM_pure
    rw [writeLogFile, hmap]
    rfl
  · exact foldl_write_records freshLogHeader evlWriteLogHeader rs [] (by
      simp [evlWriteLogHeader, FileM.write, OpenFile.write, logAt, logBytes, boundary])

/-- Reads from boundary `i` on return the remaining records in order. -/
theorem evlReadSeq_logAt (hdr : LogHeader) (rs : List LogRecord) :
    ∀ (bufs : List (Option Nat)) (i : Nat), i + bufs.length = rs.length →
      evlReadSeq bufs (logAt hdr rs i)
        = (.ok (List.zipWith (fun r buf => (r.entry, delivered buf r.data)) (rs.drop i) bufs),
            logAt hdr rs rs.length)
  | [], i, h => by
    simp only [List.length_nil, Nat.add_zero] at h
    simp [evlReadSeq, h]
  | buf :: bufs, i, h => by
    simp only [List.length_cons] at h
    have hi : i < rs.length := by omega
    have hread := evlRead_logAt hdr rs buf ⟨i, hi⟩
    have ih := evlReadSeq_logAt hdr rs bufs (i + 1) (by omega)
    rw [evlReadSeq, FileM.bind_ok hread, FileM.bind_ok ih, FileM.pure_apply,
      List.drop_eq_getElem_cons hi, List.zipWith_cons_cons]
    rfl

/-- One backward seek with a NULL query, from any boundary but the first. -/
theorem evlSeekBkwd_none_logAt (hdr : LogHeader) (rs : List LogRecord) (i : Fin rs.length) :
    evlSeekBkwd none (logAt hdr rs (i + 1)) = (.ok (), logAt hdr rs i) := by
  rw [evlSeekBkwd, evlSeekBkwdLoop_step none _ (lt_offset_logAt_succ hdr rs i)
    (prevRecord_logAt hdr rs i)]
  rfl

/-- On the first record every backward seek ends with `ENOENT`. -/
theorem evlSeekBkwd_logAt_zero (hdr : LogHeader) (rs : List LogRecord) (query : Option QueryEval) :
    evlSeekBkwd query (logAt hdr rs 0) = (.error .enoent, logAt hdr rs 0) := by
  rw [evlSeekBkwd, evlSeekBkwdLoop_first (offset_logAt_zero_le hdr rs)]

/-- Backward seeks from boundary `n` visit the record starts below it. -/
theorem evlSeekBkwdSeq_logAt (hdr : LogHeader) (rs : List LogRecord) : ∀ n : Nat, n ≤ rs.length →
      evlSeekBkwdSeq n (logAt hdr rs n)
        = (.ok ((List.range n).map (boundary rs)).reverse, logAt hdr rs 0)
  | 0, _ => rfl
  | n + 1, h => by
    have hstep := evlSeekBkwd_none_logAt hdr rs ⟨n, h⟩
    have ih := evlSeekBkwdSeq_logAt hdr rs n (by omega)
    have htell : FileM.lseek 0 .SEEK_CUR .eio (logAt hdr rs n)
        = (.ok (boundary rs n), logAt hdr rs n) := by
      have := lseek_cur_apply 0 .eio (logAt hdr rs n)
      simpa [logAt] using this
    rw [evlSeekBkwdSeq, FileM.bind_ok hstep, FileM.bind_ok htell, FileM.bind_ok ih,
      FileM.pure_apply, List.range_succ, List.map_append, List.reverse_append]
    rfl

/-- Log-file round trip. The file written for any list of records,
each with the buffer it will be read into, reads back forward as the
listed headers and data (shortened only by the buffer) and then `EAGAIN`,
and backward as the record starts in reverse order and then `ENOENT`. -/
theorem logFile_roundTrip (rbs : List (LogRecord × Option Nat)) (lastBuf : Option Nat) :
    ∃ w file, writeLogFile (rbs.map Prod.fst) = some w
      ∧ w ⟨[], 0⟩ = (.ok (), file) ∧ file.offset = file.content.length
      ∧ (∃ atEnd,
          evlReadSeq (rbs.map Prod.snd) { file with offset := logHeaderSize }
            = (.ok (rbs.map fun rb => (rb.1.entry, delivered rb.2 rb.1.data)), atEnd)
          ∧ evlRead lastBuf atEnd = (.error .eagain, atEnd))
      ∧ (∀ rb ∈ rbs, ∀ n : Nat, posixLogEntryMaxlen ≤ n →
          delivered (some n) rb.1.data = rb.1.data)
      ∧ (∃ atFirst,
          evlSeekBkwdSeq rbs.length file
            = (.ok ((List.range rbs.length).map (boundary (rbs.map Prod.fst))).reverse, atFirst)
          ∧ evlSeekBkwd none atFirst = (.error .enoent, atFirst)) := by
  obtain ⟨w, hw, hrun⟩ := writeLogFile_logAt (rbs.map Prod.fst)
  refine ⟨w, _, hw, hrun, boundary_length _ _,
    ⟨logAt freshLogHeader (rbs.map Prod.fst) (rbs.map Prod.fst).length, ?_, ?_⟩, ?_,
    ⟨logAt freshLogHeader (rbs.map Prod.fst) 0, ?_, ?_⟩⟩
  · have hfirst : { logAt freshLogHeader (rbs.map Prod.fst) (rbs.map Prod.fst).length with
        offset := logHeaderSize } = logAt freshLogHeader (rbs.map Prod.fst) 0 := by
      simp only [logAt, boundary_zero]
    rw [hfirst, evlReadSeq_logAt freshLogHeader (rbs.map Prod.fst) (rbs.map Prod.snd) 0
      (by simp), List.drop_zero, List.zipWith_map, List.zipWith_self]
  · exact evlRead_logAt_end _ _ lastBuf
  · intro rb _ n hn
    have hsize := rb.1.size_eq
    have hle := rb.1.size_le
    exact delivered_of_le (by omega)
  · have := evlSeekBkwdSeq_logAt freshLogHeader (rbs.map Prod.fst) rbs.length (by simp)
    simpa using this
  · exact evlSeekBkwd_logAt_zero _ _ none

end Evlog.Posix
