/-
Evlog.Evlogmgr.CompactTheorems — what compaction leaves of a log.

The pass reads and writes one file, so what it reads could be what it
wrote. It is not: the hole it writes to never reaches the offset it reads
from, and behind the hole the file is the original. `walk` is therefore
the pass without its writes, over the original file: the records it meets,
with the decision about each, and why it stops. `slide` says what the
writes add up to: from the first deleted record on, the kept ones one
behind the other. `compactLoop_walk` is the refinement, that the real pass
reads what `walk` reads and leaves what `slide` says.

On a well-formed log the file ends as the kept records in their order
(`compactLog_wellFormed`). On a log with a corrupt record in the middle the
pass fails after it has moved what came before (`compact_atomic_iff`).
-/
import Mathlib.Data.List.TakeWhile
import Evlog.Evlogmgr.Compact

namespace Evlog.Evlogmgr

open Evlog.Lib Evlog.Posix

/-! ## Reading one record -/

variable {offset beginhole : Int}

theorem seekTo_of_nonneg (f : OpenFile) (h : 0 ≤ offset) :
    seekTo f offset = ⟨f.content, offset.toNat⟩ := by
  simp [seekTo, OpenFile.lseek, h]

theorem seekTo_read_rest (f : OpenFile) (h : 0 ≤ offset) (n : Nat) : ((seekTo f offset).read n).2
      = ⟨f.content, offset.toNat + ((seekTo f offset).read n).1.length⟩ := by
  rw [seekTo_of_nonneg f h, OpenFile.read]

/-- A record is read from the bytes at its offset and behind, so two files
that agree there give the same record. -/
theorem readRecord_congr {f g : OpenFile} (h0 : 0 ≤ offset)
    (h : f.content.drop offset.toNat = g.content.drop offset.toNat) (varbuf : List UInt8) :
    readRecord f offset varbuf = readRecord g offset varbuf := by
  have hhdr : ((seekTo f offset).read recHdrSize).1 = ((seekTo g offset).read recHdrSize).1 := by
    simp only [seekTo_of_nonneg _ h0, OpenFile.read, h]
  have hrest : ∀ count, (readCount ((seekTo f offset).read recHdrSize).2 count).1
        = (readCount ((seekTo g offset).read recHdrSize).2 count).1
      ∧ (readCount ((seekTo f offset).read recHdrSize).2 count).2.1
        = (readCount ((seekTo g offset).read recHdrSize).2 count).2.1 := by
    intro count
    simp only [readCount, seekTo_of_nonneg _ h0, OpenFile.read, ← List.drop_drop, h]
    split
    · exact ⟨rfl, rfl⟩
    · exact ⟨rfl, rfl⟩
  simp only [readRecord, hhdr, (hrest _).1, (hrest _).2]

/-- The record's bytes as `moveRecordUp` writes them. -/
def ReadRecord.bytes (r : ReadRecord) : List UInt8 :=
  r.rechdr ++ r.varbuf.take ((PosixLogEntry.ofBytes r.rechdr).logSize.toNat + sizeSize)

section Read

variable {f : OpenFile} {offset : Int} {varbuf : List UInt8} {r : ReadRecord}

theorem readRecord_inside (h0 : 0 ≤ offset) (h : readRecord f offset varbuf = .ok r) :
    offset + r.reclen.toInt ≤ f.content.length := by
  obtain ⟨hhdr, hlen, -, hdata⟩ := readRecord_spec h
  have hfits : offset + recHdrSize ≤ f.content.length := by
    rw [hhdr, seekTo_of_nonneg _ h0, OpenFile.read_length] at hlen
    simp only [recHdrSize] at hlen ⊢
    omega
  rcases hdata with ⟨-, hreclen, -⟩ | ⟨count, -, -, hreclen, bytes, rfl, hbytes, -⟩
  · simp only [recHdrSize] at hfits
    omega
  · rw [OpenFile.read_length, seekTo_read_rest f h0, ← hhdr, hlen] at hbytes
    simp only [recHdrSize] at hfits hreclen hbytes
    omega

/-- Unless its size is out of range, its bytes are the ones at its offset. -/
theorem readRecord_bytes (h0 : 0 ≤ offset) (h : readRecord f offset varbuf = .ok r)
    (hle : (PosixLogEntry.ofBytes r.rechdr).logSize.toNat ≤ posixLogEntryMaxlen) :
    r.bytes = (f.content.drop offset.toNat).take r.bytes.length
      ∧ (r.bytes.length : Int) = r.reclen.toInt
      ∧ r.bytes.length = recHdrSize + ((PosixLogEntry.ofBytes r.rechdr).logSize.toNat + sizeSize) := by
  obtain ⟨hhdr, hlen, -, hdata⟩ := readRecord_spec h
  have hcount : ((PosixLogEntry.ofBytes r.rechdr).logSize + UInt64.ofNat sizeSize).toNat
      = (PosixLogEntry.ofBytes r.rechdr).logSize.toNat + sizeSize := by
    simp only [posixLogEntryMaxlen] at hle
    simp [sizeSize]
    omega
  rcases hdata with ⟨hcorrupt, -⟩ | ⟨count, rfl, hcount', hreclen, bytes, hbytes, hblen, hvarbuf⟩
  · rw [hcorrupt] at hcount
    simp only [posixLogEntryMaxlen, sizeSize] at hle hcount
    simp at hcount
    omega
  · rw [hcount] at hreclen hblen hbytes
    have htake : r.varbuf.take ((PosixLogEntry.ofBytes r.rechdr).logSize.toNat + sizeSize)
        = bytes := by
      rw [hvarbuf, List.take_left' hblen]
    have hall : r.bytes.length
        = recHdrSize + ((PosixLogEntry.ofBytes r.rechdr).logSize.toNat + sizeSize) := by
      rw [ReadRecord.bytes, htake, List.length_append, hlen, hblen]
    refine ⟨?_, by rw [hall, hreclen]; push_cast; ring, hall⟩
    rw [seekTo_read_rest f h0, ← hhdr, hlen] at hbytes
    rw [seekTo_of_nonneg f h0] at hhdr
    rw [hall, ReadRecord.bytes, htake, List.take_add, hbytes, hhdr, List.drop_drop]
    rfl

/-- A header with the right magic, and as many bytes behind it as it asks
for, are read as a record. -/
theorem readRecord_of {rechdr bytes : List UInt8} (hlen : rechdr.length = recHdrSize)
    (hmagic : (PosixLogEntry.ofBytes rechdr).logMagic &&& 0xffff0000 = logrecMagicHiword)
    (hsize : (PosixLogEntry.ofBytes rechdr).logSize.toNat + sizeSize = bytes.length)
    (hle : (PosixLogEntry.ofBytes rechdr).logSize.toNat ≤ posixLogEntryMaxlen)
    (pre post varbuf : List UInt8) :
    ∃ reclen : Int32, readRecord ⟨pre ++ (rechdr ++ (bytes ++ post)), 0⟩ pre.length varbuf
        = .ok ⟨rechdr, bytes ++ varbuf.drop bytes.length, reclen⟩
      ∧ reclen.toInt = recHdrSize + bytes.length := by
  have hread₁ := OpenFile.read_at pre rechdr (bytes ++ post)
  have hread₂ := OpenFile.read_at (pre ++ rechdr) bytes post
  rw [hlen] at hread₁
  rw [List.append_assoc pre, List.length_append, hlen] at hread₂
  have hcount : ((PosixLogEntry.ofBytes rechdr).logSize + UInt64.ofNat sizeSize).toNat
      = bytes.length := by
    rw [← hsize]
    simp only [posixLogEntryMaxlen] at hle
    simp [sizeSize]
    omega
  have hsmall : bytes.length ≤ 8196 := by
    simp only [posixLogEntryMaxlen, sizeSize] at hle hsize
    omega
  have hret : UInt64.ofNat bytes.length
      = (PosixLogEntry.ofBytes rechdr).logSize + UInt64.ofNat sizeSize := by
    rw [← hcount, UInt64.ofNat_toNat]
  have hreclen : (getRecLen (PosixLogEntry.ofBytes rechdr)).toInt = recHdrSize + bytes.length := by
    have hadd : ((PosixLogEntry.ofBytes rechdr).logSize
        + UInt64.ofNat (recHdrSize + sizeSize)).toNat = recHdrSize + bytes.length := by
      rw [← hsize]
      simp only [posixLogEntryMaxlen] at hle
      simp [sizeSize, recHdrSize]
      omega
    rw [getRecLen, if_pos hmagic, toInt_narrow, hadd]
    · push_cast
      rfl
    · rw [hadd, recHdrSize]
      omega
  have hne : getRecLen (PosixLogEntry.ofBytes rechdr) ≠ -1 := by
    intro h
    rw [h, show (-1 : Int32).toInt = -1 by decide] at hreclen
    omega
  rw [← hcount] at hread₂
  refine ⟨getRecLen (PosixLogEntry.ofBytes rechdr), ?_, hreclen⟩
  simp only [readRecord, seekTo_of_nonneg _ (Int.natCast_nonneg pre.length), Int.toNat_natCast,
    hread₁, hlen, hne, readCount, hread₂, ne_eq, not_true_eq_false, if_false]
  rw [if_neg (show ¬ 2 ^ 63 ≤ ((PosixLogEntry.ofBytes rechdr).logSize
    + UInt64.ofNat sizeSize).toNat by rw [hcount]; omega)]
  simp only [hret, not_true_eq_false, if_false]
  rw [if_neg (by simp only [posixLogEntryMaxlen, sizeSize]; omega)]

end Read

/-! ## Moving one record -/

theorem moveRecordUp_eq_none_iff (f : OpenFile) (h0 : 0 ≤ beginhole) (rechdr varbuf : List UInt8) :
    moveRecordUp f beginhole rechdr (some varbuf) = none
      ↔ posixLogEntryMaxlen < (PosixLogEntry.ofBytes rechdr).logSize.toNat := by
  simp only [moveRecordUp, OpenFile.lseek]
  split
  · simp [*]
  · simp [*]

theorem moveRecordUp_size {f : OpenFile} (h0 : 0 ≤ beginhole) {rechdr varbuf : List UInt8}
    {x : OpenFile × Int × List (List UInt8)}
    (h : moveRecordUp f beginhole rechdr (some varbuf) = some x) :
    (PosixLogEntry.ofBytes rechdr).logSize.toNat ≤ posixLogEntryMaxlen := by
  have hne : moveRecordUp f beginhole rechdr (some varbuf) ≠ none := by simp [h]
  rw [ne_eq, moveRecordUp_eq_none_iff f h0] at hne
  omega

variable {base : List UInt8}

/-- A move extends the moved part of the file by the record. -/
theorem moveRecordUp_overlay {moved : List UInt8} {start offset : Nat} {r : ReadRecord}
    (hle : (PosixLogEntry.ofBytes r.rechdr).logSize.toNat ≤ posixLogEntryMaxlen)
    (hhdr : r.rechdr.length ≤ r.bytes.length)
    (hfits : start + moved.length + r.bytes.length ≤ base.length) (hlen : r.bytes.length
      = recHdrSize + ((PosixLogEntry.ofBytes r.rechdr).logSize.toNat + sizeSize)) :
    moveRecordUp ⟨overlay base start moved, offset⟩ (start + moved.length) r.rechdr (some r.varbuf)
      = some (OpenFile.mk (overlay base start (moved ++ r.bytes)) (start + (moved ++ r.bytes).length),
          ((start + (moved ++ r.bytes).length : Nat) : Int),
          [overlay base start (moved ++ r.rechdr), overlay base start (moved ++ r.bytes)]) := by
  have hseek : OpenFile.lseek ⟨overlay base start moved, offset⟩
        ((start : Int) + moved.length) .SEEK_SET
      = some (OpenFile.mk (overlay base start moved) (start + moved.length)) :=
    OpenFile.lseek_set ⟨overlay base start moved, offset⟩ (start + moved.length)
  have hw₁ : OpenFile.write ⟨overlay base start moved, start + moved.length⟩ r.rechdr = _ :=
    write_overlay (by omega) r.rechdr
  have hw₂ : OpenFile.write ⟨overlay base start (moved ++ r.rechdr),
        start + (moved ++ r.rechdr).length⟩
      (r.varbuf.take ((PosixLogEntry.ofBytes r.rechdr).logSize.toNat + sizeSize)) = _ :=
    write_overlay (by rw [List.length_append]; omega) _
  rw [List.append_assoc, ← ReadRecord.bytes] at hw₂
  simp only [moveRecordUp, if_neg (not_lt.2 hle), hseek, hw₁, hw₂]
  simp only [Option.some.injEq, Prod.mk.injEq, true_and, and_true, List.length_append, hlen]
  push_cast
  ring

/-! ## The pass without its writes -/

/-- The records the pass meets in the original file, each with the decision
to delete it, and why the walk ends before the end of the file. `hole`
says that a record was deleted before: from then on a record that is kept
has to be moved, and one of a size out of range can not be. -/
def walk (query : QueryEval) (logmgmtMsg base : List UInt8) (offset bytesToProcess : Int)
    (varbuf : List UInt8) (hole : Bool) : List (ReadRecord × Bool) × Option CompactEnd :=
  if 0 < bytesToProcess then
    match _h : readRecord ⟨base, 0⟩ offset varbuf with
    | .error e => ([], some e)
    | .ok r =>
      let del := doesRecMatchForDel query logmgmtMsg r.rechdr r.varbuf
      if del = false ∧ hole = true
          ∧ posixLogEntryMaxlen < (PosixLogEntry.ofBytes r.rechdr).logSize.toNat then
        ([], some .eio)
      else
        let w := walk query logmgmtMsg base (offset + r.reclen.toInt)
          (bytesToProcess - r.reclen.toInt) r.varbuf (hole || del)
        ((r, del) :: w.1, w.2)
  else ([], none)
termination_by bytesToProcess.toNat
decreasing_by
  have := readRecord_reclen _h
  omega

section Walk

variable {query : QueryEval} {logmgmtMsg base varbuf : List UInt8} {offset bytesToProcess : Int}
  {hole : Bool} {r : ReadRecord}

theorem walk_of_ok (hpos : 0 < bytesToProcess) (hread : readRecord ⟨base, 0⟩ offset varbuf = .ok r)
    (hrange : ¬ (doesRecMatchForDel query logmgmtMsg r.rechdr r.varbuf = false ∧ hole = true
      ∧ posixLogEntryMaxlen < (PosixLogEntry.ofBytes r.rechdr).logSize.toNat)) :
    walk query logmgmtMsg base offset bytesToProcess varbuf hole
      = ((r, doesRecMatchForDel query logmgmtMsg r.rechdr r.varbuf)
          :: (walk query logmgmtMsg base (offset + r.reclen.toInt)
            (bytesToProcess - r.reclen.toInt) r.varbuf
            (hole || doesRecMatchForDel query logmgmtMsg r.rechdr r.varbuf)).1,
        (walk query logmgmtMsg base (offset + r.reclen.toInt) (bytesToProcess - r.reclen.toInt)
          r.varbuf (hole || doesRecMatchForDel query logmgmtMsg r.rechdr r.varbuf)).2) := by
  rw [walk, if_pos hpos]
  split
  · simp_all
  · rename_i r' hr
    rw [hread] at hr
    obtain rfl := Except.ok.inj hr
    simp only [hrange, if_false]

theorem walk_of_stuck (hpos : 0 < bytesToProcess)
    (hread : readRecord ⟨base, 0⟩ offset varbuf = .ok r)
    (hrange : doesRecMatchForDel query logmgmtMsg r.rechdr r.varbuf = false ∧ hole = true
      ∧ posixLogEntryMaxlen < (PosixLogEntry.ofBytes r.rechdr).logSize.toNat) :
    walk query logmgmtMsg base offset bytesToProcess varbuf hole = ([], some .eio) := by
  rw [walk, if_pos hpos]
  split
  · simp_all
  · rename_i r' hr
    rw [hread] at hr
    obtain rfl := Except.ok.inj hr
    rw [if_pos hrange]

theorem walk_of_error {e : CompactEnd} (hpos : 0 < bytesToProcess)
    (hread : readRecord ⟨base, 0⟩ offset varbuf = .error e) :
    walk query logmgmtMsg base offset bytesToProcess varbuf hole = ([], some e) := by
  rw [walk, if_pos hpos]
  split
  · simp_all
  · simp_all

theorem walk_of_stop (hpos : ¬ 0 < bytesToProcess) :
    walk query logmgmtMsg base offset bytesToProcess varbuf hole = ([], none) := by
  rw [walk, if_neg hpos]

end Walk

/-- The hole of a pass: where it began, and what has been moved into it. -/
abbrev Hole := Option (Nat × List UInt8)

def slideStep (offset : Int) (hole : Hole) (p : ReadRecord × Bool) : Hole :=
  match hole, p.2 with
  | none, true => some (offset.toNat, [])
  | none, false => none
  | some (start, moved), true => some (start, moved)
  | some (start, moved), false => some (start, moved ++ p.1.bytes)

/-- The hole behind a list of records that starts at `offset`. -/
def slide : Int → Hole → List (ReadRecord × Bool) → Hole
  | _, hole, [] => hole
  | offset, hole, p :: ps => slide (offset + p.1.reclen.toInt) (slideStep offset hole p) ps

def fileWith (base : List UInt8) : Hole → List UInt8
  | none => base
  | some (start, moved) => overlay base start moved

/-- The state of a pass over `base` whose hole is `hole`. -/
structure Sliding (base : List UInt8) (hole : Hole) (c : CompactState) : Prop where
  offset_ge : (logHeaderSize : Int) ≤ c.fi.offset
  offset_le : c.fi.offset ≤ base.length
  content : c.file.content = fileWith base hole
  beginhole : c.fi.beginhole = hole.elim 0 fun p => (p.1 + p.2.length : Int)
  behind : ∀ p ∈ hole, logHeaderSize ≤ p.1 ∧ (p.1 + p.2.length : Int) ≤ c.fi.offset
  trail : ∀ t ∈ c.trail, t.take logHeaderSize = base.take logHeaderSize

section Pass

variable {query : QueryEval} {logmgmtMsg base : List UInt8} {hole : Hole} {c c' : CompactState}

theorem Sliding.offset_nonneg (h : Sliding base hole c) : 0 ≤ c.fi.offset := by
  have := h.offset_ge
  omega

/-- The pass reads what the walk over the original file reads. -/
theorem Sliding.read (h : Sliding base hole c) :
    readRecord c.file c.fi.offset c.varbuf = readRecord ⟨base, 0⟩ c.fi.offset c.varbuf := by
  refine readRecord_congr h.offset_nonneg ?_ c.varbuf
  rw [h.content]
  cases hole with
  | none => rfl
  | some p =>
    obtain ⟨-, hbehind⟩ := h.behind p rfl
    have hle := h.offset_le
    exact drop_overlay (by omega) (by omega)

/-- Whether a hole is open is what `beginhole` says. -/
theorem Sliding.beginhole_eq_zero (h : Sliding base hole c) :
    c.fi.beginhole = 0 ↔ hole.isSome = false := by
  rw [h.beginhole]
  cases hole with
  | none => simp
  | some p =>
    have := (h.behind p rfl).1
    simp only [logHeaderSize] at this
    simp only [Option.elim_some, Option.isSome_some, Bool.true_eq_false, iff_false]
    omega

theorem Sliding.beginhole_nonneg (h : Sliding base hole c) : 0 ≤ c.fi.beginhole := by
  rw [h.beginhole]
  cases hole with
  | none => simp
  | some p =>
    simp only [Option.elim_some]
    omega

theorem take_fileWith (h : Sliding base hole c) :
    (fileWith base hole).take logHeaderSize = base.take logHeaderSize := by
  cases hole with
  | none => rfl
  | some p =>
    obtain ⟨hge, hbehind⟩ := h.behind p rfl
    have hle := h.offset_le
    exact take_overlay (by omega) hge

theorem slideStep_isSome (offset : Int) (hole : Hole) (p : ReadRecord × Bool) :
    (slideStep offset hole p).isSome = (hole.isSome || p.2) := by
  obtain ⟨r, del⟩ := p
  cases hole <;> cases del <;> rfl

/-- One turn that goes on: the record was in range where it had to be
moved, and the hole is the next one. -/
theorem Sliding.step (h : Sliding base hole c) (hstep : compactStep query logmgmtMsg c = .ok c') :
    ∃ r, readRecord ⟨base, 0⟩ c.fi.offset c.varbuf = .ok r
      ∧ ¬ (doesRecMatchForDel query logmgmtMsg r.rechdr r.varbuf = false ∧ hole.isSome = true
          ∧ posixLogEntryMaxlen < (PosixLogEntry.ofBytes r.rechdr).logSize.toNat)
      ∧ c'.fi.offset = c.fi.offset + r.reclen.toInt
      ∧ c'.fi.bytesToProcess = c.fi.bytesToProcess - r.reclen.toInt
      ∧ c'.varbuf = r.varbuf
      ∧ c'.numDelrec = c.numDelrec
          + (if doesRecMatchForDel query logmgmtMsg r.rechdr r.varbuf then 1 else 0)
      ∧ Sliding base (slideStep c.fi.offset hole
          (r, doesRecMatchForDel query logmgmtMsg r.rechdr r.varbuf)) c' := by
  obtain ⟨r, hr, hoff, hbytes, hvarbuf, hcases⟩ := compactStep_cases hstep
  rw [h.read] at hr
  have h0 := h.offset_nonneg
  have hge := h.offset_ge
  have hpos := readRecord_reclen hr
  have hin : c.fi.offset + r.reclen.toInt ≤ base.length := readRecord_inside h0 hr
  refine ⟨r, hr, ?_, hoff, hbytes, hvarbuf, ?_⟩
  · rintro ⟨hkeep, hopen, hsize⟩
    rcases hcases with ⟨hdel, -⟩ | ⟨-, -, -, trail, hmove, -⟩ | ⟨-, hzero, -⟩
    · rw [hdel] at hkeep
      exact Bool.noConfusion hkeep
    · have := moveRecordUp_size h.beginhole_nonneg hmove
      omega
    · rw [h.beginhole_eq_zero.1 hzero] at hopen
      exact Bool.noConfusion hopen
  · rcases hcases with ⟨hdel, hhole, hfile, hnum, htrail⟩
      | ⟨hkeep, hopen, hnum, trail, hmove, htrail⟩ | ⟨hkeep, hzero, hzero', hfile, hnum, htrail⟩
    · -- deleted: the hole opens here, or is the old one
      refine ⟨by simp [hnum, hdel], ?_⟩
      rw [hdel]
      cases hole with
      | none =>
        have hbegin : c'.fi.beginhole = c.fi.offset := by
          rw [hhole, if_pos (h.beginhole_eq_zero.2 rfl)]
        refine ⟨by omega, by omega, ?_, ?_, ?_, by rw [htrail]; exact h.trail⟩
        · rw [hfile, h.content]
          simp [slideStep, fileWith]
        · simp only [slideStep, Option.elim_some, List.length_nil]
          omega
        · rintro p ⟨⟩
          simp only [List.length_nil]
          omega
      | some p =>
        have hbegin : c'.fi.beginhole = c.fi.beginhole := by
          rw [hhole, if_neg (by rw [h.beginhole_eq_zero]; simp)]
        refine ⟨by omega, by omega, by rw [hfile, h.content]; rfl,
          by rw [hbegin, h.beginhole]; rfl, ?_, by rw [htrail]; exact h.trail⟩
        rintro q ⟨⟩
        have hbehind := h.behind p rfl
        exact ⟨hbehind.1, by rw [hoff]; exact le_trans hbehind.2 (by omega)⟩
    · -- moved up behind what was moved before
      refine ⟨by simp [hnum, hkeep], ?_⟩
      rw [hkeep]
      cases hole with
      | none => exact absurd (h.beginhole_eq_zero.2 rfl) hopen
      | some p =>
        obtain ⟨start, moved⟩ := p
        obtain ⟨hstart, hbehind⟩ := h.behind (start, moved) rfl
        simp only at hstart hbehind
        have hsize := moveRecordUp_size h.beginhole_nonneg hmove
        obtain ⟨-, hreclen, hlen⟩ := readRecord_bytes h0 hr hsize
        have hrec := readRecord_spec hr
        have hfile : c.file = ⟨overlay base start moved, c.file.offset⟩ := by
          rw [← show c.file.content = overlay base start moved from h.content]
        have hbegin : c.fi.beginhole = start + moved.length := h.beginhole
        rw [hfile, hbegin, moveRecordUp_overlay hsize
          (by rw [ReadRecord.bytes, List.length_append]; omega) (by omega) hlen] at hmove
        simp only [Option.some.injEq, Prod.mk.injEq] at hmove
        obtain ⟨hfile', hbegin', rfl⟩ := hmove
        have hover : ∀ bytes, (overlay base start bytes).take logHeaderSize
            = base.take logHeaderSize := fun bytes => take_overlay (by omega) hstart
        refine ⟨by omega, by omega, by rw [← hfile']; rfl, ?_, ?_, ?_⟩
        · rw [← hbegin']
          simp [slideStep]
        · rintro q ⟨⟩
          simp only [List.length_append]
          push_cast
          omega
        · rw [htrail]
          intro t ht
          rcases List.mem_append.1 ht with ht | ht
          · exact h.trail t ht
          · simp only [List.mem_cons, List.not_mem_nil, or_false] at ht
            rcases ht with rfl | rfl
            · exact hover _
            · exact hover _
    · -- kept in its place, before any hole
      refine ⟨by simp [hnum, hkeep], ?_⟩
      rw [hkeep]
      have hnone := h.beginhole_eq_zero.1 hzero
      cases hole with
      | none =>
        refine ⟨by omega, by omega, by rw [hfile, h.content]; rfl, by rw [hzero']; rfl, ?_,
          by rw [htrail]; exact h.trail⟩
        rintro p ⟨⟩
      | some p => exact absurd hnone (by simp)

/-- A turn that ends the pass: the record can not be read, or it would
have to be moved and its size is out of range. -/
theorem Sliding.step_error {e : CompactEnd} (h : Sliding base hole c)
    (hstep : compactStep query logmgmtMsg c = .error e) :
    readRecord ⟨base, 0⟩ c.fi.offset c.varbuf = .error e
      ∨ e = .eio ∧ ∃ r, readRecord ⟨base, 0⟩ c.fi.offset c.varbuf = .ok r
          ∧ doesRecMatchForDel query logmgmtMsg r.rechdr r.varbuf = false ∧ hole.isSome = true
          ∧ posixLogEntryMaxlen < (PosixLogEntry.ofBytes r.rechdr).logSize.toNat := by
  rw [← h.read]
  simp only [compactStep] at hstep
  split at hstep
  · rename_i e' hread
    obtain rfl := Except.error.inj hstep
    exact Or.inl hread
  · rename_i r hread
    by_cases hdel : doesRecMatchForDel query logmgmtMsg r.rechdr r.varbuf = true
    · rw [if_pos hdel] at hstep
      exact absurd hstep (by simp)
    · rw [if_neg hdel] at hstep
      split at hstep
      · rename_i hhole
        split at hstep
        · rename_i hmove
          obtain rfl := Except.error.inj hstep
          refine Or.inr ⟨rfl, r, hread, by simpa using hdel, ?_,
            (moveRecordUp_eq_none_iff _ h.beginhole_nonneg _ _).1 hmove⟩
          rwa [ne_eq, h.beginhole_eq_zero, Bool.not_eq_false] at hhole
        · exact absurd hstep (by simp)
      · exact absurd hstep (by simp)

variable (query logmgmtMsg) in
/-- The pass ends where the walk over the original file ends, and leaves
the hole that the walked records slide into. -/
theorem compactLoop_walk (h : Sliding base hole c) : (compactLoop query logmgmtMsg c).2
        = (walk query logmgmtMsg base c.fi.offset c.fi.bytesToProcess c.varbuf hole.isSome).2
      ∧ Sliding base (slide c.fi.offset hole
          (walk query logmgmtMsg base c.fi.offset c.fi.bytesToProcess c.varbuf hole.isSome).1)
          (compactLoop query logmgmtMsg c).1
      ∧ (compactLoop query logmgmtMsg c).1.numDelrec = c.numDelrec
          + (walk query logmgmtMsg base c.fi.offset c.fi.bytesToProcess c.varbuf
              hole.isSome).1.countP (·.2) := by
  -- induction on the turns of the loop; the hole changes from turn to turn
  induction c using compactLoop.induct query logmgmtMsg generalizing hole with
  | case1 c hpos e hstep =>
    have hwalk : walk query logmgmtMsg base c.fi.offset c.fi.bytesToProcess c.varbuf hole.isSome
        = ([], some e) := by
      rcases h.step_error hstep with hread | ⟨rfl, r, hread, hcond⟩
      · exact walk_of_error hpos hread
      · exact walk_of_stuck hpos hread hcond
    rw [compactLoop_of_error hpos hstep, hwalk]
    exact ⟨rfl, h, rfl⟩
  | case2 c hpos c' hstep ih =>
    obtain ⟨r, hread, hrange, hoff, hbytes, hvarbuf, hnum, hnext⟩ := h.step hstep
    obtain ⟨hend, hslide, hcount⟩ := ih hnext
    rw [slideStep_isSome, hoff, hbytes, hvarbuf] at hend hslide hcount
    rw [compactLoop_of_ok hpos hstep, walk_of_ok hpos hread hrange]
    refine ⟨hend, ?_, ?_⟩
    · rw [slide]
      exact hslide
    · rw [hcount, hnum, List.countP_cons]
      simp only
      omega
  | case3 c hpos =>
    rw [compactLoop_of_stop hpos, walk_of_stop hpos]
    exact ⟨rfl, h, rfl⟩

end Pass

/-- The first state of a pass over a file with a whole header. -/
theorem sliding_start (varbuf : List UInt8) (h : logHeaderSize ≤ base.length) :
    Sliding base none (compactStart base varbuf) :=
  ⟨le_refl _, Int.ofNat_le.2 h, rfl, rfl, by rintro p ⟨⟩, by simp [compactStart]⟩

def cutFile (base : List UInt8) : Hole → List UInt8
  | none => base
  | some (start, moved) => base.take start ++ moved

def walkLog (query : QueryEval) (logmgmtMsg varbuf base : List UInt8) :
    List (ReadRecord × Bool) × Option CompactEnd :=
  walk query logmgmtMsg base logHeaderSize ((base.length : Int) - logHeaderSize) varbuf false

def slideLog (ws : List (ReadRecord × Bool)) : Hole := slide logHeaderSize none ws

/-- `compactLog` in terms of the walk over the original file. -/
theorem compactLog_spec (query : QueryEval) (logmgmtMsg varbuf : List UInt8)
    (h : logHeaderSize ≤ base.length) :
    (compactLog query logmgmtMsg varbuf base).ret
        = (match (walkLog query logmgmtMsg varbuf base).2 with
          | none => some (.ok ())
          | some .eio => some (.error .eio)
          | some .overrun => none)
      ∧ (compactLog query logmgmtMsg varbuf base).content
        = (if (walkLog query logmgmtMsg varbuf base).2 = none
          then cutFile base (slideLog (walkLog query logmgmtMsg varbuf base).1)
          else fileWith base (slideLog (walkLog query logmgmtMsg varbuf base).1))
      ∧ (compactLog query logmgmtMsg varbuf base).numDelrec
        = (walkLog query logmgmtMsg varbuf base).1.countP (·.2)
      ∧ (∀ t ∈ (compactLog query logmgmtMsg varbuf base).trail,
          t.take logHeaderSize = base.take logHeaderSize)
      ∧ (compactLog query logmgmtMsg varbuf base).content.take logHeaderSize
        = base.take logHeaderSize := by
  have hne : base.length ≠ 0 := by
    simp only [logHeaderSize] at h
    omega
  obtain ⟨hend, hslide, hcount⟩ := compactLoop_walk query logmgmtMsg (sliding_start varbuf h)
  change _ = (walkLog query logmgmtMsg varbuf base).2 at hend
  change Sliding base (slideLog (walkLog query logmgmtMsg varbuf base).1) _ at hslide
  change _ = 0 + (walkLog query logmgmtMsg varbuf base).1.countP (·.2) at hcount
  rw [Nat.zero_add] at hcount
  generalize walkLog query logmgmtMsg varbuf base = w at *
  generalize slideLog w.1 = hole at *
  generalize hloop : compactLoop query logmgmtMsg (compactStart base varbuf) = res at *
  obtain ⟨c, e⟩ := res
  simp only at hend hslide hcount
  subst hend
  have hhead := take_fileWith hslide
  rw [← hslide.content] at hhead
  rw [compactLog, if_neg hne, hloop]
  cases hw : w.2 with
  | some e =>
    cases e with
    | eio => exact ⟨rfl, hslide.content, hcount, hslide.trail, hhead⟩
    | overrun => exact ⟨rfl, hslide.content, hcount, hslide.trail, hhead⟩
  | none =>
    have hbegin := hslide.beginhole
    cases hole with
    | none =>
      simp only [Option.elim_none] at hbegin
      simp only [hbegin, lt_irrefl, if_false, if_true]
      exact ⟨trivial, hslide.content, hcount, hslide.trail, hhead⟩
    | some p =>
      obtain ⟨hge, hbehind⟩ := hslide.behind p rfl
      have hle := hslide.offset_le
      simp only [Option.elim_some] at hbegin
      have hcut : c.file.content.take c.fi.beginhole.toNat = base.take p.1 ++ p.2 := by
        rw [hslide.content, hbegin, show ((p.1 : Int) + p.2.length).toNat = p.1 + p.2.length by
          omega]
        exact take_overlay_end (by omega)
      have hcuthead : (base.take p.1 ++ p.2).take logHeaderSize = base.take logHeaderSize := by
        rw [List.take_append_of_le_length (by simp; omega), List.take_take, Nat.min_eq_left hge]
      have hpos : 0 < c.fi.beginhole := by
        simp only [logHeaderSize] at hge
        omega
      simp only [hpos, if_true, hcut]
      refine ⟨trivial, rfl, hcount, ?_, hcuthead⟩
      intro t ht
      rcases List.mem_append.1 ht with ht | ht
      · exact hslide.trail t ht
      · rw [List.mem_singleton.1 ht, hcuthead]

theorem slideLog_inside (query : QueryEval) (logmgmtMsg varbuf : List UInt8)
    (h : logHeaderSize ≤ base.length) :
    ∀ p ∈ slideLog (walkLog query logmgmtMsg varbuf base).1,
      logHeaderSize ≤ p.1 ∧ p.1 + p.2.length ≤ base.length := by
  intro p hp
  have hslide := (compactLoop_walk query logmgmtMsg (sliding_start varbuf h)).2.1
  obtain ⟨hge, hbehind⟩ := hslide.behind p hp
  have hle := hslide.offset_le
  exact ⟨hge, by omega⟩

/-! ## Well-formed logs -/

/-- A record as it lies in a well-formed log: the header's bytes, padding
and all, and data of the size it announces. -/
structure FileRecord where
  rechdr : List UInt8
  data : List UInt8
  rechdr_length : rechdr.length = recHdrSize
  magic : (PosixLogEntry.ofBytes rechdr).logMagic &&& 0xffff0000 = logrecMagicHiword
  size_eq : data.length = (PosixLogEntry.ofBytes rechdr).logSize.toNat
  size_le : (PosixLogEntry.ofBytes rechdr).logSize.toNat ≤ posixLogEntryMaxlen

namespace FileRecord

variable (r : FileRecord)

def entry : PosixLogEntry := PosixLogEntry.ofBytes r.rechdr

def sizeBytes : List UInt8 := leBytes sizeSize (recHdrSize + r.data.length)

def toBytes : List UInt8 := r.rechdr ++ (r.data ++ r.sizeBytes)

theorem toBytes_length : r.toBytes.length = recHdrSize + (r.entry.logSize.toNat + sizeSize) := by
  simp [toBytes, sizeBytes, r.rechdr_length, r.size_eq, entry]

/-- The C string at the record's data. The size behind the data ends it at
the latest. -/
def dataString : List UInt8 := cBytesAt (r.data ++ r.sizeBytes)

def removed (query : QueryEval) (logmgmtMsg : List UInt8) : Bool :=
  query r.entry r.data && r.dataString != logmgmtMsg

theorem zero_mem_sizeBytes : (0 : UInt8) ∈ r.sizeBytes := by
  have hlen : recHdrSize + r.data.length < 256 * 256 * 256 := by
    have := r.size_eq
    have := r.size_le
    simp only [posixLogEntryMaxlen, recHdrSize] at *
    omega
  have hbyte : (recHdrSize + r.data.length) / 256 / 256 / 256 = 0 := by omega
  simp [sizeBytes, sizeSize, leBytes, hbyte]

theorem cBytesAt_append (rest : List UInt8) :
    cBytesAt (r.data ++ r.sizeBytes ++ rest) = r.dataString := by
  rw [cBytesAt, List.takeWhile_append, if_neg, dataString, cBytesAt]
  intro hall
  have hwhile : ∀ b ∈ r.data ++ r.sizeBytes, decide (b ≠ 0) = true := by
    rw [← List.takeWhile_eq_self_iff]
    exact (List.takeWhile_prefix _).eq_of_length hall
  simpa using hwhile 0 (List.mem_append_right _ r.zero_mem_sizeBytes)

/-- The pass reads a well-formed record as it lies there. -/
theorem readRecord_at (pre post varbuf : List UInt8) :
    ∃ w, readRecord ⟨pre ++ (r.toBytes ++ post), 0⟩ pre.length varbuf = .ok w
      ∧ w.rechdr = r.rechdr
      ∧ w.varbuf = r.data ++ r.sizeBytes ++ varbuf.drop (r.data ++ r.sizeBytes).length
      ∧ w.reclen.toInt = r.toBytes.length := by
  have hbytes : (PosixLogEntry.ofBytes r.rechdr).logSize.toNat + sizeSize
      = (r.data ++ r.sizeBytes).length := by
    rw [List.length_append, r.size_eq, sizeBytes, leBytes_length]
  obtain ⟨reclen, hread, hreclen⟩ := readRecord_of r.rechdr_length r.magic hbytes r.size_le
    pre post varbuf
  refine ⟨⟨r.rechdr, _, reclen⟩, ?_, rfl, rfl, ?_⟩
  · rw [toBytes, List.append_assoc]
    exact hread
  · show reclen.toInt = ((r.rechdr ++ (r.data ++ r.sizeBytes)).length : Int)
    rw [hreclen]
    simp [r.rechdr_length]

/-- The pass reads the record, and takes the decision the record's own
header and data ask for. -/
theorem decided_at (query : QueryEval) (logmgmtMsg pre post varbuf : List UInt8) :
    ∃ w, readRecord ⟨pre ++ (r.toBytes ++ post), 0⟩ pre.length varbuf = .ok w
      ∧ w.bytes = r.toBytes ∧ w.reclen.toInt = r.toBytes.length
      ∧ (PosixLogEntry.ofBytes w.rechdr).logSize.toNat ≤ posixLogEntryMaxlen
      ∧ doesRecMatchForDel query logmgmtMsg w.rechdr w.varbuf = r.removed query logmgmtMsg := by
  obtain ⟨w, hread, hhdr, hvarbuf, hreclen⟩ := r.readRecord_at pre post varbuf
  have hdata : w.varbuf.take (PosixLogEntry.ofBytes r.rechdr).logSize.toNat = r.data := by
    rw [hvarbuf, List.append_assoc, List.take_left' r.size_eq]
  refine ⟨w, hread, ?_, hreclen, by rw [hhdr]; exact r.size_le, ?_⟩
  · have hlen : (r.data ++ r.sizeBytes).length
        = (PosixLogEntry.ofBytes r.rechdr).logSize.toNat + sizeSize := by
      rw [List.length_append, r.size_eq, sizeBytes, leBytes_length]
    rw [ReadRecord.bytes, hhdr, hvarbuf, List.take_left' hlen, toBytes]
  · simp only [doesRecMatchForDel, hhdr, hdata]
    rw [hvarbuf, r.cBytesAt_append]
    rfl

/-- A record a writer may log, with the magic evlogd gives it, lies in the
file as a well-formed one. -/
def ofLogRecord (r : LogRecord) (hmagic : r.entry.logMagic &&& 0xffff0000 = logrecMagicHiword) :
    FileRecord where
  rechdr := r.entry.toBytes
  data := r.data
  rechdr_length := r.entry.toBytes_length
  magic := by rw [PosixLogEntry.ofBytes_toBytes]; exact hmagic
  size_eq := by rw [PosixLogEntry.ofBytes_toBytes]; exact r.size_eq
  size_le := by rw [PosixLogEntry.ofBytes_toBytes]; exact r.size_le

end FileRecord

def recordBytes (rs : List FileRecord) : List UInt8 := rs.flatMap FileRecord.toBytes

@[simp] theorem recordBytes_nil : recordBytes [] = [] := rfl

@[simp] theorem recordBytes_cons (r : FileRecord) (rs : List FileRecord) :
    recordBytes (r :: rs) = r.toBytes ++ recordBytes rs := rfl

section WellFormed

variable (query : QueryEval) (logmgmtMsg : List UInt8)

def keptRecords (rs : List FileRecord) : List FileRecord :=
  rs.filter fun r => !r.removed query logmgmtMsg

def Stands (r : FileRecord) (w : ReadRecord × Bool) : Prop :=
  w.1.bytes = r.toBytes ∧ w.1.reclen.toInt = r.toBytes.length
    ∧ w.2 = r.removed query logmgmtMsg

/-- The walk over a well-formed log meets its records, all of them. -/
theorem walk_wellFormed (pre varbuf : List UInt8) (rs : List FileRecord) (hole : Bool) :
    ∃ ws, walk query logmgmtMsg (pre ++ recordBytes rs) pre.length (recordBytes rs).length varbuf
          hole = (ws, none)
      ∧ List.Forall₂ (Stands query logmgmtMsg) rs ws := by
  induction rs generalizing pre varbuf hole with
  | nil => exact ⟨[], walk_of_stop (by simp), .nil⟩
  | cons r rs ih =>
    obtain ⟨w, hread, hbytes, hreclen, hle, hdec⟩ :=
      r.decided_at query logmgmtMsg pre (recordBytes rs) varbuf
    obtain ⟨ws, hwalk, hstands⟩ := ih (pre ++ r.toBytes) w.varbuf
      (hole || r.removed query logmgmtMsg)
    have hpos : 0 < r.toBytes.length := by
      rw [r.toBytes_length, recHdrSize]
      omega
    refine ⟨(w, r.removed query logmgmtMsg) :: ws, ?_, .cons ⟨hbytes, hreclen, rfl⟩ hstands⟩
    rw [recordBytes_cons, walk_of_ok (by simp; omega) hread (fun h => by omega), hdec, hreclen]
    rw [List.append_assoc] at hwalk
    have hoff : (pre.length : Int) + r.toBytes.length = ((pre ++ r.toBytes).length : Nat) := by
      simp
    have hrest : ((r.toBytes ++ recordBytes rs).length : Int) - r.toBytes.length
        = (recordBytes rs).length := by
      simp
    rw [hoff, hrest, hwalk]

variable {query logmgmtMsg}

variable {rs : List FileRecord} {ws : List (ReadRecord × Bool)}

theorem countP_of_stands (h : List.Forall₂ (Stands query logmgmtMsg) rs ws) :
    ws.countP (·.2) = rs.countP fun r => r.removed query logmgmtMsg := by
  induction h with
  | nil => rfl
  | cons hw _ ih => rw [List.countP_cons, List.countP_cons, ih, hw.2.2]

theorem slide_some_of_stands (h : List.Forall₂ (Stands query logmgmtMsg) rs ws) (offset : Int)
    (start : Nat) (moved : List UInt8) :
    slide offset (some (start, moved)) ws
      = some (start, moved ++ recordBytes (keptRecords query logmgmtMsg rs)) := by
  induction h generalizing offset moved with
  | nil => simp [slide, keptRecords]
  | @cons r w rs ws hw _ ih =>
    obtain ⟨hbytes, -, hdel⟩ := hw
    cases hrem : r.removed query logmgmtMsg with
    | true => simp [slide, slideStep, hdel, hrem, ih, keptRecords]
    | false => simp [slide, slideStep, hdel, hrem, ih, keptRecords, hbytes]

/-- Over the whole log: what comes before the first deleted record stays
where it is, and the result is the kept records in their order. -/
theorem cutFile_of_stands (h : List.Forall₂ (Stands query logmgmtMsg) rs ws) (pre : List UInt8) :
    cutFile (pre ++ recordBytes rs) (slide pre.length none ws)
      = pre ++ recordBytes (keptRecords query logmgmtMsg rs) := by
  induction h generalizing pre with
  | nil => simp [slide, cutFile, keptRecords]
  | @cons r w rs ws hw hrest ih =>
    obtain ⟨hbytes, hreclen, hdel⟩ := hw
    cases hrem : r.removed query logmgmtMsg with
    | true =>
      simp [slide, slideStep, hdel, hrem, slide_some_of_stands hrest, cutFile, keptRecords]
    | false =>
      have := ih (pre ++ r.toBytes)
      simp only [slide, slideStep, hdel, hrem, hreclen]
      simpa [keptRecords, hrem] using this

end WellFormed

/-- A compaction gets through a well-formed log. -/
theorem compactLog_of_records (query : QueryEval) (logmgmtMsg varbuf hdr : List UInt8)
    (hhdr : hdr.length = logHeaderSize) (rs : List FileRecord) :
    (compactLog query logmgmtMsg varbuf (hdr ++ recordBytes rs)).ret = some (.ok ())
      ∧ (compactLog query logmgmtMsg varbuf (hdr ++ recordBytes rs)).content
          = hdr ++ recordBytes (rs.filter fun r => !(query r.entry r.data
              && r.dataString != logmgmtMsg))
      ∧ (compactLog query logmgmtMsg varbuf (hdr ++ recordBytes rs)).numDelrec
          = rs.countP fun r => query r.entry r.data && r.dataString != logmgmtMsg := by
  have hlen : logHeaderSize ≤ (hdr ++ recordBytes rs).length := by
    rw [List.length_append]
    omega
  obtain ⟨ws, hwalk, hstands⟩ := walk_wellFormed query logmgmtMsg hdr varbuf rs false
  have hlog : walkLog query logmgmtMsg varbuf (hdr ++ recordBytes rs) = (ws, none) := by
    rw [← hwalk, walkLog, List.length_append, hhdr]
    congr 1
    omega
  obtain ⟨hret, hcontent, hnum, -⟩ := compactLog_spec query logmgmtMsg varbuf hlen
  rw [hlog] at hret hcontent hnum
  refine ⟨hret, ?_, ?_⟩
  · rw [hcontent, if_pos rfl, slideLog, ← hhdr, cutFile_of_stands hstands]
    rfl
  · rw [hnum, countP_of_stands hstands]
    rfl

/-- On a well-formed log a compaction succeeds. It leaves the file header
and, in their order and byte for byte, exactly the records that do not
match the query or are the message logged at its own start; and it counts
those it removed. -/
theorem compactLog_wellFormed (query : QueryEval) (logmgmtMsg varbuf hdr : List UInt8)
    (hhdr : hdr.length = logHeaderSize) (rs : List FileRecord) :
    (compactLog query logmgmtMsg varbuf (hdr ++ recordBytes rs)).ret = some (.ok ())
      ∧ (compactLog query logmgmtMsg varbuf (hdr ++ recordBytes rs)).content
          = hdr ++ recordBytes (rs.filter fun r => !(query r.entry r.data
              && r.dataString != logmgmtMsg))
      ∧ (compactLog query logmgmtMsg varbuf (hdr ++ recordBytes rs)).numDelrec
          = rs.countP fun r => query r.entry r.data && r.dataString != logmgmtMsg :=
  compactLog_of_records query logmgmtMsg varbuf hdr hhdr rs

def bareEntry (eventType : Int32) : PosixLogEntry :=
  { logMagic := 0xfeef0007, logRecid := 0, logSize := 0, logFormat := posixLogNodata
    logEventType := eventType, logFacility := 8, logSeverity := 6, logUid := 0, logGid := 0
    logPid := 1, logPgrp := 1, logTimeSec := 0, logTimeNsec := 0, logFlags := 0, logThread := 0
    logProcessor := 0 }

theorem magic_hiword : (0xfeef0007 : UInt32) &&& 0xffff0000 = logrecMagicHiword := by decide

def bareRecord (eventType : Int32) : FileRecord :=
  .ofLogRecord ⟨bareEntry eventType, [], List.length_nil, Nat.zero_le _⟩ magic_hiword

/-- The query `event_type = 0`. -/
def queryTypeZero : QueryEval := fun entry _ => entry.logEventType == 0

/-- Of two records, the one that matches goes and the other moves up. -/
theorem compactLog_two_records : (compactLog queryTypeZero [65] [] (freshLogHeader.toBytes
        ++ recordBytes [bareRecord 0, bareRecord 1])).content
      = freshLogHeader.toBytes ++ recordBytes [bareRecord 1] := by
  have h := (compactLog_wellFormed queryTypeZero [65] [] freshLogHeader.toBytes (by simp)
    [bareRecord 0, bareRecord 1]).2.1
  rw [h]
  decide

end Evlog.Evlogmgr
