/-
Evlog.Posix.BackwardTheorems — the backward seek, turn by turn.

`_evlSeekBkwd` takes the length of its steps from the file. Here its `while`
is a machine with the file and `wholeRec` as its state, since a record that
is shorter than the one before leaves the end of that one in the buffer, where
a query may look at it. A turn of the loop moves the offset back by more than
`SIZESIZE` bytes or is the last one (`backwardStep_next`), whatever the file
holds, so the loop ends. For queries that do not look behind a record the
machine is `evlSeekBkwdLoop` (`backward_returns_iff`).
-/
import Evlog.Lib.Machine
import Evlog.Posix.SeekTheorems

namespace Evlog.Posix

open Evlog.Lib Relation

/-! ## The machine -/

/-- `sizeof(wholeRec)`. -/
def wholeRecRoom : Nat := recHdrSize + posixLogEntryMaxlen

structure WholeRec where
  bytes : List UInt8
  length_eq : bytes.length = wholeRecRoom

/-- What the buffer holds after `readBuf` has stored into it. -/
def WholeRec.store (w : WholeRec) (bytes : List UInt8) : WholeRec where
  bytes := (bytes ++ w.bytes.drop bytes.length).take wholeRecRoom
  length_eq := by
    have := w.length_eq
    simp only [List.length_take, List.length_append, List.length_drop]
    omega

/-- At the head of the loop; the offset of the file is `curPosition`. -/
structure BackwardState where
  file : OpenFile
  wholeRec : WholeRec

def prevSize : FileM Nat := do
  let _ ← FileM.lseek (-(sizeSize : Int)) .SEEK_CUR .eio
  let sizeBytes ← readBufEio sizeSize
  let wholeRecSize := (leInt sizeBytes % 2 ^ 64).toNat
  if wholeRecRoom < wholeRecSize then FileM.fail .einval else return wholeRecSize

/-- Back up to the beginning of the previous record, read it, then back up to
its start. -/
def readPrev (wholeRecSize : Nat) : FileM (List UInt8) := do
  let curPosition ← FileM.lseek (-((wholeRecSize + sizeSize : Nat) : Int)) .SEEK_CUR .eio
  let bytes ← readBufEio wholeRecSize
  let _ ← FileM.lseek curPosition .SEEK_SET .eio
  return bytes

/-- One turn of the `while`. -/
def backwardStep (query : Option QueryEval) (startPosition : Nat) (s : BackwardState) :
    BackwardState ⊕ (Except Errno Unit × OpenFile) :=
  if recHdrSize < s.file.offset then
    match prevSize s.file with
    | (.error e, f) => .inr (.error e, f)
    | (.ok wholeRecSize, f) =>
      match readPrev wholeRecSize f with
      | (.error e, f) => .inr (.error e, f)
      | (.ok bytes, f) =>
        let wholeRec := s.wholeRec.store bytes
        if queryMatches query (PosixLogEntry.ofBytes wholeRec.bytes)
            (wholeRec.bytes.drop recHdrSize) then
          .inr (.ok (), f)
        else .inl ⟨f, wholeRec⟩
  else .inr (notFound startPosition s.file)

/-- How many bytes a turn asks `readBuf` for, with room for no more than
`wholeRec` has. -/
def BackwardState.asked (s : BackwardState) : Option Nat :=
  if recHdrSize < s.file.offset then
    match prevSize s.file with
    | (.ok wholeRecSize, _) => some wholeRecSize
    | (.error _, _) => none
  else none

/-! ## One turn -/

/-- The two halves of a turn are `prevRecord`. -/
theorem prevRecord_eq (f : OpenFile) : prevRecord f = match prevSize f with
      | (.error e, f') => (.error e, f')
      | (.ok wholeRecSize, f') =>
        match readPrev wholeRecSize f' with
        | (.error e, f'') => (.error e, f'')
        | (.ok bytes, f'') => (.ok (PosixLogEntry.ofBytes bytes, bytes.drop recHdrSize), f'') := by
  simp only [prevRecord, prevSize, readPrev, FileM.bind_apply]
  rcases FileM.lseek (-(sizeSize : Int)) .SEEK_CUR .eio f with ⟨_ | _, f1⟩
  · rfl
  dsimp only
  rcases readBufEio sizeSize f1 with ⟨_ | sizeBytes, f2⟩
  · rfl
  dsimp only
  by_cases hbig : wholeRecRoom < (leInt sizeBytes % 2 ^ 64).toNat
  · rw [if_pos hbig, if_pos (show recHdrSize + posixLogEntryMaxlen < _ from hbig)]
    rfl
  · rw [if_neg hbig, if_neg (show ¬recHdrSize + posixLogEntryMaxlen < _ from hbig)]
    dsimp only [FileM.bind_apply, FileM.pure_apply]
    generalize FileM.lseek (-((_ : Nat) : Int)) .SEEK_CUR .eio f2 = r
    rcases r with ⟨_ | pos, f3⟩
    · rfl
    dsimp only
    generalize readBufEio _ f3 = r
    rcases r with ⟨_ | bytes, f4⟩
    · rfl
    dsimp only
    generalize FileM.lseek _ .SEEK_SET .eio f4 = r
    rcases r with ⟨_ | _, f5⟩ <;> rfl

theorem prevSize_le {f f' : OpenFile} {n : Nat} (h : prevSize f = (.ok n, f')) : n ≤ wholeRecRoom := by
  obtain ⟨pos, f1, -, h⟩ := FileM.bind_eq_ok h
  obtain ⟨sizeBytes, f2, -, h⟩ := FileM.bind_eq_ok h
  dsimp only at h
  split at h
  · simp at h
  · next hsmall =>
    simp only [FileM.pure_apply, Prod.mk.injEq, Except.ok.injEq] at h
    omega

variable {query : Option QueryEval}

theorem backwardStep_next {start : Nat} {s s' : BackwardState}
    (h : backwardStep query start s = .inl s') :
    s'.file.content = s.file.content ∧ s'.file.offset + sizeSize < s.file.offset := by
  unfold backwardStep at h
  split at h
  · have hprev := prevRecord_eq s.file
    rcases hsize : prevSize s.file with ⟨_ | wholeRecSize, f1⟩
    · simp [hsize] at h
    · rcases hread : readPrev wholeRecSize f1 with ⟨_ | bytes, f2⟩
      · simp [hsize, hread] at h
      · simp only [hsize, hread] at h hprev
        split at h
        · cases h
        · cases h
          exact prevRecord_ok hprev
  · cases h

/-- The last turn of a seek that finds nothing puts the offset back. -/
theorem backwardStep_last {start : Nat} {s : BackwardState} {r : Except Errno Unit × OpenFile}
    (h : backwardStep query start s = .inr r) (hr : r.1 = .error .enoent) :
    r.2 = ⟨s.file.content, start⟩ := by
  unfold backwardStep at h
  split at h
  · have hprev := prevRecord_eq s.file
    rcases hsize : prevSize s.file with ⟨e | wholeRecSize, f1⟩
    · simp only [hsize] at h hprev
      cases h
      cases hr
      exact absurd rfl (prevRecord_error hprev)
    · rcases hread : readPrev wholeRecSize f1 with ⟨e | bytes, f2⟩
      · simp only [hsize, hread] at h hprev
        cases h
        cases hr
        exact absurd rfl (prevRecord_error hprev)
      · simp only [hsize, hread] at h
        split at h
        · cases h
          cases hr
        · cases h
  · cases h
    rw [notFound_apply]

/-! ## The run -/

/-- The place at the head of the loop gets smaller from turn to turn. -/
theorem backward_returns (query : Option QueryEval) (start : Nat) (s : BackwardState) :
    ∃ r, Machine.Returns (backwardStep query start) s r := by
  refine Machine.exists_returns_of_wellFounded (measure fun s : BackwardState => s.file.offset).wf ?_ s
  intro s s' hnext
  have := (backwardStep_next hnext).2
  show s'.file.offset < s.file.offset
  omega

def LooksAtRecord (query : Option QueryEval) : Prop :=
  ∀ bytes behind, queryMatches query (PosixLogEntry.ofBytes (bytes ++ behind))
      ((bytes ++ behind).drop recHdrSize)
    = queryMatches query (PosixLogEntry.ofBytes bytes) (bytes.drop recHdrSize)

theorem WholeRec.store_eq (w : WholeRec) {bytes : List UInt8} (h : bytes.length ≤ wholeRecRoom) :
    ∃ behind, (w.store bytes).bytes = bytes ++ behind := by
  refine ⟨(w.bytes.drop bytes.length).take (wholeRecRoom - bytes.length), ?_⟩
  show (bytes ++ w.bytes.drop bytes.length).take wholeRecRoom = _
  rw [List.take_append, List.take_of_length_le h]

theorem readPrev_length {n : Nat} {f f' : OpenFile} {bytes : List UInt8}
    (h : readPrev n f = (.ok bytes, f')) : bytes.length = n := by
  obtain ⟨pos, f1, -, h⟩ := FileM.bind_eq_ok h
  obtain ⟨bytes', f2, hread, h⟩ := FileM.bind_eq_ok h
  obtain ⟨-, f3, -, h⟩ := FileM.bind_eq_ok h
  simp only [FileM.pure_apply, Prod.mk.injEq, Except.ok.injEq] at h
  rw [← h.1]
  exact (readBuf_ok (readBufEio_ok hread)).2.1

/-- The machine returns what the recursion over the records returns. -/
theorem backward_returns_iff (hquery : LooksAtRecord query) (start : Nat) (s : BackwardState)
    (r : Except Errno Unit × OpenFile) :
    Machine.Returns (backwardStep query start) s r ↔ r = evlSeekBkwdLoop query start s.file := by
  suffices hreturns : Machine.Returns (backwardStep query start) s (evlSeekBkwdLoop query start s.file) by
    constructor
    · intro h
      exact h.unique hreturns
    · rintro rfl
      exact hreturns
  induction hn : s.file.offset using Nat.strong_induction_on generalizing s with
  | _ n ih =>
    have hprev := prevRecord_eq s.file
    by_cases hf : recHdrSize < s.file.offset
    · rcases hsize : prevSize s.file with ⟨e | wholeRecSize, f1⟩
      · simp only [hsize] at hprev
        rw [evlSeekBkwdLoop_error hf hprev]
        exact Machine.returns_of_step (by simp only [backwardStep, if_pos hf, hsize])
      · rcases hread : readPrev wholeRecSize f1 with ⟨e | bytes, f2⟩
        · simp only [hsize, hread] at hprev
          rw [evlSeekBkwdLoop_error hf hprev]
          exact Machine.returns_of_step (by simp only [backwardStep, if_pos hf, hsize, hread])
        · simp only [hsize, hread] at hprev
          obtain ⟨behind, hstore⟩ := s.wholeRec.store_eq
            ((readPrev_length hread).trans_le (prevSize_le hsize))
          have hmatches := hquery bytes behind
          rw [← hstore] at hmatches
          rw [evlSeekBkwdLoop_step query start hf hprev]
          by_cases hm : queryMatches query (PosixLogEntry.ofBytes bytes) (bytes.drop recHdrSize) = true
          · rw [if_pos hm]
            refine Machine.returns_of_step ?_
            simp only [backwardStep, if_pos hf, hsize, hread, hmatches, if_pos hm]
          · rw [if_neg hm]
            have hnext : Machine.Next (backwardStep query start) s ⟨f2, s.wholeRec.store bytes⟩ := by
              simp only [Machine.Next, backwardStep, if_pos hf, hsize, hread, hmatches, if_neg hm]
            have hback := (backwardStep_next hnext).2
            exact (Machine.returns_iff_of_next hnext).2 (ih _ (by omega) ⟨f2, _⟩ rfl)
    · rw [evlSeekBkwdLoop_first (Nat.not_lt.1 hf)]
      refine Machine.returns_of_step ?_
      simp only [backwardStep, if_neg hf, notFound_apply]

/-- The backward seek terminates on any bytes, from any offset and with any
query; the offset decreases from turn to turn, no more is read into `wholeRec`
than it holds, and where nothing is found the offset is as it was. -/
theorem seekBkwd_any_bytes (query : Option QueryEval) (content : List UInt8) (startPosition : Nat)
    (wholeRec : WholeRec) :
    (∃ r, Machine.Returns (backwardStep query startPosition) ⟨⟨content, startPosition⟩, wholeRec⟩ r) ∧
      (∀ s s', ReflTransGen (Machine.Next (backwardStep query startPosition))
          ⟨⟨content, startPosition⟩, wholeRec⟩ s →
        Machine.Next (backwardStep query startPosition) s s' → s'.file.offset < s.file.offset) ∧
      (∀ s n, ReflTransGen (Machine.Next (backwardStep query startPosition))
          ⟨⟨content, startPosition⟩, wholeRec⟩ s →
        s.asked = some n → n ≤ s.wholeRec.bytes.length) ∧
      (∀ f, Machine.Returns (backwardStep query startPosition) ⟨⟨content, startPosition⟩, wholeRec⟩
          (.error .enoent, f) → f = ⟨content, startPosition⟩) := by
  have hrun := @Machine.run_rule _ _ (backwardStep query startPosition)
    ⟨⟨content, startPosition⟩, wholeRec⟩ (fun s => s.file.content = content)
    (fun r => r.1 = .error .enoent → r.2 = ⟨content, startPosition⟩) rfl (by
      intro s _ hcontent
      cases hstep : backwardStep query startPosition s with
      | inl s' => exact (backwardStep_next hstep).1.trans hcontent
      | inr r =>
        intro hr
        rw [backwardStep_last hstep hr]
        exact congrArg (OpenFile.mk · startPosition) hcontent)
  refine ⟨backward_returns _ _ _, ?_, ?_, fun f hf => hrun.2 _ hf rfl⟩
  · intro s s' _ hnext
    have := (backwardStep_next hnext).2
    omega
  · intro s n _ hasked
    rw [s.wholeRec.length_eq]
    unfold BackwardState.asked at hasked
    split at hasked
    · split at hasked
      · next hsize =>
        cases hasked
        exact prevSize_le hsize
      · cases hasked
    · cases hasked

end Evlog.Posix
