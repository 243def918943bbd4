/-
Evlog.Posix.SeekTheorems — what `_evlSeekFwd`, `_evlSeekBkwd` and
`posix_log_seek` find, and where they leave the read pointer.

On a well-formed log (Evlog.Posix.LogFileTheorems) a scan from boundary `i`
either stops on the nearest matching record of its direction or returns
`ENOENT` with the pointer back on boundary `i`; `evlSeekFwdLoop_logAt`
and `evlSeekBkwdLoop_logAt` prove that by induction on the number of
records still ahead.

On an arbitrary file `ENOENT` still comes from one place only, `notFound`,
which puts the pointer back where the scan STARTED. For
`POSIX_LOG_SEEK_FIRST` and `POSIX_LOG_SEEK_LAST` that is one end of the log,
not where the caller left it (`posixLogSeek_enoent_iff`).
-/
import Evlog.Posix.LogFileTheorems

namespace Evlog.Posix

open Evlog.Lib

/-! ## Scans of a well-formed log -/

def LogRecord.matches (q : Option QueryEval) (r : LogRecord) : Bool :=
  queryMatches q r.entry r.data

/-- `j` is the first matching record at or after boundary `i`. -/
def IsNextMatch (q : Option QueryEval) (rs : List LogRecord) (i : Nat) (j : Fin rs.length) : Prop :=
  i ≤ j ∧ (rs.get j).matches q = true
    ∧ ∀ k : Fin rs.length, i ≤ k → k < j → (rs.get k).matches q = false

/-- `j` is the last matching record before boundary `i`. -/
def IsPrevMatch (q : Option QueryEval) (rs : List LogRecord) (i : Nat) (j : Fin rs.length) : Prop :=
  j < i ∧ (rs.get j).matches q = true
    ∧ ∀ k : Fin rs.length, j < k → k < i → (rs.get k).matches q = false

/-- The read inside `_evlSeekFwd`, whose buffer holds any record. -/
theorem evlRead_full_logAt (hdr : LogHeader) (rs : List LogRecord) (i : Fin rs.length) :
    evlRead (some posixLogEntryMaxlen) (logAt hdr rs i)
      = (.ok ((rs.get i).entry, (rs.get i).data), logAt hdr rs (i + 1)) := by
  have hlen : (rs.get i).data.length ≤ posixLogEntryMaxlen :=
    (rs.get i).size_eq ▸ (rs.get i).size_le
  rw [evlRead_logAt, delivered_of_le hlen]

/-- The forward scan from boundary `i`, by induction on the records that
are left. -/
theorem evlSeekFwdLoop_logAt (hdr : LogHeader) (rs : List LogRecord) (q : Option QueryEval)
    (start : Nat) : ∀ (n i : Nat), i + n = rs.length →
    (∃ j, IsNextMatch q rs i j
        ∧ evlSeekFwdLoop q start (logAt hdr rs i) = (.ok (), logAt hdr rs j))
      ∨ ((∀ k : Fin rs.length, i ≤ k → (rs.get k).matches q = false)
        ∧ evlSeekFwdLoop q start (logAt hdr rs i)
            = (.error .enoent, { logAt hdr rs i with offset := start }))
  | 0, i, hi => by
    right
    obtain rfl : i = rs.length := hi
    refine ⟨fun k hk => absurd k.isLt (by omega), ?_⟩
    rw [evlSeekFwdLoop_eof (evlRead_logAt_end hdr rs _)]
  | n + 1, i, hi => by
    have hlt : i < rs.length := by omega
    have hturn := evlSeekFwdLoop_read q start
      (evlRead_full_logAt hdr rs ⟨i, hlt⟩)
    cases hm : (rs.get ⟨i, hlt⟩).matches q with
    | true =>
      left
      refine ⟨⟨i, hlt⟩, ⟨le_rfl, hm, fun k hik hki => ?_⟩, ?_⟩
      · exact absurd hki (by rw [Fin.lt_def]; simp only; omega)
      · rw [hturn, ← LogRecord.matches, if_pos hm]
        rfl
    | false =>
      rw [hturn, ← LogRecord.matches, hm, if_neg Bool.false_ne_true]
      -- every later record is a candidate of the induction hypothesis
      have hskip : ∀ k : Fin rs.length, i ≤ k → k = ⟨i, hlt⟩ ∨ i + 1 ≤ k := by
        intro k hik
        by_cases hk : i + 1 ≤ (k : Nat)
        · exact Or.inr hk
        · exact Or.inl (Fin.ext (by simp only; omega))
      rcases evlSeekFwdLoop_logAt hdr rs q start n (i + 1) (by omega) with
        ⟨j, ⟨hij, hjm, hbelow⟩, hloop⟩ | ⟨hnone, hloop⟩
      · left
        refine ⟨j, ⟨by omega, hjm, fun k hik hkj => ?_⟩, hloop⟩
        rcases hskip k hik with rfl | hk
        · exact hm
        · exact hbelow k hk hkj
      · right
        refine ⟨fun k hik => ?_, hloop⟩
        rcases hskip k hik with rfl | hk
        · exact hm
        · exact hnone k hk

/-- The backward scan from boundary `i`, by induction on the records
before it. -/
theorem evlSeekBkwdLoop_logAt (hdr : LogHeader) (rs : List LogRecord) (q : Option QueryEval)
    (start : Nat) : ∀ i : Nat, i ≤ rs.length →
    (∃ j, IsPrevMatch q rs i j
        ∧ evlSeekBkwdLoop q start (logAt hdr rs i) = (.ok (), logAt hdr rs j))
      ∨ ((∀ k : Fin rs.length, k < i → (rs.get k).matches q = false)
        ∧ evlSeekBkwdLoop q start (logAt hdr rs i)
            = (.error .enoent, { logAt hdr rs i with offset := start }))
  | 0, _ => by
    right
    exact ⟨fun k hk => absurd hk (by omega),
      evlSeekBkwdLoop_first (offset_logAt_zero_le hdr rs)⟩
  | i + 1, hi => by
    have hturn := evlSeekBkwdLoop_step q start
      (lt_offset_logAt_succ hdr rs ⟨i, hi⟩) (prevRecord_logAt hdr rs ⟨i, hi⟩)
    cases hm : (rs.get ⟨i, hi⟩).matches q with
    | true =>
      left
      refine ⟨⟨i, hi⟩, ⟨by simp only; omega, hm, fun k hik hki => ?_⟩, ?_⟩
      · exact absurd hik (by rw [Fin.lt_def]; simp only; omega)
      · rw [hturn, ← LogRecord.matches, if_pos hm]
    | false =>
      rw [hturn, ← LogRecord.matches, hm, if_neg Bool.false_ne_true]
      have hskip : ∀ k : Fin rs.length, k < i + 1 → k = ⟨i, hi⟩ ∨ k < i := by
        intro k hki
        by_cases hk : (k : Nat) < i
        · exact Or.inr hk
        · exact Or.inl (Fin.ext (by simp only; omega))
      rcases evlSeekBkwdLoop_logAt hdr rs q start i (by omega) with
        ⟨j, ⟨hij, hjm, habove⟩, hloop⟩ | ⟨hnone, hloop⟩
      · left
        refine ⟨j, ⟨by omega, hjm, fun k hjk hki => ?_⟩, hloop⟩
        rcases hskip k hki with rfl | hk
        · exact hm
        · exact habove k hjk hk
      · right
        refine ⟨fun k hki => ?_, hloop⟩
        rcases hskip k hki with rfl | hk
        · exact hm
        · exact hnone k hk

theorem evlSeekFwd_logAt (hdr : LogHeader) (rs : List LogRecord) (q : Option QueryEval)
    (i : Nat) (hi : i ≤ rs.length) :
    (∃ j, IsNextMatch q rs i j
        ∧ evlSeekFwd q (logAt hdr rs i) = (.ok (), logAt hdr rs j))
      ∨ ((∀ k : Fin rs.length, i ≤ k → (rs.get k).matches q = false)
        ∧ evlSeekFwd q (logAt hdr rs i) = (.error .enoent, logAt hdr rs i)) :=
  evlSeekFwdLoop_logAt hdr rs q (boundary rs i) (rs.length - i) i (by omega)

theorem evlSeekBkwd_logAt (hdr : LogHeader) (rs : List LogRecord) (q : Option QueryEval)
    (i : Nat) (hi : i ≤ rs.length) :
    (∃ j, IsPrevMatch q rs i j
        ∧ evlSeekBkwd q (logAt hdr rs i) = (.ok (), logAt hdr rs j))
      ∨ ((∀ k : Fin rs.length, k < i → (rs.get k).matches q = false)
        ∧ evlSeekBkwd q (logAt hdr rs i) = (.error .enoent, logAt hdr rs i)) :=
  evlSeekBkwdLoop_logAt hdr rs q (boundary rs i) i hi

/-! ## The seek-and-read loop of a log reader -/

/-- Seek forward and read until there is no match, at most `fuel` times. -/
def seekReadLoop (q : Option QueryEval) : Nat → FileM (List (PosixLogEntry × List UInt8))
  | 0 => return []
  | fuel + 1 => fun f =>
    match evlSeekFwd q f with
    | (.error .enoent, f') => (.ok [], f')
    | (.error e, f') => (.error e, f')
    | (.ok (), f') => (do
        let r ← evlRead (some posixLogEntryMaxlen)
        let rest ← seekReadLoop q fuel
        return r :: rest) f'

/-- The matching records from boundary `i` on, as a reader receives them. -/
def matchingFrom (q : Option QueryEval) (rs : List LogRecord) (i : Nat) :
    List (PosixLogEntry × List UInt8) :=
  ((rs.drop i).filter (LogRecord.matches q)).map fun r => (r.entry, r.data)

/-- Skipping to the next match drops only records that do not match. -/
theorem matchingFrom_isNextMatch {q : Option QueryEval} {rs : List LogRecord} {i : Nat}
    {j : Fin rs.length} (h : IsNextMatch q rs i j) :
    matchingFrom q rs i
      = ((rs.get j).entry, (rs.get j).data) :: matchingFrom q rs (j + 1) := by
  obtain ⟨hij, hjm, hbelow⟩ := h
  have hsplit : rs.drop i
      = (rs.drop i).take (j - i) ++ rs.get j :: rs.drop (j + 1) := by
    rw [List.get_eq_getElem, List.cons_getElem_drop_succ]
    conv_lhs => rw [← List.take_append_drop (j - i) (rs.drop i), List.drop_drop]
    rw [Nat.add_sub_cancel' hij]
  have hnone : ((rs.drop i).take (j - i)).filter (LogRecord.matches q) = [] := by
    rw [List.filter_eq_nil_iff]
    intro r hr
    obtain ⟨k, hk, rfl⟩ := List.mem_iff_getElem.mp hr
    simp only [List.length_take, List.length_drop] at hk
    have := hbelow ⟨i + k, by omega⟩ (by simp only; omega)
      (by rw [Fin.lt_def]; simp only; omega)
    simpa [List.getElem_take, List.getElem_drop] using this
  rw [matchingFrom, hsplit, List.filter_append, hnone, List.nil_append,
    List.filter_cons_of_pos hjm, List.map_cons]
  rfl

theorem matchingFrom_nil {q : Option QueryEval} {rs : List LogRecord} {i : Nat}
    (h : ∀ k : Fin rs.length, i ≤ k → (rs.get k).matches q = false) :
    matchingFrom q rs i = [] := by
  rw [matchingFrom, List.map_eq_nil_iff, List.filter_eq_nil_iff]
  intro r hr
  obtain ⟨k, hk, rfl⟩ := List.mem_iff_getElem.mp hr
  rw [List.length_drop] at hk
  have := h ⟨i + k, by omega⟩ (by simp only; omega)
  simpa [List.getElem_drop] using this

/-- With more turns than records left, the loop ends by itself and has
returned exactly the matching records. -/
theorem seekReadLoop_logAt (hdr : LogHeader) (rs : List LogRecord) (q : Option QueryEval) :
    ∀ (fuel i : Nat), i ≤ rs.length → rs.length < fuel + i →
      ∃ f, seekReadLoop q fuel (logAt hdr rs i) = (.ok (matchingFrom q rs i), f)
        ∧ evlSeekFwd q f = (.error .enoent, f)
  | 0, i, hi, hfuel => absurd hfuel (by omega)
  | fuel + 1, i, hi, hfuel => by
    rcases evlSeekFwd_logAt hdr rs q i hi with ⟨j, hnext, hseek⟩ | ⟨hnone, hseek⟩
    · have hij := hnext.1
      obtain ⟨f, hrest, hend⟩ := seekReadLoop_logAt hdr rs q fuel (j + 1) (by omega) (by omega)
      refine ⟨f, ?_, hend⟩
      simp only [seekReadLoop, hseek]
      rw [FileM.bind_ok (evlRead_full_logAt hdr rs j), FileM.bind_ok hrest,
        FileM.pure_apply, matchingFrom_isNextMatch hnext]
    · refine ⟨logAt hdr rs i, ?_, hseek⟩
      simp only [seekReadLoop, hseek, matchingFrom_nil hnone]

/-- Seek correctness. On a well-formed log, from any record boundary
and for any query: each scan ends on the nearest matching record of its
direction, or with `ENOENT` and the pointer untouched, the latter exactly
when no record in that direction matches; and looping forward seek and
read returns every matching record once, in log order. -/
theorem seek_correct (hdr : LogHeader) (rs : List LogRecord) (q : Option QueryEval)
    (i : Fin (rs.length + 1)) (extra : Nat) :
    ((∃ j, IsNextMatch q rs i j
          ∧ evlSeekFwd q (logAt hdr rs i) = (.ok (), logAt hdr rs j))
        ∨ evlSeekFwd q (logAt hdr rs i) = (.error .enoent, logAt hdr rs i))
      ∧ ((evlSeekFwd q (logAt hdr rs i)).1 = .error .enoent
          ↔ ∀ k : Fin rs.length, (i : Nat) ≤ k → (rs.get k).matches q = false)
      ∧ ((∃ j, IsPrevMatch q rs i j
          ∧ evlSeekBkwd q (logAt hdr rs i) = (.ok (), logAt hdr rs j))
        ∨ evlSeekBkwd q (logAt hdr rs i) = (.error .enoent, logAt hdr rs i))
      ∧ ((evlSeekBkwd q (logAt hdr rs i)).1 = .error .enoent
          ↔ ∀ k : Fin rs.length, (k : Nat) < i → (rs.get k).matches q = false)
      ∧ (∃ f, seekReadLoop q (rs.length + 1 + extra) (logAt hdr rs i)
            = (.ok (((rs.drop i).filter (LogRecord.matches q)).map fun r => (r.entry, r.data)), f)
          ∧ evlSeekFwd q f = (.error .enoent, f)) := by
  have hi : (i : Nat) ≤ rs.length := Nat.lt_succ_iff.mp i.isLt
  have hloop := seekReadLoop_logAt hdr rs q (rs.length + 1 + extra) i hi (by omega)
  refine ⟨?_, ?_, ?_, ?_, hloop⟩
  · exact (evlSeekFwd_logAt hdr rs q i hi).imp_right And.right
  · rcases evlSeekFwd_logAt hdr rs q i hi with ⟨j, hnext, hseek⟩ | ⟨hnone, hseek⟩
    · rw [hseek]
      refine ⟨fun h => by simp at h, fun h => ?_⟩
      have := h j hnext.1
      rw [hnext.2.1] at this
      exact absurd this (by simp)
    · rw [hseek]
      exact ⟨fun _ => hnone, fun _ => rfl⟩
  · exact (evlSeekBkwd_logAt hdr rs q i hi).imp_right And.right
  · rcases evlSeekBkwd_logAt hdr rs q i hi with ⟨j, hprev, hseek⟩ | ⟨hnone, hseek⟩
    · rw [hseek]
      refine ⟨fun h => by simp at h, fun h => ?_⟩
      have := h j hprev.1
      rw [hprev.2.1] at this
      exact absurd this (by simp)
    · rw [hseek]
      exact ⟨fun _ => hnone, fun _ => rfl⟩

/-! ## The read pointer after `ENOENT`, on any file -/

variable {f f' : OpenFile}

theorem readBufEio_error {n : Nat} {e : Errno} (h : readBufEio n f = (.error e, f')) :
    e = .eio := by
  rw [readBufEio] at h
  split at h
  · simp only [Prod.mk.injEq, Except.error.injEq] at h
    exact h.1.symm
  · rename_i hne
    exact absurd h (hne e f')

theorem lseek_error {off : Int} {w : Whence} {e e' : Errno}
    (h : FileM.lseek off w e f = (.error e', f')) : e' = e := by
  simp only [FileM.lseek] at h
  split at h
  · simp at h
  · simp only [Prod.mk.injEq, Except.error.injEq] at h
    exact h.1.symm

/-- A backward step fails with `EIO` or `EINVAL`, never with `ENOENT`. -/
theorem prevRecord_error {e : Errno} (h : prevRecord f = (.error e, f')) : e ≠ .enoent := by
  rcases FileM.bind_eq_error h with h | ⟨p1, f1, -, h⟩
  · rw [lseek_error h]; decide
  rcases FileM.bind_eq_error h with h | ⟨sz, f2, -, h⟩
  · rw [readBufEio_error h]; decide
  dsimp only at h
  split_ifs at h
  · simp only [FileM.fail_apply, Prod.mk.injEq, Except.error.injEq] at h
    rw [← h.1]; decide
  rcases FileM.bind_eq_error h with h | ⟨p3, f3, -, h⟩
  · rw [lseek_error h]; decide
  rcases FileM.bind_eq_error h with h | ⟨rec, f4, -, h⟩
  · rw [readBufEio_error h]; decide
  rcases FileM.bind_eq_error h with h | ⟨p5, f5, -, h⟩
  · rw [lseek_error h]; decide
  simp at h

/-- A forward scan that ends with `ENOENT` has put the pointer back to
the start of the scan, whatever the file holds. -/
theorem evlSeekFwdLoop_enoent (q : Option QueryEval) (start : Nat) (f : OpenFile)
    (h : (evlSeekFwdLoop q start f).1 = .error .enoent) :
    (evlSeekFwdLoop q start f).2.offset = start := by
  induction hn : f.content.length - f.offset using Nat.strong_induction_on generalizing f with
  | _ n ih =>
    cases hr : evlRead (some posixLogEntryMaxlen) f with
    | mk r f' =>
      cases r with
      | error e =>
        by_cases he : e = .eagain
        · subst he
          rw [evlSeekFwdLoop_eof hr]
        · rw [evlSeekFwdLoop_error hr he] at h
          simp at h
      | ok a =>
        obtain ⟨entry, buf⟩ := a
        rw [evlSeekFwdLoop_read q start hr] at h ⊢
        obtain ⟨hlt, hf'⟩ := evlRead_ok hr
        by_cases hm : queryMatches q entry buf
        · rw [if_pos hm] at h
          simp at h
        · rw [if_neg hm] at h ⊢
          refine ih (f'.content.length - f'.offset) ?_ f' h rfl
          rw [hf']
          simp only [recHdrSize]
          omega

theorem evlSeekBkwdLoop_enoent (q : Option QueryEval) (start : Nat) (f : OpenFile)
    (h : (evlSeekBkwdLoop q start f).1 = .error .enoent) :
    (evlSeekBkwdLoop q start f).2.offset = start := by
  induction hn : f.offset using Nat.strong_induction_on generalizing f with
  | _ n ih =>
    by_cases hf : recHdrSize < f.offset
    · cases hr : prevRecord f with
      | mk r f' =>
        cases r with
        | error e =>
          rw [evlSeekBkwdLoop_error hf hr] at h
          simp only [Except.error.injEq] at h
          exact absurd h (prevRecord_error hr)
        | ok a =>
          obtain ⟨entry, buf⟩ := a
          rw [evlSeekBkwdLoop_step q start hf hr] at h ⊢
          have hback := (prevRecord_ok hr).2
          by_cases hm : queryMatches q entry buf
          · rw [if_pos hm] at h
            simp at h
          · rw [if_neg hm] at h ⊢
            exact ih f'.offset (by omega) f' h rfl
    · rw [evlSeekBkwdLoop_first (Nat.not_lt.mp hf)]

def scanStart (logd : LogDesc) : SeekDirection → Nat
  | .POSIX_LOG_SEEK_FIRST => logHeaderSize
  | .POSIX_LOG_SEEK_LAST => logd.ldFile.content.length
  | _ => logd.ldFile.offset

theorem evlRewind_apply (f : OpenFile) :
    evlRewind f = (.ok (), { f with offset := logHeaderSize }) := by
  rw [evlRewind, FileM.bind_ok (lseek_set_apply logHeaderSize .eio f)]
  rfl

theorem evlSeekEnd_apply (f : OpenFile) :
    evlSeekEnd f = (.ok (), { f with offset := f.content.length }) := by
  have hseek : FileM.lseek 0 .SEEK_END .eio f
      = (.ok f.content.length, { f with offset := f.content.length }) := by
    rw [FileM.lseek, OpenFile.lseek_end]
  rw [evlSeekEnd, FileM.bind_ok hseek]
  rfl

/-- After `ENOENT` the read pointer is where the scan started. -/
theorem posixLogSeek_enoent_offset {logd : LogDesc} {query : Option PosixLogQuery}
    {direction : SeekDirection}
    (h : (posixLogSeek logd query direction).1 = .error .enoent) :
    (posixLogSeek logd query direction).2.ldFile.offset = scanStart logd direction := by
  unfold posixLogSeek at h ⊢
  by_cases hlog : ¬ evlValidateLogdes logd
  · rw [if_pos hlog] at h
    simp at h
  by_cases hquery : ¬ evlValidateQuery query
  · rw [if_neg hlog, if_pos hquery] at h
    simp at h
  rw [if_neg hlog, if_neg hquery] at h ⊢
  cases direction with
  | POSIX_LOG_SEEK_START =>
    cases query with
    | some q => simp at h
    | none => simp [LogDesc.run, evlRewind_apply] at h
  | POSIX_LOG_SEEK_END =>
    cases query with
    | some q => simp at h
    | none => simp [LogDesc.run, evlSeekEnd_apply] at h
  | POSIX_LOG_SEEK_FIRST =>
    simp only [LogDesc.run, FileM.bind_ok (evlRewind_apply _)] at h ⊢
    cases query with
    | some q => exact evlSeekFwdLoop_enoent _ _ _ h
    | none => simp at h
  | POSIX_LOG_SEEK_LAST =>
    simp only [LogDesc.run, FileM.bind_ok (evlSeekEnd_apply _)] at h ⊢
    exact evlSeekBkwdLoop_enoent _ _ _ h
  | POSIX_LOG_SEEK_FORWARD => exact evlSeekFwdLoop_enoent _ _ _ h
  | POSIX_LOG_SEEK_BACKWARD => exact evlSeekBkwdLoop_enoent _ _ _ h

/-- The read pointer after a failed seek. A seek that returns
`ENOENT` has left the read pointer alone exactly when its direction is
not `POSIX_LOG_SEEK_FIRST` away from the first record and not
`POSIX_LOG_SEEK_LAST` away from the end of the file. -/
theorem posixLogSeek_enoent_iff (logd : LogDesc) (query : Option PosixLogQuery)
    (direction : SeekDirection)
    (h : (posixLogSeek logd query direction).1 = .error .enoent) :
    (posixLogSeek logd query direction).2.ldFile.offset = logd.ldFile.offset ↔
      (direction = .POSIX_LOG_SEEK_FIRST → logd.ldFile.offset = logHeaderSize)
        ∧ (direction = .POSIX_LOG_SEEK_LAST →
            logd.ldFile.offset = logd.ldFile.content.length) := by
  rw [posixLogSeek_enoent_offset h]
  cases direction with
  | POSIX_LOG_SEEK_FIRST => simp [scanStart, eq_comm]
  | POSIX_LOG_SEEK_LAST => simp [scanStart, eq_comm]
  | _ => simp [scanStart]

/-- An open log of records `rs` with the read pointer on boundary `i`. -/
def openLog (rs : List LogRecord) (i : Nat) : LogDesc :=
  { ldMagic := logdMagic, ldGeneration := 0, ldFile := logAt freshLogHeader rs i }

def rejectAll : PosixLogQuery :=
  { quPurpose := 2, quExpr := some "recid < 0", quTree := some fun _ _ => false }

theorem evlValidateLogdes_openLog (rs : List LogRecord) (i : Nat) :
    evlValidateLogdes (openLog rs i) = true := by
  have hhdr : LogHeader.ofBytes (openLog rs i).ldFile.content = freshLogHeader :=
    LogHeader.ofBytes_toBytes_append _ _
  rw [evlValidateLogdes, hhdr]
  rfl

theorem evlSeekFwd_rejectAll (rs : List LogRecord) (i : Nat) (hi : i ≤ rs.length) :
    evlSeekFwd (PosixLogQuery.eval (some rejectAll)) (logAt freshLogHeader rs i)
      = (.error .enoent, logAt freshLogHeader rs i) := by
  rcases evlSeekFwd_logAt freshLogHeader rs (PosixLogQuery.eval (some rejectAll)) i hi with
    ⟨j, ⟨-, hm, -⟩, -⟩ | ⟨-, h⟩
  · exact absurd hm Bool.false_ne_true
  · exact h

theorem posixLogSeek_forward_rejectAll (rs : List LogRecord) (i : Nat) (hi : i ≤ rs.length) :
    posixLogSeek (openLog rs i) (some rejectAll) .POSIX_LOG_SEEK_FORWARD
      = (.error .enoent, openLog rs i) := by
  rw [posixLogSeek, evlValidateLogdes_openLog, if_neg (by decide), if_neg (by decide)]
  simp only [LogDesc.run, openLog, evlSeekFwd_rejectAll rs i hi]

theorem posixLogSeek_first_rejectAll (rs : List LogRecord) (i : Nat) :
    posixLogSeek (openLog rs i) (some rejectAll) .POSIX_LOG_SEEK_FIRST
      = (.error .enoent, openLog rs 0) := by
  have hfirst : { logAt freshLogHeader rs i with offset := logHeaderSize }
      = logAt freshLogHeader rs 0 := by
    rw [logAt, logAt, boundary_zero]
  rw [posixLogSeek, evlValidateLogdes_openLog, if_neg (by decide), if_neg (by decide)]
  simp only [LogDesc.run, openLog, FileM.bind_ok (evlRewind_apply _), hfirst, Option.isSome_some,
    if_true, evlSeekFwd_rejectAll rs 0 (Nat.zero_le _)]

def emptyRecord : LogRecord :=
  { entry := PosixLogEntry.ofBytes [], data := [], size_eq := List.length_nil, size_le := Nat.zero_le _ }

/-- A forward seek at the end of a log of one record. -/
theorem posixLogSeek_enoent_iff_forward :
    (posixLogSeek (openLog [emptyRecord] 1) (some rejectAll) .POSIX_LOG_SEEK_FORWARD).1
        = .error .enoent
      ∧ (posixLogSeek (openLog [emptyRecord] 1) (some rejectAll)
            .POSIX_LOG_SEEK_FORWARD).2.ldFile.offset
          = (openLog [emptyRecord] 1).ldFile.offset := by
  have h := posixLogSeek_forward_rejectAll [emptyRecord] 1 (by decide)
  have henoent : (posixLogSeek (openLog [emptyRecord] 1) (some rejectAll)
      .POSIX_LOG_SEEK_FORWARD).1 = .error .enoent := by rw [h]
  exact ⟨henoent, (posixLogSeek_enoent_iff _ _ _ henoent).mpr ⟨nofun, nofun⟩⟩

/-- `POSIX_LOG_SEEK_FIRST` from the end of a log of one record: nothing
matches, and the read pointer is left on the first record. -/
theorem posixLogSeek_first_moves_pointer :
    ¬ ∀ (logd : LogDesc) (query : Option PosixLogQuery) (direction : SeekDirection),
      (posixLogSeek logd query direction).1 = .error .enoent →
        (posixLogSeek logd query direction).2.ldFile.offset = logd.ldFile.offset := by
  intro hall
  have h := posixLogSeek_first_rejectAll [emptyRecord] 1
  have hoff := hall (openLog [emptyRecord] 1) (some rejectAll) .POSIX_LOG_SEEK_FIRST (by rw [h])
  rw [h] at hoff
  have hfirst : boundary [emptyRecord] 0 = boundary [emptyRecord] 1 := hoff
  have hsucc : boundary [emptyRecord] 1
      = boundary [emptyRecord] 0 + emptyRecord.toBytes.length :=
    boundary_succ [emptyRecord] ⟨0, by decide⟩
  have hlen := LogRecord.toBytes_length emptyRecord
  simp only [sizeSize] at hlen
  omega

end Evlog.Posix
