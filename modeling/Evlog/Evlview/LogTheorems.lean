/-
Evlog.Evlview.LogTheorems — the list of records and the file.

The machine of Evlog.Evlview.View works on a list of records and an
index. Here both are put back into a log file: on a descriptor of a
well-formed log whose generation is the file's, `posix_log_seek` returns
what `logSeek` says and leaves the read pointer before the record it says
(`posixLogSeek_at`), and `posix_log_read` returns the record at the index
(`posixLogRead_at`), and so in any sequence of calls (`opened_gets`).
-/
import Evlog.Evlview.View

namespace Evlog.Evlview

open Evlog.Lib Evlog.Posix

/-- The descriptor with its read pointer before record `pos` of the log. -/
def descAt (logd : LogDesc) (hdr : LogHeader) (log : List LogRecord) (pos : Nat) : LogDesc :=
  { logd with ldFile := logAt hdr log pos }

variable {logd : LogDesc} {hdr : LogHeader} {log : List LogRecord} {pos : Nat}
  {q : Option QueryEval}

/-! ## Scans -/

theorem nextIndex_of_isNextMatch {j : Fin log.length} (h : IsNextMatch q log pos j) :
    Cursor.nextIndex (LogRecord.matches q) log pos = some j := by
  obtain ⟨hle, hmatch, hbetween⟩ := h
  refine Cursor.nextIndex_eq hle (List.getElem?_eq_getElem j.isLt) hmatch ?_
  intro k b hk hkj hb
  obtain ⟨hlt, rfl⟩ := List.getElem?_eq_some_iff.1 hb
  exact hbetween ⟨k, hlt⟩ hk hkj

theorem prevIndex_of_isPrevMatch {j : Fin log.length} (h : IsPrevMatch q log pos j) :
    Cursor.prevIndex (LogRecord.matches q) log pos = some j := by
  obtain ⟨hlt, hmatch, hbetween⟩ := h
  refine Cursor.prevIndex_eq hlt (List.getElem?_eq_getElem j.isLt) hmatch ?_
  intro k b hjk hk hb
  obtain ⟨hlen, rfl⟩ := List.getElem?_eq_some_iff.1 hb
  exact hbetween ⟨k, hlen⟩ hjk hk

theorem nextIndex_of_forall (h : ∀ k : Fin log.length, pos ≤ k → (log.get k).matches q = false) :
    Cursor.nextIndex (LogRecord.matches q) log pos = none := by
  cases hnext : Cursor.nextIndex (LogRecord.matches q) log pos with
  | none => rfl
  | some j =>
    obtain ⟨hle, ⟨r, hr, hmatch⟩, -⟩ := Cursor.nextIndex_eq_some hnext
    obtain ⟨hlt, rfl⟩ := List.getElem?_eq_some_iff.1 hr
    exact absurd hmatch (by simpa using h ⟨j, hlt⟩ hle)

theorem prevIndex_of_forall (h : ∀ k : Fin log.length, k < pos → (log.get k).matches q = false) :
    Cursor.prevIndex (LogRecord.matches q) log pos = none := by
  cases hprev : Cursor.prevIndex (LogRecord.matches q) log pos with
  | none => rfl
  | some j =>
    obtain ⟨hlt, ⟨r, hr, hmatch⟩, -⟩ := Cursor.prevIndex_eq_some hprev
    obtain ⟨hlen, rfl⟩ := List.getElem?_eq_some_iff.1 hr
    exact absurd hmatch (by simpa using h ⟨j, hlen⟩ hlt)

/-! ## The two calls -/

/-- What the caller of `posix_log_seek` is told. -/
def seekResult (found : Bool) : Except Errno Unit := if found then .ok () else .error .enoent

theorem evlSeekFwd_at (hpos : pos ≤ log.length) : evlSeekFwd q (logAt hdr log pos) =
      (seekResult (logSeek q .POSIX_LOG_SEEK_FORWARD log pos).1,
        logAt hdr log (logSeek q .POSIX_LOG_SEEK_FORWARD log pos).2) := by
  rcases evlSeekFwd_logAt hdr log q pos hpos with ⟨j, hj, heq⟩ | ⟨hnone, heq⟩
  · simp [heq, logSeek, nextIndex_of_isNextMatch hj, seekResult]
  · simp [heq, logSeek, nextIndex_of_forall hnone, seekResult]

theorem evlSeekBkwd_at (hpos : pos ≤ log.length) : evlSeekBkwd q (logAt hdr log pos) =
      (seekResult (logSeek q .POSIX_LOG_SEEK_BACKWARD log pos).1,
        logAt hdr log (logSeek q .POSIX_LOG_SEEK_BACKWARD log pos).2) := by
  rcases evlSeekBkwd_logAt hdr log q pos hpos with ⟨j, hj, heq⟩ | ⟨hnone, heq⟩
  · simp [heq, logSeek, prevIndex_of_isPrevMatch hj, seekResult]
  · simp [heq, logSeek, prevIndex_of_forall hnone, seekResult]

theorem evlRewind_logAt : evlRewind (logAt hdr log pos) = (.ok (), logAt hdr log 0) := by
  rw [evlRewind_apply]
  simp [logAt, boundary_zero]

theorem evlSeekEnd_logAt : evlSeekEnd (logAt hdr log pos) = (.ok (), logAt hdr log log.length) := by
  rw [evlSeekEnd_apply]
  simp [logAt, boundary_length hdr]

/-- `posix_log_seek` as evlview calls it: no query goes with a seek to the
start or to the end. -/
theorem posixLogSeek_at (hvalid : evlValidateLogdes (descAt logd hdr log pos) = true)
    {query : Option PosixLogQuery} (hquery : evlValidateQuery query = true)
    {direction : SeekDirection}
    (hnone : direction = .POSIX_LOG_SEEK_START ∨ direction = .POSIX_LOG_SEEK_END → query = none)
    (hpos : pos ≤ log.length) :
    posixLogSeek (descAt logd hdr log pos) query direction =
      (seekResult (logSeek (PosixLogQuery.eval query) direction log pos).1,
        descAt logd hdr log (logSeek (PosixLogQuery.eval query) direction log pos).2) := by
  unfold posixLogSeek
  rw [if_neg (by simp [hvalid]), if_neg (by simp [hquery])]
  cases direction with
  | POSIX_LOG_SEEK_START =>
    obtain rfl := hnone (.inl rfl)
    simp [LogDesc.run, descAt, evlRewind_logAt, logSeek, seekResult]
  | POSIX_LOG_SEEK_END =>
    obtain rfl := hnone (.inr rfl)
    simp [LogDesc.run, descAt, evlSeekEnd_logAt, logSeek, seekResult]
  | POSIX_LOG_SEEK_FIRST =>
    simp only [LogDesc.run, descAt, FileM.bind_ok evlRewind_logAt]
    cases query with
    | none => simp [PosixLogQuery.eval, logSeek, seekResult]
    | some query =>
      have htree : (PosixLogQuery.eval (some query)).isSome = true := by
        simp only [evlValidateQuery, Bool.and_eq_true] at hquery
        exact hquery.1.1.1
      simp only [Option.isSome_some, if_true, evlSeekFwd_at (Nat.zero_le _)]
      simp [logSeek, htree]
  | POSIX_LOG_SEEK_LAST =>
    simp only [LogDesc.run, descAt, FileM.bind_ok evlSeekEnd_logAt, evlSeekBkwd_at le_rfl]
    simp [logSeek]
  | POSIX_LOG_SEEK_FORWARD => simp only [LogDesc.run, descAt, evlSeekFwd_at hpos]
  | POSIX_LOG_SEEK_BACKWARD => simp only [LogDesc.run, descAt, evlSeekBkwd_at hpos]

/-- `posix_log_read` returns the record at the index and passes over it, or
EAGAIN at the end. -/
theorem posixLogRead_at (hvalid : evlValidateLogdes (descAt logd hdr log pos) = true)
    (hpos : pos ≤ log.length) (buf : Option Nat) :
    posixLogRead (descAt logd hdr log pos) true buf =
      match log[pos]? with
      | some r => (.ok (r.entry, delivered buf r.data), descAt logd hdr log (pos + 1))
      | none => (.error .eagain, descAt logd hdr log pos) := by
  rw [posixLogRead, if_neg (by simp [hvalid]), if_neg (by simp)]
  rcases Nat.lt_or_eq_of_le hpos with hlt | rfl
  · rw [List.getElem?_eq_getElem hlt]
    simp only [descAt, evlRead_logAt hdr log buf ⟨pos, hlt⟩]
    rfl
  · simp only [descAt, evlRead_logAt_end]
    simp

/-! ## Any calls -/

/-- A call that evlview makes on the log. -/
inductive LogCall where
  | seek (query : Option PosixLogQuery) (direction : SeekDirection)
  | read (buf : Option Nat)

/-- What the caller gets, with a seek no record. -/
abbrev Got := Except Errno (Option (PosixLogEntry × List UInt8))

def LogCall.onFile (logd : LogDesc) : LogCall → Got × LogDesc
  | .seek query direction =>
    ((posixLogSeek logd query direction).1.map fun _ => none, (posixLogSeek logd query direction).2)
  | .read buf => ((posixLogRead logd true buf).1.map some, (posixLogRead logd true buf).2)

/-- A query that is none, or that goes with a seek to the start or to the
end. -/
def Misused (query : Option PosixLogQuery) (direction : SeekDirection) : Prop :=
  evlValidateQuery query = false ∨
    (direction = .POSIX_LOG_SEEK_START ∨ direction = .POSIX_LOG_SEEK_END) ∧ query.isSome

instance (query : Option PosixLogQuery) (direction : SeekDirection) : Decidable (Misused query direction) :=
  inferInstanceAs (Decidable (_ ∨ _))

def LogCall.onList (log : List LogRecord) (pos : Nat) : LogCall → Got × Nat
  | .seek query direction =>
    if Misused query direction then (.error .einval, pos)
    else
      let found := logSeek (PosixLogQuery.eval query) direction log pos
      ((seekResult found.1).map fun _ => none, found.2)
  | .read buf =>
    match log[pos]? with
    | some r => (.ok (some (r.entry, delivered buf r.data)), pos + 1)
    | none => (.error .eagain, pos)

/-- The calls one after the other. -/
def gets {σ : Type} (call : σ → LogCall → Got × σ) : σ → List LogCall → List Got × σ
  | s, [] => ([], s)
  | s, c :: cs => ((call s c).1 :: (gets call (call s c).2 cs).1, (gets call (call s c).2 cs).2)

theorem logSeek_le {query : Option QueryEval} (direction : SeekDirection) (hpos : pos ≤ log.length) :
    (logSeek query direction log pos).2 ≤ log.length := by
  have hnext : ∀ {start j}, Cursor.nextIndex (LogRecord.matches query) log start = some j →
      j ≤ log.length := by
    intro start j h
    obtain ⟨-, ⟨r, hr, -⟩, -⟩ := Cursor.nextIndex_eq_some h
    exact (List.getElem?_eq_some_iff.1 hr).1.le
  have hprev : ∀ {start j}, Cursor.prevIndex (LogRecord.matches query) log start = some j →
      j ≤ log.length := by
    intro start j h
    obtain ⟨-, ⟨r, hr, -⟩, -⟩ := Cursor.prevIndex_eq_some h
    exact (List.getElem?_eq_some_iff.1 hr).1.le
  -- a scan that finds nothing leaves the pointer where it started
  cases direction <;> dsimp only [logSeek] <;> (repeat' split)
  all_goals first | exact Nat.zero_le _ | exact le_rfl | exact hpos | exact hnext ‹_› | exact hprev ‹_›

theorem posixLogSeek_misused (hvalid : evlValidateLogdes logd = true) {query : Option PosixLogQuery}
    {direction : SeekDirection} (h : Misused query direction) :
    posixLogSeek logd query direction = (.error .einval, logd) := by
  unfold posixLogSeek
  rw [if_neg (not_not_intro hvalid)]
  cases hquery : evlValidateQuery query with
  | false => simp
  | true =>
    obtain ⟨hend, hsome⟩ := h.resolve_left fun hfalse => Bool.noConfusion (hquery.symm.trans hfalse)
    rcases hend with rfl | rfl
    · simp [hsome]
    · simp [hsome]

theorem onFile_at (hvalid : evlValidateLogdes (descAt logd hdr log pos) = true) (c : LogCall)
    (hpos : pos ≤ log.length) :
    c.onFile (descAt logd hdr log pos) =
        ((c.onList log pos).1, descAt logd hdr log (c.onList log pos).2) ∧
      (c.onList log pos).2 ≤ log.length := by
  cases c with
  | seek query direction =>
    by_cases hmisused : Misused query direction
    · rw [LogCall.onFile, posixLogSeek_misused hvalid hmisused, LogCall.onList, if_pos hmisused]
      exact ⟨rfl, hpos⟩
    · obtain ⟨hquery, hnone⟩ := not_or.1 hmisused
      rw [LogCall.onFile, posixLogSeek_at hvalid (Bool.eq_true_of_not_eq_false hquery)
        (fun hend => Option.not_isSome_iff_eq_none.1 fun hsome => hnone ⟨hend, hsome⟩) hpos,
        LogCall.onList, if_neg hmisused]
      exact ⟨rfl, logSeek_le direction hpos⟩
  | read buf =>
    rw [LogCall.onFile, posixLogRead_at hvalid hpos buf, LogCall.onList]
    cases hr : log[pos]? with
    | none => exact ⟨rfl, hpos⟩
    | some r => exact ⟨rfl, (List.getElem?_eq_some_iff.1 hr).1⟩

theorem gets_at (hvalid : evlValidateLogdes (descAt logd hdr log pos) = true) (calls : List LogCall)
    (hpos : pos ≤ log.length) :
    gets LogCall.onFile (descAt logd hdr log pos) calls =
      ((gets (LogCall.onList log) pos calls).1,
        descAt logd hdr log (gets (LogCall.onList log) pos calls).2) := by
  induction calls generalizing pos with
  | nil => rfl
  | cons c calls ih =>
    obtain ⟨hcall, hle⟩ := onFile_at hvalid c hpos
    have hrest := @ih (c.onList log pos).2 hvalid hle
    simp only [gets, hcall, hrest]

/-- Whoever opens a well-formed log sees a list of records with an index into
it: every sequence of seeks and reads gets from the file what it gets from the
list, the errors included. -/
theorem opened_gets (hdr : LogHeader) (log : List LogRecord) (calls : List LogCall)
    (hopen : evlOpen (logBytes hdr log) = .ok logd) :
    (gets LogCall.onFile logd calls).1 = (gets (LogCall.onList log) 0 calls).1 := by
  unfold evlOpen at hopen
  dsimp only at hopen
  split at hopen
  · cases hopen
  · split at hopen
    · cases hopen
    · obtain rfl := Except.ok.inj hopen
      have hat : (⟨logBytes hdr log, logHeaderSize⟩ : OpenFile) = logAt hdr log 0 := by
        rw [logAt, boundary_zero]
      rw [hat]
      refine congrArg Prod.fst (@gets_at ⟨logdMagic, _, logAt hdr log 0⟩ hdr log 0 ?_ calls (Nat.zero_le _))
      simp [evlValidateLogdes, descAt, logAt]

def bareRecord : LogRecord := ⟨⟨0, 1, 0, 0, 0, 0, 0, 0, 0, 0, 0, 0, 0, 0, 0, 0⟩, [], List.length_nil, Nat.zero_le _⟩

def anyRecord : PosixLogQuery := ⟨1, some "", some fun _ _ => true⟩

/-- Of a log with one record it is read, then EAGAIN, and once more from
behind it. A seek to the start takes no query. -/
theorem opened_gets_one : ∃ logd, evlOpen (logBytes freshLogHeader [bareRecord]) = .ok logd ∧
    (gets LogCall.onFile logd [.read none, .read none, .seek none .POSIX_LOG_SEEK_BACKWARD,
        .seek (some anyRecord) .POSIX_LOG_SEEK_START, .read none]).1 =
      [.ok (some (bareRecord.entry, [])), .error .eagain, .ok none, .error .einval,
        .ok (some (bareRecord.entry, []))] := by
  have hopen : evlOpen (logBytes freshLogHeader [bareRecord]) = .ok _ := rfl
  refine ⟨_, hopen, ?_⟩
  rw [opened_gets freshLogHeader [bareRecord] _ hopen]
  rfl

end Evlog.Evlview
