/-
Evlog.Evlview.RecoverTheorems — after an interruption the pointer is where
it belongs.

`handleReadOrSeekFailure` finds the place again by the id of the last
record copied, which may itself have been deleted: before the place every
id is at most that one, after it every id is larger (`Synced`; for the
backward direction the record itself comes after the place). What each of
its operations has established by then is `Recovering`, and
`recover_cases` says that the next operation establishes the next of
these or returns with the pointer in its place. It needs only that the
ids in the log increase.
-/
import Evlog.Evlview.View

namespace Evlog.Evlview

open Evlog.Lib Evlog.Posix

def Increasing (log : List LogRecord) : Prop := log.Pairwise fun r r' => recid r < recid r'

/-! ## Seeking by record id -/

variable {log : List LogRecord} {pos j : Nat} {r : LogRecord}

theorem le_recid_of_mem_drop (hlog : Increasing log) (hr : log[pos]? = some r) :
    ∀ r' ∈ log.drop pos, recid r ≤ recid r' := by
  intro r' hr'
  rcases Cursor.mem_drop.1 hr' with hget | hafter
  · obtain rfl := Option.some.inj (hr.symm.trans hget)
    exact le_rfl
  · exact ((Cursor.pairwise_getElem hlog hr).2 r' hafter).le

theorem recid_le_of_mem_take (hlog : Increasing log) (hr : log[pos]? = some r) :
    ∀ r' ∈ log.take (pos + 1), recid r' ≤ recid r := by
  intro r' hr'
  rcases Cursor.mem_take_succ.1 hr' with hbefore | hget
  · exact ((Cursor.pairwise_getElem hlog hr).1 r' hbefore).le
  · obtain rfl := Option.some.inj (hr.symm.trans hget)
    exact le_rfl

theorem lt_length_of_getElem? (hr : log[pos]? = some r) : pos < log.length :=
  (List.getElem?_eq_some_iff.1 hr).1

/-! ## The place after the last record copied -/

/-- The pointer is where the caller of `handleReadOrSeekFailure` wants it. -/
def Synced (log : List LogRecord) (last : Int) (pos : Nat) : ResyncAction → Prop
  | .beforeLast => (∀ r ∈ log.take pos, recid r < last) ∧ ∀ r ∈ log.drop pos, last ≤ recid r
  | .afterLast => (∀ r ∈ log.take pos, recid r ≤ last) ∧ ∀ r ∈ log.drop pos, last < recid r
  | _ => False

/-- What is known before an operation of `handleReadOrSeekFailure`. -/
def Recovering (c : Config) (action : ResyncAction) (log : List LogRecord) (last : Int)
    (pos : Nat) : Phase → Prop
  | .reopen => True
  | .resync => True
  | .noent =>
    if fromEnd c then ∀ r ∈ log, last < recid r
    else match action with
      | .beforeLast => ∀ r ∈ log, recid r < last
      | _ => ∀ r ∈ log, recid r ≤ last
  | .read => ∃ r, log[pos]? = some r ∧ recid r ≤ last ∧ ∀ r' ∈ log.drop (pos + 1), last < recid r'
  | .back =>
    action = .beforeLast ∧ ∃ j r, pos = j + 1 ∧ log[j]? = some r ∧ recid r = last

variable {c : Config} {s : State} {p : Point} {action : ResyncAction} {last : Int}

/-- Behind a record with the last id is the place before it. -/
theorem synced_beforeLast (hlog : Increasing log) (hr : log[pos]? = some r) (hlast : recid r = last) :
    Synced log last pos .beforeLast := by
  refine ⟨?_, ?_⟩
  · intro r' hr'
    rw [← hlast]
    exact (Cursor.pairwise_getElem hlog hr).1 r' hr'
  · intro r' hr'
    rw [← hlast]
    exact le_recid_of_mem_drop hlog hr r' hr'

theorem resync_fromEnd :
    match logSeek (some fun e _ => decide (e.logRecid.toInt ≤ last)) .POSIX_LOG_SEEK_LAST log pos with
    | (true, pos) => pos ≤ log.length ∧ ∃ r, log[pos]? = some r ∧ recid r ≤ last ∧
        ∀ r' ∈ log.drop (pos + 1), last < recid r'
    | (false, pos) => pos ≤ log.length ∧ ∀ r ∈ log, last < recid r := by
  simp only [logSeek]
  cases hprev : Cursor.prevIndex _ log log.length with
  | none =>
    have hnone := Cursor.prevIndex_eq_none hprev
    rw [List.take_length] at hnone
    refine ⟨le_rfl, fun r hr => ?_⟩
    simpa [LogRecord.matches, queryMatches, recid] using hnone r hr
  | some j =>
    obtain ⟨hlt, ⟨r, hr, hmatch⟩, hafter⟩ := Cursor.prevIndex_eq_some hprev
    refine ⟨hlt.le, r, hr, by simpa [LogRecord.matches, queryMatches, recid] using hmatch, ?_⟩
    intro r' hr'
    rcases hafter r' hr' with hnil | hmatch'
    · simp at hnil
    · simpa [LogRecord.matches, queryMatches, recid] using hmatch'

/-- The first seek, from the start, for the records from some id on. -/
theorem resync_fromStart (hlog : Increasing log) {q : QueryEval} {bound : Int}
    (hq : ∀ r : LogRecord, r.matches (some q) = decide (bound ≤ recid r)) :
    match logSeek (some q) .POSIX_LOG_SEEK_FIRST log pos with
    | (true, pos) => pos ≤ log.length ∧ (∀ r ∈ log.take pos, recid r < bound) ∧
        ∀ r ∈ log.drop pos, bound ≤ recid r
    | (false, pos) => pos ≤ log.length ∧ ∀ r ∈ log, recid r < bound := by
  simp only [logSeek, Option.isSome_some, if_true]
  cases hnext : Cursor.nextIndex _ log 0 with
  | none => exact ⟨Nat.zero_le _, by simpa [hq] using Cursor.nextIndex_eq_none hnext⟩
  | some j =>
    obtain ⟨-, ⟨r, hr, hmatch⟩, hbefore⟩ := Cursor.nextIndex_eq_some hnext
    rw [hq, decide_eq_true_eq] at hmatch
    refine ⟨(lt_length_of_getElem? hr).le, fun r' hr' => ?_, fun r' hr' => ?_⟩
    · simpa [hq] using hbefore r' hr'
    · exact hmatch.trans (le_recid_of_mem_drop hlog hr r' hr')

/-- What an operation of `handleReadOrSeekFailure` comes to: the next
operation is due, or the pointer is in its place and the caller goes on. -/
def Recovers (c : Config) (s : State) (p : Point) (result : State ⊕ State) : Prop :=
  ∃ pos ≤ s.log.length,
    (∃ ph, ph ≠ .reopen ∧ result = .inl { s with pos, pc := .failed ph p } ∧
      Recovering c p.resyncAction s.log s.lastRecordCopied pos ph) ∨
    (result = resume c { s with pos } p ∧ Synced s.log s.lastRecordCopied pos p.resyncAction)

/-- The first seek when the log is searched from its start: from which id
on, and that this is the place wanted. -/
theorem recover_resync_first (hlog : Increasing s.log) (hdir : fromEnd c = false) {q : QueryEval}
    {bound : Int} (hquery : resyncSeek c s p.resyncAction = (some q, .POSIX_LOG_SEEK_FIRST))
    (hq : ∀ r : LogRecord, r.matches (some q) = decide (bound ≤ recid r))
    (hbound : p.resyncAction = .beforeLast ∧ bound = s.lastRecordCopied ∨
      p.resyncAction = .afterLast ∧ bound = s.lastRecordCopied + 1) :
    Recovers c s p (recover c s p .resync) := by
  have hseek := @resync_fromStart s.log s.pos hlog q bound hq
  simp only [recover, hquery]
  generalize logSeek (some q) .POSIX_LOG_SEEK_FIRST s.log s.pos = out at hseek ⊢
  obtain ⟨- | -, pos⟩ := out
  case true =>
    simp only [hdir, Bool.false_eq_true, false_and, if_false]
    refine ⟨pos, hseek.1, .inr ⟨rfl, ?_⟩⟩
    rcases hbound with ⟨ha, rfl⟩ | ⟨ha, rfl⟩ <;> rw [ha]
    · exact hseek.2
    · exact ⟨fun r hr => Int.lt_add_one_iff.1 (hseek.2.1 r hr), hseek.2.2⟩
  case false =>
    refine ⟨pos, hseek.1, .inl ⟨.noent, by simp, rfl, ?_⟩⟩
    rcases hbound with ⟨ha, rfl⟩ | ⟨ha, rfl⟩ <;>
      simp only [Recovering, hdir, ha, Bool.false_eq_true, if_false]
    · exact hseek.2
    · exact fun r hr => Int.lt_add_one_iff.1 (hseek.2 r hr)

theorem recover_resync (hlog : Increasing s.log)
    (haction : p.resyncAction = .beforeLast ∨ p.resyncAction = .afterLast) :
    Recovers c s p (recover c s p .resync) := by
  have hend : p.resyncAction ≠ .end := by rcases haction with h | h <;> simp [h]
  cases hdir : fromEnd c with
  | true =>
    have hseek := @resync_fromEnd s.log s.pos s.lastRecordCopied
    have hquery : resyncSeek c s p.resyncAction =
        (some fun e _ => decide (e.logRecid.toInt ≤ s.lastRecordCopied), .POSIX_LOG_SEEK_LAST) := by
      rcases haction with h | h <;> simp [resyncSeek, h, hdir]
    simp only [recover, hquery]
    split at hseek
    · rename_i pos heq
      simp only [heq, hdir, hend, ne_eq, not_false_eq_true, and_self, if_true]
      exact ⟨pos, hseek.1, .inl ⟨.read, by simp, rfl, hseek.2⟩⟩
    · rename_i pos heq
      simp only [heq]
      exact ⟨pos, hseek.1, .inl ⟨.noent, by simp, rfl, by simpa [Recovering, hdir] using hseek.2⟩⟩
  | false =>
    rcases haction with h | h
    · exact recover_resync_first hlog hdir (q := fun e _ => s.lastRecordCopied ≤ e.logRecid.toInt)
        (by simp [resyncSeek, h, hdir]) (fun _ => rfl) (.inl ⟨h, rfl⟩)
    · exact recover_resync_first hlog hdir (q := fun e _ => s.lastRecordCopied < e.logRecid.toInt)
        (by simp [resyncSeek, h, hdir]) (fun _ => rfl) (.inr ⟨h, rfl⟩)

theorem recover_noent (haction : p.resyncAction = .beforeLast ∨ p.resyncAction = .afterLast)
    (h : Recovering c p.resyncAction s.log s.lastRecordCopied s.pos .noent) :
    Recovers c s p (recover c s p .noent) := by
  simp only [recover]
  cases hdir : fromEnd c with
  | true =>
    simp only [Recovering, hdir, if_true] at h
    refine ⟨0, Nat.zero_le _, .inr ⟨by simp [noentDxn, hdir, logSeek], ?_⟩⟩
    rcases haction with ha | ha <;> rw [ha] <;> refine ⟨by simp, ?_⟩
    · exact fun r hr => (h r (by simpa using hr)).le
    · exact fun r hr => h r (by simpa using hr)
  | false =>
    simp only [Recovering, hdir, Bool.false_eq_true, if_false] at h
    refine ⟨s.log.length, le_rfl, .inr ⟨by simp [noentDxn, hdir, logSeek], ?_⟩⟩
    rcases haction with ha | ha <;> rw [ha] at h ⊢ <;> exact ⟨by simpa using h, by simp⟩

theorem recover_read (hlog : Increasing s.log)
    (haction : p.resyncAction = .beforeLast ∨ p.resyncAction = .afterLast)
    (h : Recovering c p.resyncAction s.log s.lastRecordCopied s.pos .read) :
    Recovers c s p (recover c s p .read) := by
  obtain ⟨r, hr, hle, hafter⟩ := h
  have hlen := lt_length_of_getElem? hr
  have hbefore := recid_le_of_mem_take hlog hr
  simp only [recover, hr]
  split
  · rename_i hdone
    refine ⟨s.pos + 1, hlen, .inr ⟨rfl, ?_⟩⟩
    rcases haction with ha | ha <;> rw [ha] at hdone ⊢
    · have hne : recid r ≠ s.lastRecordCopied := by simpa using hdone
      refine ⟨fun r' hr' => ?_, fun r' hr' => (hafter r' hr').le⟩
      have := hbefore r' hr'
      omega
    · exact ⟨fun r' hr' => (hbefore r' hr').trans hle, hafter⟩
  · rename_i hback
    simp only [not_or, ne_eq, not_not] at hback
    exact ⟨s.pos + 1, hlen, .inl ⟨.back, by simp, rfl, haction.resolve_right hback.1, s.pos, r, rfl, hr,
      hback.2⟩⟩

theorem recover_back (hlog : Increasing s.log)
    (h : Recovering c p.resyncAction s.log s.lastRecordCopied s.pos .back) :
    Recovers c s p (recover c s p .back) := by
  obtain ⟨haction, j, r, hpos, hr, hlast⟩ := h
  have hseek : logSeek none .POSIX_LOG_SEEK_BACKWARD s.log s.pos = (true, j) := by
    simp [logSeek, hpos, Cursor.prevIndex, hr, LogRecord.matches, queryMatches]
  simp only [recover, hseek]
  refine ⟨j, (lt_length_of_getElem? hr).le, .inr ⟨rfl, ?_⟩⟩
  rw [haction]
  exact synced_beforeLast hlog hr hlast

/-- One operation of `handleReadOrSeekFailure`, once the log is open again. -/
theorem recover_cases (hlog : Increasing s.log)
    (haction : p.resyncAction = .beforeLast ∨ p.resyncAction = .afterLast) {ph : Phase}
    (hph : ph ≠ .reopen) (h : Recovering c p.resyncAction s.log s.lastRecordCopied s.pos ph) :
    Recovers c s p (recover c s p ph) := by
  cases ph with
  | reopen => exact absurd rfl hph
  | resync => exact recover_resync hlog haction
  | noent => exact recover_noent haction h
  | read => exact recover_read hlog haction h
  | back => exact recover_back hlog h

end Evlog.Evlview
