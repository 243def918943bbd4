/-
Evlog.Evlogd.LogWriteTheorems — what lock contention does to the records
of a log.

A log is seen through three things: the bytes of its file, the bytes
waiting in its secondary buffer, and the number of records dropped since
the buffer was allocated. `writeCall_self` and `writeCall_other` say what
one call does to the three, and that the other log is left alone;
everything after them works with these two only.

What a sequence of calls amounts to is told by `Explains`: every record
passed in is stored or dropped, in call order, and every call that gets
the lock after `k` drops first stores one record that reports `k`. The code
counts the drops in an `int`: `Counted` is the condition that the count does
not wrap around, and `drops_wrapped` a run where it does.
-/
import Evlog.Lib.Transition
import Evlog.Posix.LogFileTheorems
import Evlog.Evlogd.LogWrite

namespace Evlog.Evlogd

open Evlog.Lib Evlog.Posix

/-! ## The view of a log -/

namespace LogState

def content (s : LogState) (l : LogId) : List UInt8 := (s.linfo l).file.content

def pending (s : LogState) (l : LogId) : List UInt8 := (s.userbuf l).buf.getD []

/-- Records dropped since the secondary buffer was allocated. -/
def drops (s : LogState) (l : LogId) : Int32 :=
  if (s.userbuf l).buf.isSome then (s.userbuf l).droppedEvt else 0

/-- After `initLogFiles`: every buffer carries the descriptor of its log,
the descriptors differ, and `recId` is the type of the log. -/
structure Opened (s : LogState) : Prop where
  evl_fd : s.userEvlbuf.fd = s.evlLog.fd
  pvt_fd : s.userprivEvlbuf.fd = s.pvtLog.fd
  fd_ne : s.evlLog.fd ≠ s.pvtLog.fd
  evl_type : s.evlLog.recId = 1
  pvt_type : s.pvtLog.recId = 0

/-- `s'` is an opened state that shows the same as `s` of every log but `l`. -/
structure Touches (l : LogId) (s s' : LogState) : Prop where
  opened : s'.Opened
  content_ne : ∀ l', l' ≠ l → s'.content l' = s.content l'
  pending_ne : ∀ l', l' ≠ l → s'.pending l' = s.pending l'
  drops_ne : ∀ l', l' ≠ l → s'.drops l' = s.drops l'

variable {s s' s'' : LogState} {l : LogId}

theorem Touches.trans (h : Touches l s s') (h' : Touches l s' s'') : Touches l s s'' where
  opened := h'.opened
  content_ne l' hne := (h'.content_ne l' hne).trans (h.content_ne l' hne)
  pending_ne l' hne := (h'.pending_ne l' hne).trans (h.pending_ne l' hne)
  drops_ne l' hne := (h'.drops_ne l' hne).trans (h.drops_ne l' hne)

/-! ### The elementary updates -/

theorem Opened.userbufOfFd_eq (hs : s.Opened) (l : LogId) :
    s.userbufOfFd (s.linfo l).fd = some l := by
  unfold userbufOfFd
  cases l with
  | evlLog => simp [linfo, hs.evl_fd]
  | pvtLog => simp [linfo, hs.evl_fd, hs.pvt_fd, hs.fd_ne.symm]

theorem Opened.fd_eq_iff (hs : s.Opened) (l b : LogId) :
    (s.linfo l).fd = (s.userbuf b).fd ↔ b = l := by
  cases l <;> cases b <;> simp [linfo, userbuf, hs.evl_fd, hs.pvt_fd, hs.fd_ne, hs.fd_ne.symm]

theorem seekEndWrite_apply (bytes : List UInt8) (f : OpenFile) : seekEndWrite bytes f
      = (.ok (), ⟨f.content ++ bytes, (f.content ++ bytes).length⟩) := by
  have hseek : FileM.lseek 0 .SEEK_END .eio f
      = (.ok f.content.length, { f with offset := f.content.length }) := by
    rw [FileM.lseek, OpenFile.lseek_end]
  rw [seekEndWrite, FileM.bind_ok hseek, FileM.write, OpenFile.write_at_end]

theorem touches_setFile (hs : s.Opened) (l : LogId) (f : OpenFile) : Touches l s (s.setFile l f) := by
  have hopened : (s.setFile l f).Opened := by
    cases l <;> exact ⟨hs.evl_fd, hs.pvt_fd, hs.fd_ne, hs.evl_type, hs.pvt_type⟩
  refine ⟨hopened, ?_, ?_, ?_⟩ <;>
    (intro l' hne; cases l <;> cases l' <;> first | exact absurd rfl hne | rfl)

theorem touches_append (hs : s.Opened) (l : LogId) (bytes : List UInt8) :
    Touches l s (s.append l bytes) :=
  touches_setFile hs l _

theorem touches_setUserbuf (hs : s.Opened) {u : UserbufInfo} (hfd : u.fd = (s.userbuf l).fd) :
    Touches l s (s.setUserbuf l u) := by
  have hopened : (s.setUserbuf l u).Opened := by
    cases l with
    | evlLog => exact ⟨hfd.trans hs.evl_fd, hs.pvt_fd, hs.fd_ne, hs.evl_type, hs.pvt_type⟩
    | pvtLog => exact ⟨hs.evl_fd, hfd.trans hs.pvt_fd, hs.fd_ne, hs.evl_type, hs.pvt_type⟩
  refine ⟨hopened, ?_, ?_, ?_⟩ <;>
    (intro l' hne; cases l <;> cases l' <;> first | exact absurd rfl hne | rfl)

theorem touches_nextRecId (hs : s.Opened) (l : LogId) : Touches l s (s.nextRecId l) := by
  have hopened : (s.nextRecId l).Opened :=
    ⟨hs.evl_fd, hs.pvt_fd, hs.fd_ne, hs.evl_type, hs.pvt_type⟩
  exact ⟨hopened, fun l' _ => by cases l' <;> rfl, fun l' _ => by cases l' <;> rfl,
    fun l' _ => by cases l' <;> rfl⟩

@[simp] theorem content_append (s : LogState) (l : LogId) (bytes : List UInt8) :
    (s.append l bytes).content l = s.content l ++ bytes := by
  cases l <;> simp [content, append, setFile, linfo, seekEndWrite_apply]

@[simp] theorem userbuf_append (s : LogState) (l b : LogId) (bytes : List UInt8) :
    (s.append l bytes).userbuf b = s.userbuf b := by
  cases l <;> cases b <;> rfl

@[simp] theorem gRecId_append (s : LogState) (l : LogId) (bytes : List UInt8) :
    (s.append l bytes).gRecId = s.gRecId := by
  cases l <;> rfl

@[simp] theorem userbuf_setUserbuf (s : LogState) (l : LogId) (u : UserbufInfo) :
    (s.setUserbuf l u).userbuf l = u := by
  cases l <;> rfl

@[simp] theorem content_setUserbuf (s : LogState) (l b : LogId) (u : UserbufInfo) :
    (s.setUserbuf b u).content l = s.content l := by
  cases l <;> cases b <;> rfl

@[simp] theorem gRecId_setUserbuf (s : LogState) (b : LogId) (u : UserbufInfo) :
    (s.setUserbuf b u).gRecId = s.gRecId := by
  cases b <;> rfl

@[simp] theorem userbuf_nextRecId (s : LogState) (l b : LogId) :
    (s.nextRecId l).userbuf b = s.userbuf b := by
  cases b <;> rfl

@[simp] theorem content_nextRecId (s : LogState) (l b : LogId) :
    (s.nextRecId l).content b = s.content b := by
  cases b <;> rfl

/-- Allocating a buffer changes nothing that is seen of it. -/
theorem alloc_userbuf (s : LogState) (l : LogId) : (s.userbuf l).alloc.buf = some (s.pending l)
      ∧ (s.userbuf l).alloc.fd = (s.userbuf l).fd
      ∧ (s.userbuf l).alloc.droppedEvt = s.drops l := by
  unfold UserbufInfo.alloc pending drops
  cases hb : (s.userbuf l).buf with
  | none => simp
  | some b => simp [hb]

end LogState

/-! ## One call -/

open LogState

variable {s : LogState}

/-- `write_rec_to_buf` appends to the buffer what fits and counts what
does not. -/
theorem writeRecToBuf_spec (hs : s.Opened) (l : LogId) (rbuf : List UInt8) :
    Touches l s (writeRecToBuf s l rbuf)
      ∧ (writeRecToBuf s l rbuf).gRecId = s.gRecId
      ∧ (writeRecToBuf s l rbuf).content l = s.content l
      ∧ (writeRecToBuf s l rbuf).pending l
          = (if (s.pending l).length + rbuf.length ≤ maxUserbuf l
              then s.pending l ++ rbuf else s.pending l)
      ∧ (writeRecToBuf s l rbuf).drops l
          = (if (s.pending l).length + rbuf.length ≤ maxUserbuf l
              then s.drops l else s.drops l + 1) := by
  obtain ⟨hbuf, hfd, hdropped⟩ := s.alloc_userbuf l
  have hstep : writeRecToBuf s l rbuf
      = if (s.pending l).length + rbuf.length ≤ maxUserbuf l
        then s.setUserbuf l { (s.userbuf l).alloc with buf := some (s.pending l ++ rbuf) }
        else s.setUserbuf l
          { (s.userbuf l).alloc with droppedEvt := (s.userbuf l).alloc.droppedEvt + 1 } := by
    unfold writeRecToBuf
    rw [hs.userbufOfFd_eq l]
    simp only [hbuf, Option.getD_some]
  rw [hstep]
  split_ifs with hfit
  · refine ⟨touches_setUserbuf hs hfd, by simp, by simp, ?_, ?_⟩
    · simp [pending]
    · simp [drops, hdropped]
  · refine ⟨touches_setUserbuf hs hfd, by simp, by simp, ?_, ?_⟩
    · simp [pending, hbuf]
    · simp [drops, hbuf, hdropped]

/-- Draining moves the buffer into the file and, after drops, logs their
number under the next id. -/
theorem drainIfUsed_spec (hs : s.Opened) (l : LogId) (env : ProcInfo) :
    ∃ s', drainIfUsed l l env s = some s' ∧ Touches l s s'
      ∧ s'.pending l = [] ∧ s'.drops l = 0
      ∧ ((¬ 0 < s.drops l ∧ s'.gRecId = s.gRecId
            ∧ s'.content l = s.content l ++ s.pending l)
        ∨ (0 < s.drops l ∧ s'.gRecId = (s.nextRecId l).gRecId
            ∧ s'.content l = s.content l ++ (s.pending l
              ++ (droppedRecord env (s.nextRecId l).gRecId (s.drops l).toInt).toBytes))) := by
  unfold drainIfUsed
  cases hb : (s.userbuf l).buf with
  | none =>
    refine ⟨s, by simp, ⟨hs, fun _ _ => rfl, fun _ _ => rfl, fun _ _ => rfl⟩, ?_, ?_, Or.inl ?_⟩
    · simp [pending, hb]
    · simp [drops, hb]
    · simp [pending, drops, hb]
  | some used =>
    have hpending : s.pending l = used := by simp [pending, hb]
    have hdrops : s.drops l = (s.userbuf l).droppedEvt := by simp [drops, hb]
    rw [if_pos ⟨(hs.fd_eq_iff l l).mpr rfl, rfl⟩, drainBufToLog, hs.userbufOfFd_eq l]
    simp only [hb, Option.getD_some, userbuf_append, Option.some.injEq, exists_eq_left']
    have ha := touches_append hs l used
    by_cases hd : 0 < (s.userbuf l).droppedEvt
    · rw [if_pos hd]
      have hm : Touches l s (logDroppedEvtcntMsg (s.append l used) l env
          (s.userbuf l).droppedEvt) :=
        (ha.trans (touches_nextRecId ha.opened l)).trans
          (touches_append (touches_nextRecId ha.opened l).opened l _)
      have hrecid : ((s.append l used).nextRecId l).gRecId = (s.nextRecId l).gRecId := by
        cases l <;> rfl
      refine ⟨hm.trans (touches_setUserbuf hm.opened rfl), by simp [pending], by simp [drops],
        Or.inr ⟨hdrops ▸ hd, ?_, ?_⟩⟩
      · simp [logDroppedEvtcntMsg, hrecid]
      · simp [logDroppedEvtcntMsg, hrecid, hpending, hdrops]
    · rw [if_neg hd]
      refine ⟨ha.trans (touches_setUserbuf ha.opened rfl), by simp [pending], by simp [drops],
        Or.inl ⟨hdrops ▸ hd, by simp, by simp [hpending]⟩⟩

/-- The other buffer's test in `write_rec_to_log` does nothing. -/
theorem drainIfUsed_ne (hs : s.Opened) {l b : LogId} (h : b ≠ l) (env : ProcInfo) :
    drainIfUsed b l env s = some s := by
  unfold drainIfUsed
  rw [if_neg]
  rintro ⟨hfd, -⟩
  exact h ((hs.fd_eq_iff l b).mp hfd)

/-- `write_rec_to_log` without the lock is `write_rec_to_buf`. -/
theorem writeRecToLog_unlocked (s : LogState) (l : LogId) (rbuf : List UInt8) (env : ProcInfo) :
    writeRecToLog s l rbuf false env = some (writeRecToBuf s l rbuf) := rfl

/-- `write_rec_to_log` with the lock drains the buffer and appends the
record to the file. -/
theorem writeRecToLog_locked (hs : s.Opened) (l : LogId) (rbuf : List UInt8) (env : ProcInfo) :
    ∃ s', writeRecToLog s l rbuf true env = some s' ∧ Touches l s s'
      ∧ s'.pending l = [] ∧ s'.drops l = 0
      ∧ ((¬ 0 < s.drops l ∧ s'.gRecId = s.gRecId
            ∧ s'.content l = s.content l ++ (s.pending l ++ rbuf))
        ∨ (0 < s.drops l ∧ s'.gRecId = (s.nextRecId l).gRecId
            ∧ s'.content l = s.content l ++ (s.pending l
              ++ ((droppedRecord env (s.nextRecId l).gRecId (s.drops l).toInt).toBytes
                ++ rbuf)))) := by
  obtain ⟨s1, hdrain, htouch, hpending, hdrops, hcases⟩ := drainIfUsed_spec hs l env
  have hwrite : writeRecToLog s l rbuf true env = some (s1.append l rbuf) := by
    unfold writeRecToLog
    cases l with
    | evlLog => simp [hdrain, drainIfUsed_ne htouch.opened (show LogId.pvtLog ≠ .evlLog by decide)]
    | pvtLog => simp [hdrain, drainIfUsed_ne hs (show LogId.evlLog ≠ .pvtLog by decide)]
  refine ⟨_, hwrite, htouch.trans (touches_append htouch.opened l rbuf), ?_, ?_, ?_⟩
  · rw [← hpending, pending, pending, userbuf_append]
  · rw [← hdrops, drops, drops, userbuf_append]
  · rcases hcases with ⟨h0, hid, hc⟩ | ⟨hpos, hid, hc⟩
    · exact Or.inl ⟨h0, by rw [gRecId_append, hid], by rw [content_append, hc, List.append_assoc]⟩
    · refine Or.inr ⟨hpos, by rw [gRecId_append, hid], ?_⟩
      rw [content_append, hc]
      simp only [List.append_assoc]

/-! ## Sequences of calls -/

/-- A call of `write_rec_to_log`. -/
structure WriteCall where
  log : LogId
  record : LogRecord
  locked : Bool
  env : ProcInfo

def writeCall (s : LogState) (c : WriteCall) : Option LogState :=
  writeRecToLog s c.log c.record.toBytes c.locked c.env

/-- What became of a record: stored (in the file or the buffer), dropped,
or made by the daemon itself to report `k` drops. -/
inductive Outcome where
  | stored (record : LogRecord)
  | dropped (record : LogRecord)
  | report (k : Nat) (record : LogRecord)

def Outcome.kept : Outcome → Option LogRecord
  | .stored record => some record
  | .dropped _ => none
  | .report _ record => some record

/-- `Explains k calls outcomes k'`: with `k` drops not yet reported, the
calls have the given outcomes and leave `k'` drops not yet reported. -/
inductive Explains : Nat → List WriteCall → List Outcome → Nat → Prop where
  | nil (k : Nat) : Explains k [] [] k
  /-- no lock, and the record fits in the buffer -/
  | buffered {k k' : Nat} {c : WriteCall} {cs : List WriteCall} {os : List Outcome} :
      c.locked = false → Explains k cs os k' → Explains k (c :: cs) (.stored c.record :: os) k'
  /-- no lock, and the buffer is full -/
  | dropped {k k' : Nat} {c : WriteCall} {cs : List WriteCall} {os : List Outcome} :
      c.locked = false → Explains (k + 1) cs os k' → Explains k (c :: cs) (.dropped c.record :: os) k'
  /-- the lock, and nothing to report -/
  | written {k' : Nat} {c : WriteCall} {cs : List WriteCall} {os : List Outcome} :
      c.locked = true → Explains 0 cs os k' → Explains 0 (c :: cs) (.stored c.record :: os) k'
  /-- the lock after `k` drops -/
  | reported {k k' : Nat} {c : WriteCall} {cs : List WriteCall} {os : List Outcome} (recid : Int32) :
      c.locked = true → 0 < k → Explains 0 cs os k' →
      Explains k (c :: cs) (.report k (droppedRecord c.env recid k) :: .stored c.record :: os) k'

/-- The condition on a call, for the log `l`: a record that is dropped does
not find the count of drops at the end of its type. -/
def Counted (l : LogId) (s : LogState) (c : WriteCall) : Prop :=
  c.log = l → c.locked = false →
    maxUserbuf l < (s.pending l).length + c.record.toBytes.length → s.drops l ≠ Int32.maxValue

/-- The log file holds the records `rs`, the secondary buffer `buffered`. -/
structure Holds (s : LogState) (l : LogId) (hdr : LogHeader) (rs buffered : List LogRecord) :
    Prop where
  opened : s.Opened
  content_eq : s.content l = logBytes hdr rs
  pending_eq : s.pending l = buffered.flatMap LogRecord.toBytes

theorem logBytes_append (hdr : LogHeader) (rs rs' : List LogRecord) :
    logBytes hdr rs ++ rs'.flatMap LogRecord.toBytes = logBytes hdr (rs ++ rs') := by
  simp [logBytes]

section Calls

variable {l : LogId} {hdr : LogHeader} {rs buffered : List LogRecord}

theorem writeCall_other (h : Holds s l hdr rs buffered) {c : WriteCall} (hc : c.log ≠ l) :
    ∃ s', writeCall s c = some s' ∧ Holds s' l hdr rs buffered ∧ s'.drops l = s.drops l := by
  obtain ⟨s', hcall, htouch⟩ : ∃ s', writeCall s c = some s' ∧ Touches c.log s s' := by
    unfold writeCall
    cases c.locked with
    | false => exact ⟨_, rfl, (writeRecToBuf_spec h.opened c.log c.record.toBytes).1⟩
    | true =>
      obtain ⟨s', hw, ht, -⟩ := writeRecToLog_locked h.opened c.log c.record.toBytes c.env
      exact ⟨s', hw, ht⟩
  refine ⟨s', hcall, ⟨htouch.opened, ?_, ?_⟩, htouch.drops_ne l hc.symm⟩
  · rw [htouch.content_ne l hc.symm, h.content_eq]
  · rw [htouch.pending_ne l hc.symm, h.pending_eq]

theorem toInt_count_succ {d : Int32} {k : Nat} (hd : d.toInt = k) (hmax : d ≠ Int32.maxValue) :
    (d + 1).toInt = ((k + 1 : Nat) : Int) := by
  have hle : d.toInt ≤ 2 ^ 31 - 1 := d.toInt_le
  have hne : d.toInt ≠ 2 ^ 31 - 1 := fun h => hmax (Int32.toInt_inj.mp h)
  have hone : (1 : Int32).toInt = 1 := rfl
  rw [Int32.toInt_add, hone, Int.bmod_eq_of_le (by omega) (by omega), hd]
  rfl

/-- A call on the log, when `k` drops are counted: its outcomes go in front
of those of the calls that follow. -/
theorem writeCall_self (h : Holds s l hdr rs buffered) {c : WriteCall} (hc : c.log = l)
    (hcounted : Counted l s c) {k : Nat} (hk : (s.drops l).toInt = k) :
    ∃ s' outcomes appended buffered' k', writeCall s c = some s'
      ∧ Holds s' l hdr (rs ++ appended) buffered'
      ∧ appended ++ buffered' = buffered ++ outcomes.filterMap Outcome.kept
      ∧ (s'.drops l).toInt = (k' : Nat)
      ∧ ∀ cs os unreported, Explains k' cs os unreported →
          Explains k (c :: cs) (outcomes ++ os) unreported := by
  subst hc
  cases hlock : c.locked with
  | false =>
    obtain ⟨htouch, -, hcontent, hpending, hdrops⟩ :=
      writeRecToBuf_spec h.opened c.log c.record.toBytes
    have hcall : writeCall s c = some (writeRecToBuf s c.log c.record.toBytes) := by
      rw [writeCall, hlock, writeRecToLog_unlocked]
    by_cases hfit : (s.pending c.log).length + c.record.toBytes.length ≤ maxUserbuf c.log
    · rw [if_pos hfit] at hpending hdrops
      refine ⟨_, [.stored c.record], [], buffered ++ [c.record], k, hcall,
        ⟨htouch.opened, ?_, ?_⟩, rfl, by rw [hdrops, hk], fun _ _ _ => .buffered hlock⟩
      · rw [hcontent, h.content_eq, List.append_nil]
      · rw [hpending, h.pending_eq]
        simp
    · rw [if_neg hfit] at hpending hdrops
      have hmax := hcounted rfl hlock (Nat.lt_of_not_le hfit)
      refine ⟨_, [.dropped c.record], [], buffered, k + 1, hcall, ⟨htouch.opened, ?_, ?_⟩, ?_, ?_,
        fun _ _ _ => .dropped hlock⟩
      · rw [hcontent, h.content_eq, List.append_nil]
      · rw [hpending, h.pending_eq]
      · simp [Outcome.kept]
      · rw [hdrops, toInt_count_succ hk hmax]
  | true =>
    obtain ⟨s', hwrite, htouch, hpending, hdrops, hcases⟩ :=
      writeRecToLog_locked h.opened c.log c.record.toBytes c.env
    have hcall : writeCall s c = some s' := by rw [writeCall, hlock, hwrite]
    have hzero : (s'.drops c.log).toInt = (0 : Nat) := by rw [hdrops]; rfl
    rw [Int32.lt_iff_toInt_lt, hk] at hcases
    rcases hcases with ⟨hnone, -, hcontent⟩ | ⟨hpos, -, hcontent⟩
    · obtain rfl : k = 0 := by simpa using hnone
      refine ⟨s', [.stored c.record], buffered ++ [c.record], [], 0, hcall,
        ⟨htouch.opened, ?_, hpending⟩, by simp [Outcome.kept], hzero, fun _ _ _ => .written hlock⟩
      rw [hcontent, h.content_eq, h.pending_eq, ← logBytes_append]
      simp
    · generalize hid : (s.nextRecId c.log).gRecId = recid at hcontent
      refine ⟨s', [.report k (droppedRecord c.env recid k), .stored c.record],
        buffered ++ [droppedRecord c.env recid k, c.record], [], 0, hcall,
        ⟨htouch.opened, ?_, hpending⟩, by simp [Outcome.kept], hzero,
        fun _ _ _ => .reported recid hlock (by simpa using hpos)⟩
      rw [hcontent, h.content_eq, h.pending_eq, ← logBytes_append]
      simp

/-- A sequence of calls on both logs, seen from one of them. -/
theorem runM_writeCall (l : LogId) (hdr : LogHeader) (calls : List WriteCall) :
    ∀ (s : LogState) (rs buffered : List LogRecord) (k : Nat), Holds s l hdr rs buffered →
      (s.drops l).toInt = k → Guarded writeCall (Counted l) s calls →
      ∃ s' outcomes appended buffered' unreported, runM writeCall s calls = some s'
        ∧ Holds s' l hdr (rs ++ appended) buffered'
        ∧ appended ++ buffered' = buffered ++ outcomes.filterMap Outcome.kept
        ∧ (s'.drops l).toInt = (unreported : Nat)
        ∧ Explains k (calls.filter (·.log = l)) outcomes unreported := by
  induction calls with
  | nil =>
    intro s rs buffered k h hk _
    exact ⟨s, [], [], buffered, k, rfl, by simpa using h, by simp, hk, .nil _⟩
  | cons c calls ih =>
    intro s rs buffered k h hk ⟨hcounted, hrest⟩
    by_cases hc : c.log = l
    · obtain ⟨s1, os1, app1, buf1, k1, hcall, h1, hkept1, hk1, hexp1⟩ :=
        writeCall_self h hc hcounted hk
      obtain ⟨s', os2, app2, buf2, unreported, hrun, h2, hkept2, hk2, hexp2⟩ :=
        ih s1 _ _ k1 h1 hk1 (hrest s1 hcall)
      refine ⟨s', os1 ++ os2, app1 ++ app2, buf2, unreported, ?_, ?_, ?_, hk2, ?_⟩
      · rw [runM_cons hcall, hrun]
      · rwa [← List.append_assoc]
      · rw [List.append_assoc, hkept2, ← List.append_assoc, hkept1, List.filterMap_append,
          List.append_assoc]
      · rw [List.filter_cons_of_pos (by simpa using hc)]
        exact hexp1 _ _ _ hexp2
    · obtain ⟨s1, hcall, h1, hdrops⟩ := writeCall_other h hc
      obtain ⟨s', os, app, buf, unreported, hrun, h2, hkept, hk2, hexp⟩ :=
        ih s1 _ _ k h1 (by rw [hdrops, hk]) (hrest s1 hcall)
      refine ⟨s', os, app, buf, unreported, ?_, h2, hkept, hk2, ?_⟩
      · rw [runM_cons hcall, hrun]
      · rw [List.filter_cons_of_neg (by simpa using hc)]
        exact hexp

end Calls

/-- What a sequence of calls does to a log with an empty buffer: its calls
have outcomes in call order, drops being reported exactly; what the file has
gained followed by what the buffer holds is the concatenation of the records
kept; and the file is made of whole records whose trailing size is
`log_size + REC_HDR_SIZE`. -/
def SequenceKept (l : LogId) (hdr : LogHeader) (rs : List LogRecord) (s : LogState)
    (calls : List WriteCall) : Prop :=
  ∃ s' outcomes appended unreported, runM writeCall s calls = some s'
    ∧ (s'.drops l).toInt = (unreported : Nat)
    ∧ Explains 0 (calls.filter (·.log = l)) outcomes unreported
    ∧ s'.content l = s.content l ++ appended.flatMap LogRecord.toBytes
    ∧ appended.flatMap LogRecord.toBytes ++ s'.pending l
        = (outcomes.filterMap Outcome.kept).flatMap LogRecord.toBytes
    ∧ s'.content l = logBytes hdr (rs ++ appended)
    ∧ ∀ r ∈ rs ++ appended,
        r.toBytes = r.body ++ leBytes sizeSize (r.entry.logSize.toNat + recHdrSize)

/-- Lock contention neither reorders nor duplicates nor silently loses
records: so it is for any calls on both logs under any pattern of lock
success, as long as the count of drops does not wrap around. -/
theorem writeRecToLog_sequence (l : LogId) (hdr : LogHeader) (rs : List LogRecord) (s : LogState)
    (h : Holds s l hdr rs []) (hfresh : s.drops l = 0) (calls : List WriteCall)
    (hcounted : Guarded writeCall (Counted l) s calls) : SequenceKept l hdr rs s calls := by
  obtain ⟨s', outcomes, appended, buffered, unreported, hrun, h', hkept, hk, hexp⟩ :=
    runM_writeCall l hdr calls s rs [] 0 h (by rw [hfresh]; rfl) hcounted
  refine ⟨s', outcomes, appended, unreported, hrun, hk, hexp, ?_, ?_, h'.content_eq, ?_⟩
  · rw [h'.content_eq, h.content_eq, logBytes_append]
  · rw [h'.pending_eq, ← List.flatMap_append, hkept, List.nil_append]
  · intro r _
    rw [LogRecord.toBytes_eq, LogRecord.body_length, Nat.add_comm]

/-- The daemon just started on log files that did not exist. -/
def freshState : LogState :=
  { evlLog := { fd := 3, recId := 1, file := ⟨freshLogHeader.toBytes, logHeaderSize⟩ }
    pvtLog := { fd := 4, recId := 0, file := ⟨freshLogHeader.toBytes, logHeaderSize⟩ }
    userEvlbuf := { buf := none, droppedEvt := 0, fd := 3 }
    userprivEvlbuf := { buf := none, droppedEvt := 0, fd := 4 }
    gRecId := 0 }

theorem opened_freshState : freshState.Opened :=
  ⟨rfl, rfl, by decide, rfl, rfl⟩

theorem holds_freshState : Holds freshState .evlLog freshLogHeader [] [] :=
  ⟨opened_freshState, (List.append_nil _).symm, rfl⟩

def someProc : ProcInfo :=
  { time := 0, euid := 0, egid := 0, pid := 1, pgrp := 1, processor := 0 }

def twoMessages : List WriteCall :=
  let message := msgRecord someProc 1 logLogmgmt 1 logInfo ⟨cBytes "hello", by decide⟩
  [⟨.evlLog, message, false, someProc⟩, ⟨.evlLog, message, true, someProc⟩]

/-- Two calls on a new event log. -/
theorem writeRecToLog_sequence_twoMessages :
    Guarded writeCall (Counted .evlLog) freshState twoMessages
      ∧ SequenceKept .evlLog freshLogHeader [] freshState twoMessages := by
  have hcounted : Guarded writeCall (Counted .evlLog) freshState twoMessages :=
    ⟨fun _ _ _ => by decide,
      fun _ _ => ⟨fun _ hlock => absurd hlock (by decide), fun _ _ => trivial⟩⟩
  exact ⟨hcounted, writeRecToLog_sequence .evlLog freshLogHeader [] freshState holds_freshState rfl
    twoMessages hcounted⟩

/-! ### The count that wraps around -/

def largestRecord : LogRecord where
  entry := { PosixLogEntry.ofBytes [] with logSize := 8192 }
  data := List.replicate 8192 0
  size_eq := List.length_replicate
  size_le := le_rfl

theorem largestRecord_length : largestRecord.toBytes.length = 8284 := by
  rw [LogRecord.toBytes_length]
  rfl

theorem entries_of_flatMap_toBytes {rs rs' : List LogRecord}
    (h : rs.flatMap LogRecord.toBytes = rs'.flatMap LogRecord.toBytes) :
    rs.map LogRecord.entry = rs'.map LogRecord.entry := by
  induction rs generalizing rs' with
  | nil =>
    cases rs' with
    | nil => rfl
    | cons r' rs' =>
      have hlen := congrArg List.length h
      rw [List.flatMap_cons, List.length_append, LogRecord.toBytes_length, sizeSize,
        List.flatMap_nil, List.length_nil] at hlen
      omega
  | cons r rs ih =>
    cases rs' with
    | nil =>
      have hlen := congrArg List.length h
      rw [List.flatMap_cons, List.length_append, LogRecord.toBytes_length, sizeSize,
        List.flatMap_nil, List.length_nil] at hlen
      omega
    | cons r' rs' =>
      rw [List.flatMap_cons, List.flatMap_cons] at h
      have hentry : r.entry = r'.entry := by
        have := congrArg PosixLogEntry.ofBytes h
        simpa only [LogRecord.toBytes, List.append_assoc,
          PosixLogEntry.ofBytes_toBytes_append] using this
      have hrest := List.append_inj_right h (by
        rw [LogRecord.toBytes_length, LogRecord.toBytes_length, hentry])
      rw [List.map_cons, List.map_cons, hentry, ih hrest]

theorem entries_of_logBytes {hdr hdr' : LogHeader} {rs rs' : List LogRecord}
    (h : logBytes hdr rs = logBytes hdr' rs') :
    rs.map LogRecord.entry = rs'.map LogRecord.entry :=
  entries_of_flatMap_toBytes (List.append_inj_right h (by simp))

section Wrapped

variable {hdr : LogHeader} {rs buffered : List LogRecord} {c : WriteCall}

/-- Calls without the lock whose records all fit in the buffer. -/
theorem runM_buffered (hc : c.locked = false) (n : Nat) (h : Holds s c.log hdr rs buffered)
    (hfit : (s.pending c.log).length + n * c.record.toBytes.length ≤ maxUserbuf c.log) :
    ∃ s', runM writeCall s (List.replicate n c) = some s'
      ∧ Holds s' c.log hdr rs (buffered ++ List.replicate n c.record)
      ∧ s'.drops c.log = s.drops c.log := by
  induction n generalizing s buffered with
  | zero => exact ⟨s, rfl, by simpa using h, rfl⟩
  | succ n ih =>
    rw [Nat.succ_mul] at hfit
    obtain ⟨htouch, -, hcontent, hpending, hdrops⟩ :=
      writeRecToBuf_spec h.opened c.log c.record.toBytes
    rw [if_pos (by omega)] at hpending hdrops
    have h1 : Holds (writeRecToBuf s c.log c.record.toBytes) c.log hdr rs (buffered ++ [c.record]) :=
      ⟨htouch.opened, hcontent.trans h.content_eq, by rw [hpending, h.pending_eq]; simp⟩
    obtain ⟨s', hrun, h', hdrops'⟩ :=
      ih h1 (by rw [hpending, List.length_append]; omega)
    have hcall : writeCall s c = some (writeRecToBuf s c.log c.record.toBytes) := by
      rw [writeCall, hc, writeRecToLog_unlocked]
    refine ⟨s', by rw [List.replicate_succ, runM_cons hcall, hrun], ?_, hdrops'.trans hdrops⟩
    rwa [List.append_assoc, List.singleton_append, ← List.replicate_succ] at h'

/-- Calls without the lock whose records do not fit: each is one drop. -/
theorem runM_dropped (hc : c.locked = false) (n : Nat) (h : Holds s c.log hdr rs buffered)
    (hfull : maxUserbuf c.log < (s.pending c.log).length + c.record.toBytes.length) :
    ∃ s', runM writeCall s (List.replicate n c) = some s' ∧ Holds s' c.log hdr rs buffered
      ∧ s'.drops c.log = s.drops c.log + Int32.ofNat n := by
  induction n generalizing s with
  | zero => exact ⟨s, rfl, h, (Int32.add_zero _).symm⟩
  | succ n ih =>
    obtain ⟨htouch, -, hcontent, hpending, hdrops⟩ :=
      writeRecToBuf_spec h.opened c.log c.record.toBytes
    rw [if_neg (by omega)] at hpending hdrops
    have h1 : Holds (writeRecToBuf s c.log c.record.toBytes) c.log hdr rs buffered :=
      ⟨htouch.opened, hcontent.trans h.content_eq, hpending.trans h.pending_eq⟩
    obtain ⟨s', hrun, h', hdrops'⟩ := ih h1 (by rw [hpending]; exact hfull)
    have hcall : writeCall s c = some (writeRecToBuf s c.log c.record.toBytes) := by
      rw [writeCall, hc, writeRecToLog_unlocked]
    refine ⟨s', by rw [List.replicate_succ, runM_cons hcall, hrun], h', ?_⟩
    rw [hdrops', hdrops, Int32.add_assoc, Nat.add_comm n 1, Int32.ofNat_add]
    rfl

/-- Where calls without the lock are followed by one with it, all records
are stored or the drops are reported. -/
theorem Explains.reported_or_stored {c' : WriteCall} (hc : c.locked = false)
    (hc' : c'.locked = true) {n k k' : Nat} {os : List Outcome}
    (h : Explains k (List.replicate n c ++ [c']) os k') :
    (∃ recid j, droppedRecord c'.env recid j ∈ os.filterMap Outcome.kept)
      ∨ k = 0 ∧ (os.filterMap Outcome.kept).length = n + 1 := by
  induction n generalizing k os with
  | zero =>
    cases h with
    | buffered hlock _ | dropped hlock _ => exact absurd (hlock.symm.trans hc') (by decide)
    | written _ hrest =>
      cases hrest
      exact .inr ⟨rfl, rfl⟩
    | reported recid _ _ _ => exact .inl ⟨recid, k, List.mem_cons_self⟩
  | succ n ih =>
    rw [List.replicate_succ, List.cons_append] at h
    cases h with
    | buffered _ hrest =>
      rcases ih hrest with ⟨recid, j, hmem⟩ | ⟨hzero, hlen⟩
      · exact .inl ⟨recid, j, List.mem_cons_of_mem _ hmem⟩
      · exact .inr ⟨hzero, congrArg (· + 1) hlen⟩
    | dropped _ hrest =>
      rcases ih hrest with hreport | ⟨hzero, -⟩
      · exact .inl hreport
      · exact absurd hzero (Nat.succ_ne_zero k)
    | written hlock _ | reported _ hlock _ _ => exact absurd (hlock.symm.trans hc) (by decide)

/-- Such calls after which the file has fewer records, none of them a report. -/
theorem not_sequenceKept {c' : WriteCall} {s' : LogState} {n : Nat} {stored : List LogRecord}
    (hc : c.locked = false) (hc' : c'.locked = true) (hlog : c'.log = c.log)
    (h : Holds s c.log hdr rs []) (h' : Holds s' c.log hdr (rs ++ stored) [])
    (hrun : runM writeCall s (List.replicate n c ++ [c']) = some s')
    (hstored : ∀ r ∈ stored, r.entry.logMagic ≠ logMagicArch) (hlen : stored.length ≠ n + 1) :
    ¬ SequenceKept c.log hdr rs s (List.replicate n c ++ [c']) := by
  rintro ⟨s2, outcomes, appended, unreported, hrun2, -, hexp, hcontent, hbytes, -, -⟩
  obtain rfl : s' = s2 := Option.some.inj (hrun.symm.trans hrun2)
  have hall : (List.replicate n c ++ [c']).filter (·.log = c.log) = List.replicate n c ++ [c'] := by
    refine List.filter_eq_self.mpr fun d hd => ?_
    rcases List.mem_append.mp hd with hd | hd
    · simp [List.eq_of_mem_replicate hd]
    · simp [List.mem_singleton.mp hd, hlog]
  rw [hall] at hexp
  have hkept : stored.map LogRecord.entry
      = (outcomes.filterMap Outcome.kept).map LogRecord.entry := by
    refine entries_of_flatMap_toBytes ?_
    rw [h'.content_eq, h.content_eq, ← logBytes_append] at hcontent
    rw [← hbytes, h'.pending_eq, List.flatMap_nil, List.append_nil,
      List.append_cancel_left hcontent]
  rcases hexp.reported_or_stored hc hc' with ⟨recid, j, hmem⟩ | ⟨-, hkeptLen⟩
  · have hentry := List.mem_map_of_mem (f := LogRecord.entry) hmem
    rw [← hkept] at hentry
    obtain ⟨r, hr, heq⟩ := List.mem_map.mp hentry
    exact hstored r hr (congrArg PosixLogEntry.logMagic heq)
  · have hlens := congrArg List.length hkept
    rw [List.length_map, List.length_map, hkeptLen] at hlens
    exact hlen hlens

end Wrapped

/-- The largest records on the private log: what fits in the buffer and `2 ^ 31`
more without the lock, then one with it. -/
def wrappingCalls : List WriteCall :=
  List.replicate (31 + 2 ^ 31) ⟨.pvtLog, largestRecord, false, someProc⟩
    ++ [⟨.pvtLog, largestRecord, true, someProc⟩]

/-- The count is negative then, and the drain reports nothing. -/
theorem drops_wrapped : Holds freshState .pvtLog freshLogHeader [] []
      ∧ freshState.drops .pvtLog = 0
      ∧ ¬ SequenceKept .pvtLog freshLogHeader [] freshState wrappingCalls := by
  have hfresh : Holds freshState .pvtLog freshLogHeader [] [] :=
    ⟨opened_freshState, (List.append_nil _).symm, rfl⟩
  have hcount : ¬ 0 < freshState.drops .pvtLog + Int32.ofNat (2 ^ 31) := by decide
  rw [wrappingCalls]
  have hmany : 0 < 2 ^ 31 := by decide
  generalize 2 ^ 31 = n at hcount hmany ⊢
  obtain ⟨s1, hrun1, h1, hdrops1⟩ :=
    runM_buffered (c := ⟨.pvtLog, largestRecord, false, someProc⟩) rfl 31 hfresh
      (by rw [largestRecord_length]; decide)
  have hpending1 : (s1.pending .pvtLog).length = 31 * 8284 := by
    rw [h1.pending_eq, List.nil_append, List.length_flatMap, List.map_replicate, List.sum_replicate,
      largestRecord_length]
    rfl
  obtain ⟨s2, hrun2, h2, hdrops2⟩ :=
    runM_dropped (c := ⟨.pvtLog, largestRecord, false, someProc⟩) rfl n h1
      (by rw [hpending1, largestRecord_length]; decide)
  obtain ⟨s3, hwrite, htouch, hpending3, -, hcases⟩ :=
    writeRecToLog_locked h2.opened .pvtLog largestRecord.toBytes someProc
  rw [← hdrops1, ← hdrops2] at hcount
  obtain ⟨-, -, hcontent3⟩ := hcases.resolve_right fun hreport => hcount hreport.1
  have hcall : writeCall s2 ⟨.pvtLog, largestRecord, true, someProc⟩ = some s3 := hwrite
  have h3 : Holds s3 .pvtLog freshLogHeader ([] ++ List.replicate 32 largestRecord) [] := by
    refine ⟨htouch.opened, ?_, hpending3⟩
    have hlast : List.replicate 32 largestRecord = List.replicate 31 largestRecord ++ [largestRecord] :=
      List.replicate_succ'
    rw [hcontent3, h2.content_eq, h2.pending_eq, ← logBytes_append, List.nil_append, hlast,
      List.flatMap_append, List.flatMap_singleton]
  refine ⟨hfresh, rfl, not_sequenceKept rfl rfl rfl hfresh h3 ?_ ?_ ?_⟩
  · rw [List.replicate_add, List.append_assoc, runM_append hrun1, runM_append hrun2,
      runM_cons hcall, runM_nil]
  · intro r hr
    rw [List.eq_of_mem_replicate hr]
    decide
  · rw [List.length_replicate]
    omega

end Evlog.Evlogd
