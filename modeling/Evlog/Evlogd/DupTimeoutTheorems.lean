/-
Evlog.Evlogd.DupTimeoutTheorems — pending duplicates are reported in time.

Before each `select` the daemon calls `checkDupEventTimeout`. It has to
report the entries whose time has come and to say how long `select` may
sleep: until the first of the others, and without limit (0) if there are
none (`ReportedInTime`). Each log takes its own reading of the clock, so
the two are apart here.

The function looks at the entries of a log only if the log's `dup_count`
is not 0. So `ReportedInTime` needs `CountsCached`, which every run keeps
(`DupInv.count_eq`); of the entries themselves nothing is needed.
-/
import Evlog.Lib.Earliest
import Evlog.Evlogd.DupTheorems

namespace Evlog.Evlogd

open Evlog.Lib

/-! ## What should be -/

/-- A log's `dup_count` is the sum of what its entries count. -/
def CountsCached (s : DupState) : Prop :=
  ∀ l, (s.linfo l).dupCount = countSum (s.entries l)

/-- The seconds that the pending entries of a log still have. -/
def remaining (s : DupState) (l : LogId) (now : Int) : Set Int :=
  {t | ∃ e ∈ s.entries l, 0 < e.dupCount ∧ t = e.timeStart + s.dupInterval - now}

def readings (evlNow pvtNow : Int) : LogId → Int
  | .evlLog => evlNow
  | .pvtLog => pvtNow

/-- After `checkDupEventTimeout` no pending entry is due, what was due has
been reported with its count and the rest is still there; and `tv_sec` is
0 just when nothing is pending, and else the first of the remaining
times. -/
structure ReportedInTime (s : DupState) (now : LogId → Int) (r : DupState × Int × List DupOutput) :
    Prop where
  noneDue : ∀ l, ∀ e ∈ r.1.entries l, 0 < e.dupCount →
    ¬ e.timeStart + r.1.dupInterval ≤ now l
  reported : ∀ l, ∀ e ∈ s.entries l, 0 < e.dupCount → e.timeStart + s.dupInterval ≤ now l →
    .writeDiscardEvent l (recAt s.buf e.recPtr).entry.logFacility
      (recAt s.buf e.recPtr).entry.logEventType e.dupCount (recAt s.buf e.recPtr) ∈ r.2.2
  kept : ∀ l, ∀ e ∈ s.entries l, 0 < e.dupCount → ¬ e.timeStart + s.dupInterval ≤ now l →
    e ∈ r.1.entries l
  zero_iff : r.2.1 = 0 ↔ ∀ l, ∀ e ∈ r.1.entries l, e.dupCount = 0
  first : r.2.1 ≠ 0 → 0 < r.2.1 ∧
    IsLeast (remaining r.1 .evlLog (now .evlLog) ∪ remaining r.1 .pvtLog (now .pvtLog)) r.2.1

/-! ## The loops -/

section Loops

variable (l : LogId) (due : DupBuffer → Bool)

def afterLoop (e : DupBuffer) : DupBuffer :=
  if 0 < e.dupCount ∧ due e then { e with recPtr := none, dupCount := 0, timeStart := 0 } else e

theorem discardLoop_entries (es : List DupBuffer) (buf : List EventBuffer) :
    (discardLoop l due buf es).1 = es.map (afterLoop due) := by
  induction es generalizing buf with
  | nil => rfl
  | cons e es ih =>
    rw [List.map_cons, afterLoop]
    by_cases hdue : 0 < e.dupCount ∧ due e
    · rw [discardLoop_cons_due l due hdue, if_pos hdue, ih]
    · rw [discardLoop_cons_keep l due hdue, if_neg hdue, ih]

theorem discardLoop_reports {es : List DupBuffer} {e : DupBuffer} (he : e ∈ es)
    (hdue : 0 < e.dupCount ∧ due e) (buf : List EventBuffer) :
    .writeDiscardEvent l (recAt buf e.recPtr).entry.logFacility
      (recAt buf e.recPtr).entry.logEventType e.dupCount (recAt buf e.recPtr)
      ∈ (discardLoop l due buf es).2.2.2 := by
  induction es generalizing buf with
  | nil => exact absurd he List.not_mem_nil
  | cons e' es ih =>
    by_cases hdue' : 0 < e'.dupCount ∧ due e'
    · rw [discardLoop_cons_due l due hdue']
      cases List.mem_cons.mp he with
      | inl heq => rw [heq]; exact List.mem_cons_self
      | inr he =>
        have hrest := ih he (setInUse buf e'.bufIndex false)
        simp only [recAt_setInUse] at hrest
        exact List.mem_cons_of_mem _ hrest
    · rw [discardLoop_cons_keep l due hdue']
      cases List.mem_cons.mp he with
      | inl heq => rw [heq] at hdue; exact absurd hdue hdue'
      | inr he => exact ih he buf

/-- What is pending after the loop was pending before and not due. -/
theorem pending_afterLoop {es : List DupBuffer} {e : DupBuffer} :
    e ∈ es.map (afterLoop due) ∧ 0 < e.dupCount ↔ e ∈ es ∧ 0 < e.dupCount ∧ ¬ due e := by
  constructor
  · intro h
    obtain ⟨e', he', heq⟩ := List.mem_map.mp h.1
    unfold afterLoop at heq
    by_cases hdue : 0 < e'.dupCount ∧ due e'
    · rw [if_pos hdue] at heq
      have hpos := h.2
      rw [← heq] at hpos
      exact absurd hpos (lt_irrefl 0)
    · rw [if_neg hdue] at heq
      rw [← heq] at h ⊢
      exact ⟨he', h.2, fun hd => hdue ⟨h.2, hd⟩⟩
  · intro h
    refine ⟨List.mem_map.mpr ⟨e, h.1, ?_⟩, h.2.1⟩
    rw [afterLoop, if_neg fun hdue => h.2.2 hdue.2]

def waits (s : DupState) (now : Int) (e : DupBuffer) : Bool :=
  decide (0 < e.dupCount ∧ ¬ timeoutOf s now e ≤ 0)

/-- `tv_sec` goes through the entries that wait. -/
theorem nextTimeout_eq (s : DupState) (now : Int) (es : List DupBuffer) (tvSec : Int) :
    nextTimeout s now es tvSec =
      ((es.filter (waits s now)).map (timeoutOf s now)).foldl earlier tvSec := by
  induction es generalizing tvSec with
  | nil => rfl
  | cons e es ih =>
    have hstep : nextTimeout s now (e :: es) tvSec = nextTimeout s now es
        (if 0 < e.dupCount ∧ ¬ timeoutOf s now e ≤ 0
            ∧ (tvSec = 0 ∨ tvSec > timeoutOf s now e)
          then timeoutOf s now e else tvSec) := rfl
    rw [hstep, ih]
    by_cases hwait : 0 < e.dupCount ∧ ¬ timeoutOf s now e ≤ 0
    · have hpos : waits s now e = true := decide_eq_true hwait
      rw [List.filter_cons_of_pos hpos, List.map_cons, List.foldl_cons, earlier]
      simp only [hwait.1, hwait.2, not_false_eq_true, true_and]
    · rw [List.filter_cons_of_neg (by simpa [waits] using hwait)]
      rw [if_neg fun h => hwait ⟨h.1, h.2.1⟩]

end Loops

/-! ## One log -/

/-- What `checkDupEventTimeoutForLog` does to its log, to the other one,
and to `tv_sec`. -/
structure LogInTime (s : DupState) (l : LogId) (now : Int) (r : DupState × Int × List DupOutput) :
    Prop where
  entries : ∀ e, e ∈ r.1.entries l ∧ 0 < e.dupCount ↔
    e ∈ s.entries l ∧ 0 < e.dupCount ∧ ¬ e.timeStart + s.dupInterval ≤ now
  reported : ∀ e ∈ s.entries l, 0 < e.dupCount → e.timeStart + s.dupInterval ≤ now →
    .writeDiscardEvent l (recAt s.buf e.recPtr).entry.logFacility
      (recAt s.buf e.recPtr).entry.logEventType e.dupCount (recAt s.buf e.recPtr) ∈ r.2.2
  other : ∀ l', l' ≠ l → r.1.linfo l' = s.linfo l'
  interval : r.1.dupInterval = s.dupInterval
  records : ∀ p, recAt r.1.buf p = recAt s.buf p

@[simp] theorem dupInterval_setLinfo (s : DupState) (l : LogId) (linfo : DupLog) :
    (s.setLinfo l linfo).dupInterval = s.dupInterval := by
  cases l <;> rfl

variable {s : DupState}

theorem timeoutOf_nonpos {now : Int} {e : DupBuffer} :
    timeoutOf s now e ≤ 0 ↔ e.timeStart + s.dupInterval ≤ now := by
  unfold timeoutOf
  omega

/-- Nothing is pending in a log whose entries count nothing. -/
theorem dupCount_of_countSum {es : List DupBuffer} (h : countSum es = 0) {e : DupBuffer}
    (he : e ∈ es) : e.dupCount = 0 := by
  have hle := dupCount_le_countSum he
  omega

variable {l : LogId}

theorem logInTime_idle (h : countSum (s.entries l) = 0) (now tvSec : Int) :
    LogInTime s l now (s, tvSec, []) where
  entries e := by
    constructor
    · intro he
      have h0 := dupCount_of_countSum h he.1
      have hpos := he.2
      omega
    · intro he
      exact ⟨he.1, he.2.1⟩
  reported e he hpos _ := by
    have h0 := dupCount_of_countSum h he
    omega
  other _ _ := rfl
  interval := rfl
  records _ := rfl

theorem checkDupEventTimeoutForLog_inTime (hcount : (s.linfo l).dupCount = countSum (s.entries l))
    (now tvSec : Int) : LogInTime s l now (checkDupEventTimeoutForLog s l now tvSec) := by
  unfold checkDupEventTimeoutForLog
  cases harr : (s.linfo l).dupRecsArray with
  | none =>
    have hes : s.entries l = [] := by rw [DupState.entries, harr]; rfl
    exact logInTime_idle (by rw [hes]; rfl) now tvSec
  | some es =>
    have hes : s.entries l = es := by rw [DupState.entries, harr]; rfl
    dsimp only
    split_ifs with hzero
    · exact logInTime_idle (hcount.symm.trans hzero) now tvSec
    · constructor
      · intro e
        rw [entries_setLinfo, discardLoop_entries, pending_afterLoop, hes, decide_eq_true_eq,
          timeoutOf_nonpos]
      · intro e he hpos hdue
        rw [hes] at he
        exact discardLoop_reports l _ he ⟨hpos, decide_eq_true (timeoutOf_nonpos.mpr hdue)⟩ s.buf
      · intro l' hl'
        rw [linfo_setLinfo_ne _ hl']
        cases l' <;> rfl
      · rw [dupInterval_setLinfo]
      · intro p
        rw [buf_setLinfo]
        exact recAt_discardLoop l _ es s.buf p

theorem LogInTime.remaining_eq {now : Int} {r : DupState × Int × List DupOutput}
    (h : LogInTime s l now r) :
    remaining r.1 l now =
      {t | ∃ e ∈ s.entries l, waits s now e = true ∧ timeoutOf s now e = t} := by
  ext t
  simp only [remaining, Set.mem_ofPred_eq, h.interval, waits, decide_eq_true_eq, timeoutOf_nonpos]
  constructor
  · intro ht
    obtain ⟨e, he, hpos, heq⟩ := ht
    obtain ⟨hmem, _, hwait⟩ := (h.entries e).mp ⟨he, hpos⟩
    exact ⟨e, hmem, ⟨hpos, hwait⟩, heq.symm⟩
  · intro ht
    obtain ⟨e, he, ⟨hpos, hwait⟩, heq⟩ := ht
    exact ⟨e, ((h.entries e).mpr ⟨he, hpos, hwait⟩).1, hpos, heq.symm⟩

theorem remaining_eq_empty {now : Int} :
    remaining s l now = ∅ ↔ ∀ e ∈ s.entries l, e.dupCount = 0 := by
  rw [Set.eq_empty_iff_forall_notMem]
  constructor
  · intro hnone e he
    by_contra hne
    exact hnone _ ⟨e, he, Nat.pos_of_ne_zero hne, rfl⟩
  · intro hnone t ht
    obtain ⟨e, he, hpos, _⟩ := ht
    have h0 := hnone e he
    omega

/-- `tv_sec` is handed round: the first of some times before the pass is
the first of those and the log's after it. -/
theorem checkDupEventTimeoutForLog_earliest (hcount : (s.linfo l).dupCount = countSum (s.entries l))
    (now : Int) {tvSec : Int} {S : Set Int} (h : Earliest S tvSec) :
    Earliest (S ∪ remaining (checkDupEventTimeoutForLog s l now tvSec).1 l now)
      (checkDupEventTimeoutForLog s l now tvSec).2.1 := by
  rw [(checkDupEventTimeoutForLog_inTime hcount now tvSec).remaining_eq]
  have hidle : countSum (s.entries l) = 0 →
      {t | ∃ e ∈ s.entries l, waits s now e = true ∧ timeoutOf s now e = t} = (∅ : Set Int) := by
    intro hzero
    refine Set.eq_empty_iff_forall_notMem.mpr ?_
    intro t ht
    obtain ⟨e, he, hwait, _⟩ := ht
    have hpos := (of_decide_eq_true hwait).1
    have h0 := dupCount_of_countSum hzero he
    omega
  unfold checkDupEventTimeoutForLog
  cases harr : (s.linfo l).dupRecsArray with
  | none =>
    have hes : s.entries l = [] := by rw [DupState.entries, harr]; rfl
    rw [hidle (by rw [hes]; rfl), Set.union_empty]
    exact h
  | some es =>
    have hes : s.entries l = es := by rw [DupState.entries, harr]; rfl
    dsimp only
    split_ifs with hzero
    · rw [hidle (hcount.symm.trans hzero), Set.union_empty]
      exact h
    · rw [nextTimeout_eq, hes]
      have hpos : ∀ t ∈ (es.filter (waits s now)).map (timeoutOf s now), 0 < t := by
        intro t ht
        obtain ⟨e, he, heq⟩ := List.mem_map.mp ht
        have hwait := (of_decide_eq_true (List.mem_filter.mp he).2).2
        omega
      simpa only [List.mem_map, List.mem_filter, and_assoc] using h.foldl _ hpos

/-! ## Both logs -/

theorem entries_of_linfo {s' : DupState} (h : s'.linfo l = s.linfo l) :
    s'.entries l = s.entries l := by
  rw [DupState.entries, h, DupState.entries]

theorem checkDupEventTimeout_cached (hcached : CountsCached s) (evlNow pvtNow : Int) :
    ReportedInTime s (readings evlNow pvtNow) (checkDupEventTimeout s evlNow pvtNow) := by
  have h1 := checkDupEventTimeoutForLog_inTime (hcached .evlLog) evlNow 0
  have ht1 := checkDupEventTimeoutForLog_earliest (hcached .evlLog) evlNow earliest_empty
  have hreturned : checkDupEventTimeout s evlNow pvtNow =
      (let r1 := checkDupEventTimeoutForLog s .evlLog evlNow 0
       let r2 := checkDupEventTimeoutForLog r1.1 .pvtLog pvtNow r1.2.1
       (r2.1, r2.2.1, r1.2.2 ++ r2.2.2)) := rfl
  rw [hreturned]
  revert h1 ht1
  generalize checkDupEventTimeoutForLog s .evlLog evlNow 0 = r1
  intro h1 ht1
  have hpvt := h1.other .pvtLog (by decide)
  have hpvtEntries := entries_of_linfo hpvt
  have hcount : (r1.1.linfo .pvtLog).dupCount = countSum (r1.1.entries .pvtLog) := by
    rw [hpvt, hpvtEntries]
    exact hcached .pvtLog
  have h2 := checkDupEventTimeoutForLog_inTime hcount pvtNow r1.2.1
  have ht2 := checkDupEventTimeoutForLog_earliest hcount pvtNow ht1
  revert h2 ht2
  dsimp only
  generalize checkDupEventTimeoutForLog r1.1 .pvtLog pvtNow r1.2.1 = r2
  intro h2 ht2
  have hevlEntries := entries_of_linfo (h2.other .evlLog (by decide))
  have hremaining : remaining r2.1 .evlLog evlNow = remaining r1.1 .evlLog evlNow := by
    rw [remaining, hevlEntries, h2.interval, remaining]
  rw [Set.empty_union, ← hremaining] at ht2
  -- each log's pending entries afterwards
  have hpending : ∀ l e, e ∈ r2.1.entries l ∧ 0 < e.dupCount ↔
      e ∈ s.entries l ∧ 0 < e.dupCount ∧ ¬ e.timeStart + s.dupInterval ≤ readings evlNow pvtNow l := by
    intro l e
    cases l with
    | evlLog => rw [hevlEntries]; exact h1.entries e
    | pvtLog => rw [h2.entries, hpvtEntries, h1.interval]; rfl
  constructor
  · intro l e he hpos
    rw [h2.interval, h1.interval]
    exact ((hpending l e).mp ⟨he, hpos⟩).2.2
  · intro l e he hpos hdue
    cases l with
    | evlLog => exact List.mem_append_left _ (h1.reported e he hpos hdue)
    | pvtLog =>
      rw [← hpvtEntries] at he
      rw [← h1.interval] at hdue
      have hout := h2.reported e he hpos hdue
      rw [h1.records] at hout
      exact List.mem_append_right _ hout
  · intro l e he hpos hwait
    exact ((hpending l e).mpr ⟨he, hpos, hwait⟩).1
  · rw [ht2.eq_zero_iff, Set.union_empty_iff, remaining_eq_empty, remaining_eq_empty]
    constructor
    · intro hnone l
      cases l with
      | evlLog => exact hnone.1
      | pvtLog => exact hnone.2
    · intro hnone
      exact ⟨hnone .evlLog, hnone .pvtLog⟩
  · intro hne
    exact ht2.isLeast hne

/-- Pending duplicates are reported in time, in every state in which
the cached counts are right, whatever the entries, and so in every state
that a run reaches. -/
theorem dups_reported_in_time : (∀ (s : DupState) (evlNow pvtNow : Int), CountsCached s →
      ReportedInTime s (readings evlNow pvtNow) (checkDupEventTimeout s evlNow pvtNow))
      ∧ ∀ (cfg : DupConfig) (actions : List DupAction) (evlNow pvtNow : Int),
        ReportedInTime (run dupRunStep (initDup cfg, []) actions).1 (readings evlNow pvtNow)
          (checkDupEventTimeout (run dupRunStep (initDup cfg, []) actions).1 evlNow pvtNow) := by
  constructor
  · intro s evlNow pvtNow hcached
    exact checkDupEventTimeout_cached hcached evlNow pvtNow
  · intro cfg actions evlNow pvtNow
    exact checkDupEventTimeout_cached (dupRun_inv cfg actions).count_eq evlNow pvtNow

end Evlog.Evlogd
