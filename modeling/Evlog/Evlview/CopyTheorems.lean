/-
Evlog.Evlview.CopyTheorems — what holds between two operations of evlview.

The invariant has three layers. `World` is about the log: its ids
increase, and what is still to be logged is newer. `Holds` is about what
has been copied, and is true at a point whatever happens to the log: the
records in the log that evlview has passed are copied, and they are told
by their ids, not by their place. `Stands` is about the read pointer and
counts only as long as the log has not been touched. A maintenance run
takes `Stands` away; `handleReadOrSeekFailure` brings it back from
`Holds`, by the results of Evlog.Evlview.RecoverTheorems.

Going forward, the records wanted are those with ids from `lo` on (`Goal`),
and those below `up` are all to be copied.
-/
import Evlog.Evlview.RecoverTheorems

namespace Evlog.Evlview

open Evlog.Lib Evlog.Posix

/-! ## The log -/

/-- Records are logged with new ids only, and only under `--new` does this
matter: in the other modes nothing is logged. -/
def Fresh (newFlag : Bool) : Int → List Change → Prop
  | _, [] => True
  | next, .maintain _ :: changes => Fresh newFlag next changes
  | next, .logged r :: changes =>
    newFlag = true ∧ next ≤ recid r ∧ Fresh newFlag (recid r + 1) changes

/-- `first` is the id of the first record that may be logged after the
start, `next` of the next one; `pending` is what is still to happen. -/
structure World (c : Config) (first next : Int) (pending : List Change) (v : View) : Prop where
  log : Increasing v.log
  below : ∀ r ∈ v.log, 0 ≤ recid r ∧ recid r < next
  fresh : Fresh c.mode.newFlag next pending
  first_nonneg : 0 ≤ first
  first_le : first ≤ next
  old : c.mode.newFlag = false → next = first
  last : v.lastRecordCopied < next

/-! ## Going forward -/

def Goal (c : Config) (first lo up : Int) (v : View) : Prop :=
  match c.mode with
  | .plain => lo = 0 ∧ up = first
  | .tail n =>
    up = lo ∧ Increasing v.tailLog ∧ (∀ r ∈ v.log, r ∈ v.tailLog) ∧
      (∀ r ∈ v.copied, r ∈ v.tailLog) ∧
      (v.tailLog.filter fun r => c.matches r && lo ≤ recid r).length ≤ n
  | .new => first ≤ lo ∧ up = first
  | .newRecid n => lo = min (n : Int) first ∧ up = first
  | _ => False

structure Copying (c : Config) (first lo up : Int) (v : View) : Prop where
  order : v.copied.Pairwise fun r r' => recid r < recid r'
  chosen : ∀ r ∈ v.copied, c.matches r = true ∧ lo ≤ recid r ∧ recid r ≤ v.lastRecordCopied
  none : v.lastRecordCopied = -1 ↔ v.copied = []
  done : ∀ r ∈ v.log, c.matches r = true → lo ≤ recid r → recid r < up →
    recid r ≤ v.lastRecordCopied → r ∈ v.copied
  goal : Goal c first lo up v

/-- The pointer is behind everything that was copied and before everything
that is still wanted. -/
structure AtForward (c : Config) (lo up : Int) (v : View) (pos : Nat) : Prop where
  ahead : ∀ r ∈ v.log.drop pos, lo ≤ recid r ∧ v.lastRecordCopied < recid r
  behind : ∀ r ∈ v.log.take pos, c.matches r = true → lo ≤ recid r → recid r < up →
    r ∈ v.copied

/-! ## Going backward -/

def later (c : Config) (log : List LogRecord) (r : LogRecord) : Nat :=
  (log.filter fun r' => c.matches r' && recid r < recid r').length

structure CopyingBack (c : Config) (v : View) : Prop where
  mode : c.mode.reverseFlag = true
  order : v.copied.Pairwise fun r r' => recid r' < recid r
  chosen : ∀ r ∈ v.copied, c.matches r = true ∧ v.lastRecordCopied ≤ recid r
  none : v.lastRecordCopied = -1 ↔ v.copied = []
  done : v.lastRecordCopied ≠ -1 → ∀ r ∈ v.log, c.matches r = true →
    v.lastRecordCopied ≤ recid r → r ∈ v.copied
  tail : ∀ n, c.mode.nTailRecs = some n → ∀ r ∈ v.copied, later c v.tailLog r < n

/-- Everything from the pointer on is copied, nothing before it is. -/
structure AtBackward (c : Config) (v : View) (pos : Nat) : Prop where
  ahead : ∀ r ∈ v.log.drop pos, c.matches r = true → r ∈ v.copied
  behind : ∀ r ∈ v.log.take pos, v.lastRecordCopied = -1 ∨ recid r < v.lastRecordCopied

/-- The record at the pointer is the next one to be copied. -/
structure AtMatch (c : Config) (v : View) (pos : Nat) (r : LogRecord) : Prop where
  here : v.log[pos]? = some r
  chosen : c.matches r = true
  next : v.lastRecordCopied = -1 ∨ recid r < v.lastRecordCopied
  ahead : ∀ r' ∈ v.log.drop (pos + 1), c.matches r' = true → r' ∈ v.copied
  tail : ∀ n, c.mode.nTailRecs = some n → later c v.tailLog r < n

/-! ## The invariant -/

def Counted (c : Config) (i copied : Nat) : Prop :=
  ∀ n, c.mode.nTailRecs = some n → copied = i ∧ i ≤ n

def Preparing (v : View) : Prop := v.copied = [] ∧ v.lastRecordCopied = -1

def Holds (c : Config) (first lo up : Int) (v : View) : Point → Prop
  | .seekToEnd => Preparing v ∧ c.mode ≠ .plain ∧ ∀ n, c.mode ≠ .newRecid n
  | .tailSeek i => Preparing v ∧ ∃ n, c.mode = .tail n ∧ 1 ≤ i ∧ i ≤ n
  | .oldTailSeek | .oldTailSkip => Preparing v ∧ ∃ n, c.mode = .newRecid n
  | .forwardSeek i | .forwardRead i =>
    Copying c first lo up v ∧ Counted c i (v.copied.length + 1)
  | .sleep =>
    Copying c first lo up v ∧ c.mode.newFlag = true ∧
      ∀ r ∈ v.log, c.matches r = true → lo ≤ recid r → recid r < up → r ∈ v.copied
  | .backwardSeek i | .backwardRead i =>
    CopyingBack c v ∧ Counted c i (v.copied.length + 1)
  | .backwardSkip i => CopyingBack c v ∧ v.copied ≠ [] ∧ Counted c i v.copied.length

/-- What is true of the pointer, as long as the log has not been touched. -/
def Stands (c : Config) (first lo up : Int) (v : View) (pos : Nat) : Point → Prop
  | .seekToEnd | .oldTailSeek => True
  | .tailSeek i => ((v.log.drop pos).filter c.matches).length < i
  | .oldTailSkip =>
    ∃ n, c.mode = .newRecid n ∧ ∃ r, v.log[pos]? = some r ∧ recid r < n ∧
      ∀ r' ∈ v.log.drop (pos + 1), min (n : Int) first ≤ recid r'
  | .forwardSeek _ | .sleep => AtForward c lo up v pos
  | .forwardRead _ =>
    AtForward c lo up v pos ∧
      (c.filter.isSome = true → ∃ r, v.log[pos]? = some r ∧ c.matches r = true)
  | .backwardSeek _ => AtBackward c v pos
  | .backwardRead _ => ∃ r, AtMatch c v pos r
  | .backwardSkip _ => ∃ j r, pos = j + 1 ∧ v.log[j]? = some r ∧ recid r = v.lastRecordCopied

def Recoverable : Point → Prop
  | .seekToEnd | .tailSeek _ | .sleep => False
  | _ => True

def PcInv (c : Config) (first lo up : Int) (s : State) : Pc → Prop
  | .at p => Holds c first lo up s.toView p ∧ (s.stale = false → Stands c first lo up s.toView s.pos p)
  | .failed ph p =>
    Holds c first lo up s.toView p ∧ Recoverable p ∧
      (ph ≠ .reopen → s.lastRecordCopied ≠ -1 ∧
        (p.resyncAction = .beforeLast ∨ p.resyncAction = .afterLast)) ∧
      (s.stale = false → Recovering c p.resyncAction s.log s.lastRecordCopied s.pos ph)

structure InvAt (c : Config) (first next lo up : Int) (pending : List Change) (s : State) :
    Prop where
  world : World c first next pending s.toView
  place : s.stale = false → s.pos ≤ s.log.length
  lo_le : lo ≤ next
  pc : PcInv c first lo up s s.pc

def Inv (c : Config) (first : Int) (s : State) : Prop :=
  ∃ next lo up, InvAt c first next lo up (s.script.flatMap Between.changes) s

/-! ## Changes of the log -/

section Changes

variable {c : Config} {first next lo up : Int} {v : View} {s : State} {p : Point} {r : LogRecord}
  {log : List LogRecord} {pos : Nat} {pending : List Change}

theorem not_copyingBack (hnew : c.mode.newFlag = true) : ¬ CopyingBack c v := by
  intro h
  have hmode := h.mode
  cases hm : c.mode <;> simp [hm, Mode.newFlag, Mode.reverseFlag] at hnew hmode

/-- What `--new` wants does not depend on the log. -/
theorem Goal.of_new (hnew : c.mode.newFlag = true) (h : Goal c first lo up v) (v' : View) :
    up = first ∧ Goal c first lo up v' := by
  unfold Goal at h ⊢
  split at h <;> simp_all [Mode.newFlag]

theorem Holds.of_subset (h : Holds c first lo up v p) (hsub : ∀ r ∈ log, r ∈ v.log) :
    Holds c first lo up { v with log } p := by
  have hcopying : Copying c first lo up v → Copying c first lo up { v with log } := by
    intro h
    refine ⟨h.order, h.chosen, h.none, fun r hr => h.done r (hsub r hr), ?_⟩
    have hgoal := h.goal
    unfold Goal at hgoal ⊢
    split at hgoal
    · exact hgoal
    · exact ⟨hgoal.1, hgoal.2.1, fun r hr => hgoal.2.2.1 r (hsub r hr), hgoal.2.2.2⟩
    · exact hgoal
    · exact hgoal
    · exact hgoal
  have hback : CopyingBack c v → CopyingBack c { v with log } := fun h =>
    ⟨h.mode, h.order, h.chosen, h.none, fun hlast r hr => h.done hlast r (hsub r hr), h.tail⟩
  cases p with
  | seekToEnd => exact h
  | backwardSeek i => exact ⟨hback h.1, h.2⟩
  | backwardRead i => exact ⟨hback h.1, h.2⟩
  | backwardSkip i => exact ⟨hback h.1, h.2⟩
  | tailSeek i => exact h
  | oldTailSeek => exact h
  | oldTailSkip => exact h
  | forwardSeek i => exact ⟨hcopying h.1, h.2⟩
  | forwardRead i => exact ⟨hcopying h.1, h.2⟩
  | sleep => exact ⟨hcopying h.1, h.2.1, fun r hr => h.2.2 r (hsub r hr)⟩

theorem Holds.of_logged (hworld : World c first next (.logged r :: pending) v)
    (h : Holds c first lo up v p) : Holds c first lo up { v with log := v.log ++ [r] } p := by
  obtain ⟨hnew, hr, -⟩ := hworld.fresh
  have hlast := hworld.last
  have hfirst := hworld.first_le
  have hcopying : Copying c first lo up v → Copying c first lo up { v with log := v.log ++ [r] } := by
    intro h
    refine ⟨h.order, h.chosen, h.none, ?_, (h.goal.of_new hnew _).2⟩
    intro r' hr' hmatch hlo hup hle
    rcases List.mem_append.1 hr' with hold | hr'
    · exact h.done r' hold hmatch hlo hup hle
    · obtain rfl := List.mem_singleton.1 hr'
      change recid r' ≤ v.lastRecordCopied at hle
      omega
  cases p with
  | seekToEnd => exact h
  | backwardSeek i => exact absurd h.1 (not_copyingBack hnew)
  | backwardRead i => exact absurd h.1 (not_copyingBack hnew)
  | backwardSkip i => exact absurd h.1 (not_copyingBack hnew)
  | tailSeek i => exact h
  | oldTailSeek => exact h
  | oldTailSkip => exact h
  | forwardSeek i => exact ⟨hcopying h.1, h.2⟩
  | forwardRead i => exact ⟨hcopying h.1, h.2⟩
  | sleep =>
    refine ⟨hcopying h.1, h.2.1, ?_⟩
    intro r' hr' hmatch hlo hup
    rcases List.mem_append.1 hr' with hold | hr'
    · exact h.2.2 r' hold hmatch hlo hup
    · obtain rfl := List.mem_singleton.1 hr'
      have hupfirst := (h.1.goal.of_new hnew v).1
      omega

theorem mem_drop_logged (hpos : pos ≤ log.length) {r' : LogRecord}
    (h : r' ∈ (log ++ [r]).drop pos) : r' ∈ log.drop pos ∨ r' = r := by
  rw [List.drop_append_of_le_length hpos, List.mem_append, List.mem_singleton] at h
  exact h

theorem getElem?_logged {r' : LogRecord} (h : log[pos]? = some r') : (log ++ [r])[pos]? = some r' := by
  rw [List.getElem?_append_left (lt_length_of_getElem? h), h]

theorem Stands.of_logged (hworld : World c first next (.logged r :: pending) v) (hlo : lo ≤ next)
    (hpos : pos ≤ v.log.length) (hp : Holds c first lo up v p) (h : Stands c first lo up v pos p) :
    Stands c first lo up { v with log := v.log ++ [r] } pos p := by
  obtain ⟨hnew, hr, -⟩ := hworld.fresh
  have hforward : AtForward c lo up v pos → AtForward c lo up { v with log := v.log ++ [r] } pos := by
    intro h
    refine ⟨fun r' hr' => ?_, fun r' hr' => h.behind r' ?_⟩
    · rcases mem_drop_logged hpos hr' with hold | rfl
      · exact h.ahead r' hold
      · exact ⟨hlo.trans hr, hworld.last.trans_le hr⟩
    · rwa [List.take_append_of_le_length hpos] at hr'
  cases p with
  | seekToEnd => trivial
  | backwardSeek i => exact absurd hp.1 (not_copyingBack hnew)
  | backwardRead i => exact absurd hp.1 (not_copyingBack hnew)
  | backwardSkip i => exact absurd hp.1 (not_copyingBack hnew)
  | tailSeek i =>
    obtain ⟨-, n, hm, -⟩ := hp
    simp [hm, Mode.newFlag] at hnew
  | oldTailSeek => trivial
  | oldTailSkip =>
    obtain ⟨n, hmode, r', hr', hlt, hahead⟩ := h
    refine ⟨n, hmode, r', getElem?_logged hr', hlt, fun r'' hr'' => ?_⟩
    rcases mem_drop_logged (lt_length_of_getElem? hr') hr'' with hold | rfl
    · exact hahead r'' hold
    · exact (min_le_right _ _).trans (hworld.first_le.trans hr)
  | forwardSeek i => exact hforward h
  | forwardRead i =>
    refine ⟨hforward h.1, fun hfilter => ?_⟩
    obtain ⟨r', hr', hmatch⟩ := h.2 hfilter
    exact ⟨r', getElem?_logged hr', hmatch⟩
  | sleep => exact hforward h

theorem Recovering.of_logged (hworld : World c first next (.logged r :: pending) v)
    {action : ResyncAction} {ph : Phase}
    (h : Recovering c action v.log v.lastRecordCopied pos ph) :
    Recovering c action (v.log ++ [r]) v.lastRecordCopied pos ph := by
  obtain ⟨hnew, hr, -⟩ := hworld.fresh
  have hlast := hworld.last.trans_le hr
  have hdir : fromEnd c = true := by simp [fromEnd, hnew]
  cases ph with
  | reopen => trivial
  | resync => trivial
  | noent =>
    simp only [Recovering, hdir, if_true] at h ⊢
    intro r' hr'
    rcases List.mem_append.1 hr' with hold | hr'
    · exact h r' hold
    · obtain rfl := List.mem_singleton.1 hr'
      exact hlast
  | read =>
    obtain ⟨r', hr', hle, hahead⟩ := h
    refine ⟨r', getElem?_logged hr', hle, fun r'' hr'' => ?_⟩
    rcases mem_drop_logged (lt_length_of_getElem? hr') hr'' with hold | rfl
    · exact hahead r'' hold
    · exact hlast
  | back =>
    obtain ⟨haction, j, r', hpos, hr', heq⟩ := h
    exact ⟨haction, j, r', hpos, getElem?_logged hr', heq⟩

theorem World.logged (h : World c first next (.logged r :: pending) v) :
    World c first (recid r + 1) pending { v with log := v.log ++ [r] } := by
  obtain ⟨hnew, hr, hfresh⟩ := h.fresh
  have hfirst := h.first_le
  have hlast := h.last
  refine ⟨?_, ?_, hfresh, h.first_nonneg, by omega, by simp [hnew], ?_⟩
  · refine List.pairwise_append.2 ⟨h.log, List.pairwise_singleton _ _, fun r' hr' r'' hr'' => ?_⟩
    obtain rfl := List.mem_singleton.1 hr''
    exact (h.below r' hr').2.trans_le hr
  · intro r' hr'
    have := h.first_nonneg
    rcases List.mem_append.1 hr' with hold | hr'
    · have := h.below r' hold
      omega
    · obtain rfl := List.mem_singleton.1 hr'
      omega
  · change v.lastRecordCopied < _
    omega

theorem World.maintain {keep : LogRecord → Bool}
    (h : World c first next (.maintain keep :: pending) v) :
    World c first next pending { v with log := v.log.filter keep } :=
  ⟨h.log.filter keep, fun r hr => h.below r (List.mem_of_mem_filter hr), h.fresh, h.first_nonneg,
    h.first_le, h.old, h.last⟩

theorem InvAt.change {ch : Change} (h : InvAt c first next lo up (ch :: pending) s) :
    ∃ next, InvAt c first next lo up pending (s.change ch) := by
  obtain ⟨hworld, hplace, hlo, hpc⟩ := h
  cases ch with
  | maintain keep =>
    have hsub : ∀ r ∈ s.log.filter keep, r ∈ s.log := fun r hr => List.mem_of_mem_filter hr
    refine ⟨next, hworld.maintain, nofun, hlo, ?_⟩
    change PcInv c first lo up { s with log := s.log.filter keep, stale := true } s.pc
    generalize s.pc = pc at hpc ⊢
    cases pc with
    | «at» p => exact ⟨hpc.1.of_subset hsub, nofun⟩
    | failed ph p => exact ⟨hpc.1.of_subset hsub, hpc.2.1, hpc.2.2.1, nofun⟩
  | logged r =>
    obtain ⟨hnew, hr, -⟩ := hworld.fresh
    refine ⟨recid r + 1, hworld.logged, fun hstale => ?_, by omega, ?_⟩
    · have := hplace hstale
      change s.pos ≤ (s.log ++ [r]).length
      simp
      omega
    change PcInv c first lo up { s with log := s.log ++ [r] } s.pc
    generalize s.pc = pc at hpc ⊢
    cases pc with
    | «at» p =>
      exact ⟨hpc.1.of_logged hworld, fun hstale =>
        (hpc.2 hstale).of_logged hworld hlo (hplace hstale) hpc.1⟩
    | failed ph p =>
      exact ⟨hpc.1.of_logged hworld, hpc.2.1, hpc.2.2.1, fun hstale =>
        (hpc.2.2.2 hstale).of_logged hworld⟩

theorem InvAt.changes {changes : List Change}
    (h : InvAt c first next lo up (changes ++ pending) s) :
    ∃ next, InvAt c first next lo up pending (changes.foldl State.change s) := by
  induction changes generalizing next s with
  | nil => exact ⟨next, h⟩
  | cons ch changes ih =>
    obtain ⟨next', h'⟩ := h.change
    exact ih h'

theorem foldl_change_frame (changes : List Change) (s : State) :
    (changes.foldl State.change s).pc = s.pc ∧ (changes.foldl State.change s).script = s.script := by
  induction changes generalizing s with
  | nil => exact ⟨rfl, rfl⟩
  | cons ch changes ih => cases ch <;> exact ih _

theorem disturb_pc (s : State) : s.disturb.pc = s.pc := by
  unfold State.disturb
  split
  · rfl
  · exact (foldl_change_frame _ _).1

theorem disturb_script (s : State) : s.disturb.script = s.script.tail := by
  unfold State.disturb
  split
  · rename_i h
    simp [h]
  · rename_i b script h
    rw [(foldl_change_frame b.changes _).2, h]
    rfl

theorem step_at (hs : s.pc = .at p) (hsleep : p ≠ .sleep) :
    step c s = if s.disturb.stale then .inl { s.disturb with pc := .failed .reopen p }
      else operate c s.disturb p := by
  cases p <;> simp [step, hs] at hsleep ⊢

/-- A step that is an operation of `handleReadOrSeekFailure`. -/
theorem step_failed {ph : Phase} (hs : s.pc = .failed ph p) (hph : ph ≠ .reopen) :
    step c s = if s.disturb.stale then .inl { s.disturb with pc := .failed .reopen p }
      else recover c s.disturb p ph := by
  cases ph <;> simp [step, hs] at hph ⊢

/-- What happens between two operations leaves the invariant as it is. -/
theorem Inv.disturb (h : Inv c first s) : Inv c first s.disturb := by
  obtain ⟨next, lo, up, h⟩ := h
  have hscript := disturb_script s
  unfold State.disturb at hscript ⊢
  split
  · exact ⟨next, lo, up, h⟩
  · rename_i b script hs
    simp only [hs, List.tail_cons] at hscript
    rw [hs, List.flatMap_cons] at h
    have hs' : InvAt c first next lo up (b.changes ++ script.flatMap Between.changes)
        { s with script } := ⟨h.world, h.place, h.lo_le, h.pc⟩
    obtain ⟨next', h'⟩ := hs'.changes
    refine ⟨next', lo, up, ?_⟩
    rw [hscript]
    exact h'

end Changes

end Evlog.Evlview
