/-
Evlog.Evlview.StepTheorems — every operation of evlview keeps the
invariant.

One theorem for each function of the program: `seekToEnd`,
`prepareToTailForward`, `copyOldTail`, `copyForward`, `copyBackward`, and
`resume` for the way back from `handleReadOrSeekFailure`. Each says of the
operations of its function that they lead to a state in which the
invariant holds again, or that the program ends as it should (`Ok`).
-/
import Evlog.Evlview.CopyTheorems

namespace Evlog.Evlview

open Evlog.Lib Evlog.Posix

/-! ## What evlview is for -/

/-- What may be said of the records copied at any time. `log₀` is the log
at the start. -/
structure Safe (c : Config) (log₀ : List LogRecord) (v : View) : Prop where
  /-- The ids decrease with `--reverse` and increase without. -/
  order : if c.mode.reverseFlag then v.copied.Pairwise fun r r' => recid r' < recid r
    else v.copied.Pairwise fun r r' => recid r < recid r'
  once : v.copied.Nodup
  filter : ∀ r ∈ v.copied, c.matches r = true
  tail : ∀ n, c.mode.nTailRecs = some n →
    v.copied.length ≤ n ∧ ∀ r ∈ v.copied, later c v.tailLog r < n
  new : c.mode = .new → ∀ r ∈ v.copied, ∀ r₀ ∈ log₀, recid r₀ < recid r
  newRecid : ∀ n, c.mode = .newRecid n →
    ∀ r ∈ v.copied, n ≤ recid r ∨ ∀ r₀ ∈ log₀, recid r₀ < recid r

/-- What has been copied in the end, of the records that are still there. -/
def Complete (c : Config) (log₀ : List LogRecord) (v : View) : Prop :=
  match c.mode with
  | .plain | .reverse => ∀ r ∈ v.log, c.matches r = true → r ∈ v.copied
  | .newRecid n =>
    ∀ r ∈ log₀, r ∈ v.log → c.matches r = true → n ≤ recid r → r ∈ v.copied
  | _ => True

section Step

variable {c : Config} {first next lo up : Int} {log₀ : List LogRecord} {v : View} {s : State}
  {p : Point} {i : Nat}

def Ok (c : Config) (first : Int) (log₀ : List LogRecord) : State ⊕ State → Prop
  | .inl s => Inv c first s
  | .inr s => Safe c log₀ s.toView ∧ Complete c log₀ s.toView

/-! ## Counting -/

section Counting

variable {log copied : List LogRecord} {r : LogRecord}

theorem later_lt (hmem : r ∈ log) (hmatch : c.matches r = true) (hlo : lo ≤ recid r) :
    later c log r < (log.filter fun r' => c.matches r' && lo ≤ recid r').length := by
  obtain ⟨before, after, rfl⟩ := List.append_of_mem hmem
  have hmono : ∀ l : List LogRecord,
      (l.filter fun r' => c.matches r' && recid r < recid r').length ≤
        (l.filter fun r' => c.matches r' && lo ≤ recid r').length := by
    intro l
    rw [← List.countP_eq_length_filter, ← List.countP_eq_length_filter]
    refine List.countP_mono_left fun r' _ h => ?_
    simp only [Bool.and_eq_true, decide_eq_true_eq] at h ⊢
    exact ⟨h.1, by omega⟩
  have hbefore := hmono before
  have hafter := hmono after
  simp only [later, List.filter_append, List.filter_cons, hmatch, hlo, lt_irrefl, decide_false,
    decide_true, Bool.and_false, Bool.and_true, Bool.false_eq_true, if_false, if_true,
    List.length_append, List.length_cons]
  omega

/-- No more records come after a record than have been copied, if they all
have been. -/
theorem later_le (hlog : Increasing log)
    (h : ∀ r' ∈ log, c.matches r' = true → recid r < recid r' → r' ∈ copied) :
    later c log r ≤ copied.length := by
  have hnodup : log.Nodup := hlog.imp fun hlt heq => by simp [heq] at hlt
  refine (List.Nodup.subperm (hnodup.filter _) ?_).length_le
  intro r' hr'
  simp only [List.mem_filter, Bool.and_eq_true, decide_eq_true_eq] at hr'
  exact h r' hr'.1 hr'.2.1 hr'.2.2

theorem later_lt_copied (hlog : Increasing log) (hr : r ∈ copied)
    (h : ∀ r' ∈ log, c.matches r' = true → recid r < recid r' → r' ∈ copied) :
    later c log r < copied.length := by
  obtain ⟨before, after, rfl⟩ := List.append_of_mem hr
  have hle := @later_le c log (before ++ after) r hlog (by
    intro r' hr' hmatch hlt
    have hmem := h r' hr' hmatch hlt
    simp only [List.mem_append, List.mem_cons] at hmem ⊢
    rcases hmem with hmem | rfl | hmem
    · exact .inl hmem
    · exact absurd hlt (lt_irrefl _)
    · exact .inr hmem)
  simp only [List.length_append, List.length_cons] at hle ⊢
  omega

end Counting

/-- The loop goes on when the count has not been reached. -/
theorem goesOn_iff : goesOn c i = true ↔ ∀ n, c.mode.nTailRecs = some n → i ≤ n := by
  cases hn : c.mode.nTailRecs with
  | none => simp [goesOn, hn]
  | some n => simp [goesOn, hn]

variable {pending : List Change} {r : LogRecord}

theorem recid_ne_neg (hworld : World c first next pending v) (hr : r ∈ v.log) : recid r ≠ -1 := by
  have := (hworld.below r hr).1
  omega

theorem World.copied (hworld : World c first next pending s.toView) (hr : r ∈ s.log) :
    World c first next pending (s.copyRecord r).toView :=
  ⟨hworld.log, hworld.below, hworld.fresh, hworld.first_nonneg, hworld.first_le, hworld.old,
    (hworld.below r hr).2⟩

theorem World.located (hworld : World c first next pending v) (log : List LogRecord) :
    World c first next pending { v with tailLog := log } :=
  ⟨hworld.log, hworld.below, hworld.fresh, hworld.first_nonneg, hworld.first_le, hworld.old,
    hworld.last⟩

/-! ## From the invariant to the property -/

theorem Copying.safe (h : Copying c first lo up v) (hfirst : ∀ r ∈ log₀, recid r < first)
    (hcount : ∀ n, c.mode.nTailRecs = some n → v.copied.length ≤ n) : Safe c log₀ v := by
  have hgoal := h.goal
  unfold Goal at hgoal
  refine ⟨?_, h.order.imp fun hlt heq => (heq ▸ hlt).ne rfl, fun r hr => (h.chosen r hr).1,
    fun n hn => ⟨hcount n hn, ?_⟩, ?_, ?_⟩
  · cases hm : c.mode <;> simp only [hm] at hgoal <;> simp [Mode.reverseFlag, h.order]
  · intro r hr
    cases hm : c.mode <;> simp only [hm] at hgoal hn <;> simp only [Mode.nTailRecs, reduceCtorEq] at hn
    obtain ⟨-, -, -, hmem, hlen⟩ := hgoal
    obtain rfl := Option.some.inj hn
    exact (later_lt (hmem r hr) (h.chosen r hr).1 (h.chosen r hr).2.1).trans_le hlen
  · intro hm r hr r₀ hr₀
    simp only [hm] at hgoal
    have := hfirst r₀ hr₀
    have := (h.chosen r hr).2.1
    omega
  · intro n hm r hr
    simp only [hm] at hgoal
    have hlo := (h.chosen r hr).2.1
    by_cases hn : (n : Int) ≤ recid r
    · exact .inl hn
    · right
      intro r₀ hr₀
      have := hfirst r₀ hr₀
      omega

theorem CopyingBack.safe (h : CopyingBack c v)
    (hcount : ∀ n, c.mode.nTailRecs = some n → v.copied.length ≤ n) : Safe c log₀ v := by
  have hmode := h.mode
  refine ⟨by simp [hmode, h.order], h.order.imp fun hlt heq => (heq ▸ hlt).ne rfl,
    fun r hr => (h.chosen r hr).1, fun n hn => ⟨hcount n hn, h.tail n hn⟩, ?_, ?_⟩
  · intro hm
    simp [hm, Mode.reverseFlag] at hmode
  · intro n hm
    simp [hm, Mode.reverseFlag] at hmode

theorem Preparing.safe (h : Preparing v) : Safe c log₀ v := by
  have hnil := h.1
  refine ⟨?_, ?_, ?_, ?_, ?_, ?_⟩ <;> simp [hnil]

theorem Holds.safe (h : Holds c first lo up v p) (hfirst : ∀ r ∈ log₀, recid r < first) :
    Safe c log₀ v := by
  cases p with
  | seekToEnd => exact h.1.safe
  | tailSeek i => exact h.1.safe
  | oldTailSeek => exact h.1.safe
  | oldTailSkip => exact h.1.safe
  | backwardSeek i => exact h.1.safe fun n hn => by have := h.2 n hn; omega
  | backwardRead i => exact h.1.safe fun n hn => by have := h.2 n hn; omega
  | backwardSkip i => exact h.1.safe fun n hn => by have := h.2.2 n hn; omega
  | forwardSeek i => exact h.1.safe hfirst fun n hn => by have := h.2 n hn; omega
  | forwardRead i => exact h.1.safe hfirst fun n hn => by have := h.2 n hn; omega
  | sleep =>
    refine h.1.safe hfirst fun n hn => ?_
    have hnew := h.2.1
    cases hm : c.mode <;> simp [hm, Mode.newFlag, Mode.nTailRecs] at hnew hn

/-! ## Going on -/

/-- The log has not been touched, and the pointer is in it. -/
structure Here (c : Config) (first next : Int) (s : State) : Prop where
  world : World c first next (s.script.flatMap Between.changes) s.toView
  stale : s.stale = false
  place : s.pos ≤ s.log.length

theorem goto_ok (h : Here c first next s) (lo up : Int) (hlo : lo ≤ next)
    (hholds : Holds c first lo up s.toView p) (hstands : Stands c first lo up s.toView s.pos p) :
    Ok c first log₀ (s.goto p) :=
  ⟨next, lo, up, h.world, fun _ => h.place, hlo, hholds, fun _ => hstands⟩

/-- `copyForward` goes on, or begins. -/
theorem copyForward_ok (h : Here c first next s) (hlo : lo ≤ next)
    (hcopying : Copying c first lo up s.toView) (hcount : Counted c i (s.copied.length + 1))
    (hat : AtForward c lo up s.toView s.pos) : Ok c first log₀ (s.goto (copyForward c i)) := by
  rw [copyForward]
  split
  · exact goto_ok h lo up hlo ⟨hcopying, hcount⟩ hat
  · rename_i hfilter
    exact goto_ok h lo up hlo ⟨hcopying, hcount⟩ ⟨hat, fun hsome => absurd hsome hfilter⟩

/-- `copyForward` has come to the end of the log. -/
theorem copiedForward_ok (h : Here c first next s) (hlo : lo ≤ next)
    (hfirst : ∀ r ∈ log₀, recid r < first) (hcopying : Copying c first lo up s.toView)
    (hcount : ∀ n, c.mode.nTailRecs = some n → s.copied.length ≤ n)
    (hat : AtForward c lo up s.toView s.pos)
    (hahead : ∀ r ∈ s.log.drop s.pos, c.matches r = false) :
    Ok c first log₀ (s.copiedForward c) := by
  have hall : ∀ r ∈ s.log, c.matches r = true → lo ≤ recid r → recid r < up → r ∈ s.copied := by
    intro r hr hmatch
    rw [← List.take_append_drop s.pos s.log, List.mem_append] at hr
    rcases hr with hr | hr
    · exact hat.behind r hr hmatch
    · rw [hahead r hr] at hmatch
      cases hmatch
  rw [State.copiedForward]
  split
  · rename_i hnew
    exact goto_ok h lo up hlo ⟨hcopying, hnew, hall⟩ hat
  · rename_i hnew
    refine ⟨hcopying.safe hfirst hcount, ?_⟩
    have hgoal := hcopying.goal
    have hold := h.world.old (by simpa using hnew)
    unfold Goal at hgoal
    unfold Complete
    cases hm : c.mode <;> simp only [hm, Mode.newFlag, not_true_eq_false] at hgoal hnew ⊢
    · -- without a tail and without --new every record is wanted
      intro r hr hmatch
      obtain ⟨rfl, rfl⟩ := hgoal
      have hbelow := h.world.below r hr
      exact hall r hr hmatch hbelow.1 (by omega)

/-- The next turn of `copyBackward`. -/
theorem nextBackward_ok (h : Here c first next s) (hcopying : CopyingBack c s.toView)
    (hcount : ∀ n, c.mode.nTailRecs = some n → s.copied.length + 1 = i ∧ s.copied.length ≤ n)
    (hat : AtBackward c s.toView s.pos) : Ok c first log₀ (s.nextBackward c i) := by
  rw [State.nextBackward]
  split
  · rename_i hgo
    exact goto_ok h next next le_rfl ⟨hcopying, fun n hn => ⟨(hcount n hn).1, goesOn_iff.1 hgo n hn⟩⟩ hat
  · rename_i hgo
    refine ⟨hcopying.safe fun n hn => (hcount n hn).2, ?_⟩
    have hmode := hcopying.mode
    rw [goesOn_iff] at hgo
    unfold Complete
    cases hm : c.mode <;> simp [hm, Mode.reverseFlag, Mode.nTailRecs] at hmode hgo ⊢

/-! ## `seekToEnd` -/

theorem copying_nil (h : Preparing v) (hgoal : Goal c first lo up v)
    (hbelow : ∀ r ∈ v.log, 0 ≤ recid r ∧ recid r < next) : Copying c first lo up v := by
  obtain ⟨hnil, hlast⟩ := h
  refine ⟨by simp [hnil], by simp [hnil], by simp [hnil, hlast], ?_, hgoal⟩
  intro r hr _ _ _ hle
  have := (hbelow r hr).1
  rw [hlast] at hle
  omega

theorem copyingBack_nil (h : Preparing v) (hmode : c.mode.reverseFlag = true) : CopyingBack c v := by
  obtain ⟨hnil, hlast⟩ := h
  exact ⟨hmode, by simp [hnil], by simp [hnil], by simp [hnil, hlast], fun hne => absurd hlast hne,
    by simp [hnil]⟩

theorem seekToEnd_ok (h : Here c first next s) (hholds : Holds c first lo up s.toView .seekToEnd) :
    Ok c first log₀ (operate c s .seekToEnd) := by
  obtain ⟨hprep, hplain, hrecid⟩ := hholds
  have hend : Here c first next { s with pos := s.log.length } := ⟨h.world, h.stale, le_rfl⟩
  have hnonneg := h.world.first_nonneg
  have hfirst := h.world.first_le
  have hone : Counted c 1 (s.copied.length + 1) := by
    intro n hn
    refine ⟨by simp [hprep.1], ?_⟩
    cases hm : c.mode <;> simp only [hm, Mode.nTailRecs, Option.some.injEq, reduceCtorEq] at hn <;>
      subst hn <;> exact PNat.pos _
  simp only [operate, logSeek, afterSeekToEnd]
  cases hm : c.mode with
  | plain => exact absurd hm hplain
  | newRecid n => exact absurd hm (hrecid n)
  | tail n =>
    refine goto_ok hend next next le_rfl ⟨hprep, n, hm, le_rfl, n.pos⟩ ?_
    simp [Stands]
  | new =>
    have hgoal : Goal c first next first s.toView := by simp [Goal, hm, hfirst]
    refine goto_ok hend next first le_rfl
      ⟨copying_nil hprep hgoal h.world.below, by simp [hm, Mode.newFlag], ?_⟩ ⟨by simp, ?_⟩
    · intro r hr _ hle
      have := h.world.below r hr
      omega
    · intro r hr _ hle
      have := h.world.below r (List.mem_of_mem_take hr)
      omega
  | reverse =>
    refine goto_ok hend next next le_rfl
      ⟨copyingBack_nil hprep (by simp [hm, Mode.reverseFlag]), hone⟩ ⟨by simp, fun _ _ => .inl hprep.2⟩
  | reverseTail n =>
    refine goto_ok hend next next le_rfl
      ⟨copyingBack_nil hprep (by simp [hm, Mode.reverseFlag]), hone⟩ ⟨by simp, fun _ _ => .inl hprep.2⟩

/-! ## `copyBackward` -/

theorem backwardSeek_ok (h : Here c first next s)
    (hholds : Holds c first lo up s.toView (.backwardSeek i))
    (hstands : Stands c first lo up s.toView s.pos (.backwardSeek i)) :
    Ok c first log₀ (operate c s (.backwardSeek i)) := by
  obtain ⟨hcopying, hcount⟩ := hholds
  simp only [operate, logSeek]
  cases hprev : Cursor.prevIndex (LogRecord.matches c.filter) s.log s.pos with
  | none =>
    refine ⟨hcopying.safe fun n hn => by have := hcount n hn; omega, ?_⟩
    have hall : ∀ r ∈ s.log, c.matches r = true → r ∈ s.copied := by
      intro r hr hmatch
      rw [← List.take_append_drop s.pos s.log, List.mem_append] at hr
      rcases hr with hr | hr
      · rw [Config.matches, Cursor.prevIndex_eq_none hprev r hr] at hmatch
        cases hmatch
      · exact hstands.ahead r hr hmatch
    have hmode := hcopying.mode
    unfold Complete
    cases hm : c.mode <;> simp only [hm, Mode.reverseFlag, Bool.false_eq_true] at hmode ⊢
    exact hall
  | some j =>
    obtain ⟨hlt, ⟨r, hr, hmatch⟩, hpassed⟩ := Cursor.prevIndex_eq_some hprev
    have hnext : s.lastRecordCopied = -1 ∨ recid r < s.lastRecordCopied :=
      hstands.behind r (Cursor.mem_of_mem_take hlt (Cursor.mem_take_succ.2 (.inr hr)))
    have hahead : ∀ r' ∈ s.log.drop (j + 1), c.matches r' = true → r' ∈ s.copied := by
      intro r' hr' hmatch'
      rcases hpassed r' hr' with hr' | hpass
      · exact hstands.ahead r' hr' hmatch'
      · rw [Config.matches, hpass] at hmatch'
        cases hmatch'
    have hlog := h.world.log
    refine goto_ok ⟨h.world.located s.log, h.stale, (lt_length_of_getElem? hr).le⟩ next next le_rfl
      ⟨⟨hcopying.mode, hcopying.order, hcopying.chosen, hcopying.none, hcopying.done, ?_⟩, hcount⟩
      ⟨r, hr, hmatch, hnext, hahead, ?_⟩
    · -- of the log as it is now, what comes after a record copied has been copied
      intro n hn r' hr'
      have hne : s.lastRecordCopied ≠ -1 := fun hnil =>
        absurd (hcopying.none.1 hnil) (List.ne_nil_of_mem hr')
      have hle := (hcopying.chosen r' hr').2
      have hlater : later c s.log r' < s.copied.length :=
        later_lt_copied hlog hr' fun r'' hr'' hmatch'' hlt'' =>
          hcopying.done hne r'' hr'' hmatch'' (hle.trans hlt''.le)
      have := hcount n hn
      change later c s.log r' < n
      omega
    · intro n hn
      have hlater : later c s.log r ≤ s.copied.length := by
        refine later_le hlog fun r' hr' hmatch' hlt' => ?_
        rw [← List.take_append_drop (j + 1) s.log, List.mem_append] at hr'
        rcases hr' with hbefore | hafter
        · have := recid_le_of_mem_take hlog hr r' hbefore
          omega
        · exact hahead r' hafter hmatch'
      have := hcount n hn
      change later c s.log r < n
      omega

theorem backwardRead_ok (h : Here c first next s)
    (hholds : Holds c first lo up s.toView (.backwardRead i))
    (hstands : Stands c first lo up s.toView s.pos (.backwardRead i)) :
    Ok c first log₀ (operate c s (.backwardRead i)) := by
  obtain ⟨hcopying, hcount⟩ := hholds
  obtain ⟨r, hr, hmatch, hnext, hahead, htail⟩ := hstands
  have hmem : r ∈ s.log := List.mem_of_getElem? hr
  -- the record comes before all that were copied
  have hbefore : ∀ r' ∈ s.copied, recid r < recid r' := by
    intro r' hr'
    rcases hnext with hnil | hlt
    · exact absurd (hcopying.none.1 hnil) (List.ne_nil_of_mem hr')
    · exact hlt.trans_le (hcopying.chosen r' hr').2
  have hdone : ∀ r' ∈ s.log, c.matches r' = true → recid r ≤ recid r' → r' ∈ s.copied ++ [r] := by
    intro r' hr' hmatch' hle
    rw [← List.take_append_drop s.pos s.log, List.mem_append, Cursor.mem_drop] at hr'
    rw [List.mem_append, List.mem_singleton]
    rcases hr' with hbehind | hget | hafter
    · have := (Cursor.pairwise_getElem h.world.log hr).1 r' hbehind
      omega
    · exact .inr (Option.some.inj (hget.symm.trans hr))
    · exact .inl (hahead r' hafter hmatch')
  simp only [operate, hr]
  refine goto_ok ⟨h.world.copied hmem, h.stale, lt_length_of_getElem? hr⟩ next next le_rfl
    ⟨⟨hcopying.mode, ?_, ?_, ?_, fun _ => hdone, ?_⟩, by simp [State.copyRecord], ?_⟩
    ⟨s.pos, r, rfl, hr, rfl⟩
  · refine List.pairwise_append.2 ⟨hcopying.order, List.pairwise_singleton _ _, fun r' hr' r'' hr'' => ?_⟩
    obtain rfl := List.mem_singleton.1 hr''
    exact hbefore r' hr'
  · intro r' hr'
    rcases List.mem_append.1 hr' with hr' | hr'
    · exact ⟨(hcopying.chosen r' hr').1, (hbefore r' hr').le⟩
    · obtain rfl := List.mem_singleton.1 hr'
      exact ⟨hmatch, le_rfl⟩
  · simpa [State.copyRecord] using recid_ne_neg h.world hmem
  · intro n hn r' hr'
    rcases List.mem_append.1 hr' with hr' | hr'
    · exact hcopying.tail n hn r' hr'
    · obtain rfl := List.mem_singleton.1 hr'
      exact htail n hn
  · intro n hn
    simpa [State.copyRecord] using hcount n hn

/-- Before the last record copied `copyBackward` goes on. -/
theorem CopyingBack.atBackward {pos : Nat} (h : CopyingBack c v) (hlast : v.lastRecordCopied ≠ -1)
    (hsynced : Synced v.log v.lastRecordCopied pos .beforeLast) : AtBackward c v pos :=
  ⟨fun r hr hmatch => h.done hlast r (List.mem_of_mem_drop hr) hmatch (hsynced.2 r hr),
    fun r hr => .inr (hsynced.1 r hr)⟩

theorem backwardSkip_ok (h : Here c first next s)
    (hholds : Holds c first lo up s.toView (.backwardSkip i))
    (hstands : Stands c first lo up s.toView s.pos (.backwardSkip i)) :
    Ok c first log₀ (operate c s (.backwardSkip i)) := by
  obtain ⟨hcopying, hsome, hcount⟩ := hholds
  obtain ⟨j, r, hpos, hr, hlast⟩ := hstands
  have hseek : logSeek none .POSIX_LOG_SEEK_BACKWARD s.log s.pos = (true, j) := by
    simp [logSeek, hpos, Cursor.prevIndex, hr, LogRecord.matches, queryMatches]
  simp only [operate, hseek]
  refine nextBackward_ok ⟨h.world, h.stale, (lt_length_of_getElem? hr).le⟩ hcopying ?_
    (hcopying.atBackward (fun hnil => hsome (hcopying.none.1 hnil))
      (synced_beforeLast h.world.log hr hlast))
  intro n hn
  have hi := hcount n hn
  exact ⟨congrArg (· + 1) hi.1, hi.1.trans_le hi.2⟩

/-! ## `copyForward` -/

theorem forwardSeek_ok (h : Here c first next s) (hlo : lo ≤ next)
    (hfirst : ∀ r ∈ log₀, recid r < first)
    (hholds : Holds c first lo up s.toView (.forwardSeek i))
    (hstands : Stands c first lo up s.toView s.pos (.forwardSeek i)) :
    Ok c first log₀ (operate c s (.forwardSeek i)) := by
  obtain ⟨hcopying, hcount⟩ := hholds
  simp only [operate, logSeek]
  cases hseek : Cursor.nextIndex (LogRecord.matches c.filter) s.log s.pos with
  | none =>
    refine copiedForward_ok h hlo hfirst hcopying (fun n hn => ?_) hstands
      (Cursor.nextIndex_eq_none hseek)
    have := hcount n hn
    omega
  | some j =>
    obtain ⟨hle, ⟨r, hr, hmatch⟩, hpassed⟩ := Cursor.nextIndex_eq_some hseek
    refine goto_ok ⟨h.world, h.stale, (lt_length_of_getElem? hr).le⟩ lo up hlo ⟨hcopying, hcount⟩
      ⟨⟨fun r' hr' => hstands.ahead r' (Cursor.mem_of_mem_drop hle hr'), ?_⟩,
        fun _ => ⟨r, hr, hmatch⟩⟩
    intro r' hr' hmatch'
    rcases hpassed r' hr' with hr' | hpass
    · exact hstands.behind r' hr' hmatch'
    · rw [Config.matches, hpass] at hmatch'
      cases hmatch'

theorem Copying.copyRecord (hworld : World c first next pending s.toView)
    (h : Copying c first lo up s.toView) (hat : AtForward c lo up s.toView s.pos)
    (hr : s.log[s.pos]? = some r) (hmatch : c.matches r = true) :
    Copying c first lo up (s.copyRecord r).toView ∧
      AtForward c lo up (s.copyRecord r).toView (s.pos + 1) := by
  have hmem : r ∈ s.log := List.mem_of_getElem? hr
  obtain ⟨hlor, hlast⟩ := hat.ahead r (Cursor.mem_drop.2 (.inl hr))
  have horder := (Cursor.pairwise_getElem hworld.log hr).2
  have hbehind : ∀ r' ∈ s.log.take (s.pos + 1), c.matches r' = true → lo ≤ recid r' →
      recid r' < up → r' ∈ s.copied ++ [r] := by
    intro r' hr' hmatch' hlo' hup'
    rw [List.mem_append, List.mem_singleton]
    rcases Cursor.mem_take_succ.1 hr' with hr' | hget
    · exact .inl (hat.behind r' hr' hmatch' hlo' hup')
    · exact .inr (Option.some.inj (hget.symm.trans hr))
  refine ⟨⟨?_, ?_, ?_, ?_, ?_⟩, ⟨?_, hbehind⟩⟩
  · refine List.pairwise_append.2 ⟨h.order, List.pairwise_singleton _ _, fun r' hr' r'' hr'' => ?_⟩
    obtain rfl := List.mem_singleton.1 hr''
    exact (h.chosen r' hr').2.2.trans_lt hlast
  · intro r' hr'
    rcases List.mem_append.1 hr' with hr' | hr'
    · obtain ⟨hmatch', hlo', hle⟩ := h.chosen r' hr'
      exact ⟨hmatch', hlo', (hle.trans_lt hlast).le⟩
    · obtain rfl := List.mem_singleton.1 hr'
      exact ⟨hmatch, hlor, le_rfl⟩
  · simpa [State.copyRecord] using recid_ne_neg hworld hmem
  · intro r' hr' hmatch' hlo' hup' hle
    change r' ∈ s.log at hr'
    rw [← List.take_append_drop (s.pos + 1) s.log, List.mem_append] at hr'
    rcases hr' with hr' | hr'
    · exact hbehind r' hr' hmatch' hlo' hup'
    · exact absurd hle (horder r' hr').not_ge
  · have hgoal := h.goal
    unfold Goal at hgoal ⊢
    split at hgoal
    · exact hgoal
    · refine ⟨hgoal.1, hgoal.2.1, hgoal.2.2.1, fun r' hr' => ?_, hgoal.2.2.2.2⟩
      rcases List.mem_append.1 hr' with hr' | hr'
      · exact hgoal.2.2.2.1 r' hr'
      · obtain rfl := List.mem_singleton.1 hr'
        exact hgoal.2.2.1 r' hmem
    · exact hgoal
    · exact hgoal
    · exact hgoal
  · exact fun r' hr' => ⟨(hat.ahead r' (Cursor.mem_of_mem_drop (Nat.le_succ _) hr')).1, horder r' hr'⟩

theorem forwardRead_ok (h : Here c first next s) (hlo : lo ≤ next)
    (hfirst : ∀ r ∈ log₀, recid r < first)
    (hholds : Holds c first lo up s.toView (.forwardRead i))
    (hstands : Stands c first lo up s.toView s.pos (.forwardRead i)) :
    Ok c first log₀ (operate c s (.forwardRead i)) := by
  obtain ⟨hcopying, hcount⟩ := hholds
  obtain ⟨hat, hfound⟩ := hstands
  cases hr : s.log[s.pos]? with
  | none =>
    simp only [operate, hr]
    refine copiedForward_ok h hlo hfirst hcopying (fun n hn => ?_) hat ?_
    · have := hcount n hn
      omega
    · simp [List.drop_eq_nil_of_le (List.getElem?_eq_none_iff.1 hr)]
  | some r =>
    have hmatch : c.matches r = true := by
      cases hfilter : c.filter with
      | none => simp [Config.matches, hfilter, LogRecord.matches, queryMatches]
      | some q =>
        obtain ⟨r', hr', hmatch⟩ := hfound (by simp [hfilter])
        obtain rfl := Option.some.inj (hr'.symm.trans hr)
        exact hmatch
    obtain ⟨hcopying', hat'⟩ := hcopying.copyRecord h.world hat hr hmatch
    have hworld := h.world.copied (List.mem_of_getElem? hr)
    have hlen : (s.copyRecord r).copied.length = s.copied.length + 1 := by simp [State.copyRecord]
    simp only [operate, hr]
    split
    · rename_i hgo
      refine copyForward_ok ⟨hworld, h.stale, lt_length_of_getElem? hr⟩ hlo hcopying' ?_ hat'
      intro n hn
      rw [hlen, (hcount n hn).1]
      exact ⟨rfl, goesOn_iff.1 hgo n hn⟩
    · -- only a tail comes to its end like this
      rename_i hgo
      have hmode : ∃ n, c.mode = .tail n := by
        have hgoal := hcopying.goal
        unfold Goal at hgoal
        cases hm : c.mode <;> simp [hm, goesOn, Mode.nTailRecs] at hgo hgoal ⊢
      obtain ⟨m, hm⟩ := hmode
      simp only [State.copiedForward, hm, Mode.newFlag, Bool.false_eq_true, if_false]
      refine ⟨hcopying'.safe hfirst fun n hn => ?_, by simp [Complete, hm]⟩
      have := hcount n hn
      omega

/-! ## `prepareToTailForward` -/

/-- The tail has been located, and `copyForward` begins: wanted is what
comes from the pointer on. -/
theorem located_ok {n : ℕ+} (h : Here c first next s) (hmode : c.mode = .tail n)
    (hprep : Preparing s.toView) (hcount : ((s.log.drop s.pos).filter c.matches).length ≤ n) :
    Ok c first log₀ ({ s with tailLog := s.log }.goto (copyForward c 1)) := by
  obtain ⟨lo, hlo, hahead, hbehind⟩ : ∃ lo ≤ next, (∀ r ∈ s.log.drop s.pos, lo ≤ recid r) ∧
      ∀ r ∈ s.log.take s.pos, recid r < lo := by
    cases hr : s.log[s.pos]? with
    | none =>
      have hlen := List.getElem?_eq_none_iff.1 hr
      refine ⟨next, le_rfl, by simp [List.drop_eq_nil_of_le hlen], fun r hr => ?_⟩
      exact (h.world.below r (List.mem_of_mem_take hr)).2
    | some r =>
      exact ⟨recid r, (h.world.below r (List.mem_of_getElem? hr)).2.le,
        le_recid_of_mem_drop h.world.log hr, (Cursor.pairwise_getElem h.world.log hr).1⟩
  have htail : (s.log.filter fun r => c.matches r && lo ≤ recid r).length ≤ n := by
    rw [← List.take_append_drop s.pos s.log, List.filter_append, List.length_append,
      ← List.countP_eq_length_filter, ← List.countP_eq_length_filter]
    have hnone : (s.log.take s.pos).countP (fun r => c.matches r && lo ≤ recid r) = 0 := by
      refine List.countP_eq_zero.2 fun r hr hwanted => ?_
      have := hbehind r hr
      simp only [Bool.and_eq_true, decide_eq_true_eq] at hwanted
      omega
    have hsome : (s.log.drop s.pos).countP (fun r => c.matches r && lo ≤ recid r) ≤
        (s.log.drop s.pos).countP c.matches :=
      List.countP_mono_left fun r _ hwanted => (Bool.and_eq_true _ _ ▸ hwanted).1
    rw [← List.countP_eq_length_filter] at hcount
    omega
  have hgoal : Goal c first lo lo { s.toView with tailLog := s.log } := by
    simp only [Goal, hmode]
    exact ⟨trivial, h.world.log, fun r hr => hr, by simp [hprep.1], htail⟩
  refine copyForward_ok ⟨h.world.located s.log, h.stale, h.place⟩ hlo
    (copying_nil hprep hgoal h.world.below) ?_ ⟨fun r hr => ⟨hahead r hr, ?_⟩, fun r hr _ hle hlt => ?_⟩
  · intro m hm
    simp only [hmode, Mode.nTailRecs, Option.some.injEq] at hm
    subst hm
    exact ⟨by simp [hprep.1], n.pos⟩
  · have := (h.world.below r (List.mem_of_mem_drop hr)).1
    change s.lastRecordCopied < _
    rw [hprep.2]
    omega
  · omega

theorem tailSeek_ok (h : Here c first next s) (hholds : Holds c first lo up s.toView (.tailSeek i))
    (hstands : Stands c first lo up s.toView s.pos (.tailSeek i)) :
    Ok c first log₀ (operate c s (.tailSeek i)) := by
  obtain ⟨hprep, n, hmode, hpos, hle⟩ := hholds
  simp only [Stands] at hstands
  simp only [operate, logSeek]
  cases hprev : Cursor.prevIndex (LogRecord.matches c.filter) s.log s.pos with
  | none => exact located_ok h hmode hprep (by omega)
  | some j =>
    obtain ⟨hlt, ⟨r, hr, hmatch⟩, -⟩ := Cursor.prevIndex_eq_some hprev
    -- the seek has come past one record that matches
    have hcount : ((s.log.drop j).filter c.matches).length < i + 1 := by
      obtain ⟨hlen, rfl⟩ := List.getElem?_eq_some_iff.1 hr
      have hfilter : (s.log.drop (j + 1)).filter c.matches = (s.log.drop s.pos).filter c.matches :=
        Cursor.filter_drop_of_prevIndex hprev
      have hmatch' : c.matches s.log[j] = true := hmatch
      rw [List.drop_eq_getElem_cons hlen, List.filter_cons_of_pos hmatch', List.length_cons, hfilter]
      omega
    have hhere : Here c first next { s with pos := j } :=
      ⟨h.world, h.stale, (lt_length_of_getElem? hr).le⟩
    change Ok c first log₀ (State.goto _ (if goesOn c (i + 1) then .tailSeek (i + 1) else copyForward c 1))
    split
    · rename_i hgo
      refine goto_ok ⟨h.world.located s.log, h.stale, hhere.place⟩ next next le_rfl
        ⟨hprep, n, hmode, Nat.le_add_left 1 i, ?_⟩ hcount
      exact goesOn_iff.1 hgo n (by simp [hmode, Mode.nTailRecs])
    · exact located_ok hhere hmode hprep ((Nat.lt_succ_iff.1 hcount).trans hle)

/-! ## `copyOldTail` -/

/-- `copyOldTail` is done and `copyForward` begins. -/
theorem oldTail_ok {n : Nat} (h : Here c first next s) (hmode : c.mode = .newRecid n)
    (hprep : Preparing s.toView) (hahead : ∀ r ∈ s.log.drop s.pos, min (n : Int) first ≤ recid r)
    (hbehind : ∀ r ∈ s.log.take s.pos, recid r < n) :
    Ok c first log₀ (s.goto (copyForward c 1)) := by
  have hfirst := h.world.first_le
  have hgoal : Goal c first (min (n : Int) first) first s.toView := by simp [Goal, hmode]
  refine copyForward_ok h (by omega) (copying_nil hprep hgoal h.world.below) ?_
    ⟨fun r hr => ⟨hahead r hr, ?_⟩, fun r hr _ hlo hup => ?_⟩
  · intro m hm
    simp [hmode, Mode.nTailRecs] at hm
  · have := (h.world.below r (List.mem_of_mem_drop hr)).1
    rw [hprep.2]
    omega
  · have := hbehind r hr
    omega

/-- The seek leaves the pointer at the end of the log when it finds
nothing, and this is the start only if the log is empty. -/
theorem oldTailSeek_ok (h : Here c first next s) (hholds : Holds c first lo up s.toView .oldTailSeek)
    (hkind : ∀ n, c.mode = .newRecid n → s.log = [] ∨ ∃ r ∈ s.log, recid r < n) :
    Ok c first log₀ (operate c s .oldTailSeek) := by
  obtain ⟨hprep, n, hmode⟩ := hholds
  simp only [operate, hmode, logSeek]
  cases hprev : Cursor.prevIndex _ s.log s.log.length with
  | none =>
    have hnone := Cursor.prevIndex_eq_none hprev
    simp only [List.take_length, LogRecord.matches, queryMatches, decide_eq_false_iff_not] at hnone
    rcases hkind n hmode with hnil | ⟨r, hr, hlt⟩
    · exact @oldTail_ok c first next log₀ { s with pos := s.log.length } n ⟨h.world, h.stale, le_rfl⟩ hmode hprep
        (by simp) (by simp [hnil])
    · exact absurd hlt (hnone r hr)
  | some j =>
    obtain ⟨hlt, ⟨r, hr, hmatch⟩, hpassed⟩ := Cursor.prevIndex_eq_some hprev
    refine goto_ok ⟨h.world, h.stale, hlt.le⟩ next next le_rfl ⟨hprep, n, hmode⟩
      ⟨n, hmode, r, hr, by simpa [LogRecord.matches, queryMatches, recid] using hmatch, ?_⟩
    intro r' hr'
    rcases hpassed r' hr' with hnil | hge
    · simp at hnil
    · have hle : (n : Int) ≤ recid r' := by
        simpa [LogRecord.matches, queryMatches, recid] using hge
      omega

theorem oldTailSkip_ok (h : Here c first next s) (hholds : Holds c first lo up s.toView .oldTailSkip)
    (hstands : Stands c first lo up s.toView s.pos .oldTailSkip) :
    Ok c first log₀ (operate c s .oldTailSkip) := by
  obtain ⟨hprep, -⟩ := hholds
  obtain ⟨n, hmode, r, hr, hlt, hahead⟩ := hstands
  simp only [operate, hr]
  refine @oldTail_ok c first next log₀ { s with pos := s.pos + 1 } n ⟨h.world, h.stale, lt_length_of_getElem? hr⟩
    hmode hprep hahead fun r' hr' => ?_
  exact (recid_le_of_mem_take h.world.log hr r' hr').trans_lt hlt

/-! ## After an interruption -/

/-- Nothing has been copied yet, and evlview starts over with the pointer
at the start of the log. -/
theorem resume_start_ok (h : Here c first next s) (hstart : s.pos = 0) (hrec : Recoverable p)
    (hholds : Holds c first lo up s.toView p)
    (hlast : p.resyncAction = .start ∨ s.lastRecordCopied = -1) :
    Ok c first log₀ (resume c s p) := by
  have hback : ∀ i, CopyingBack c s.toView → Counted c i (s.copied.length + 1) →
      s.lastRecordCopied = -1 → Ok c first log₀ (s.goto .seekToEnd) := by
    intro i hcopying hcount hlast
    have hmode := hcopying.mode
    refine goto_ok h next next le_rfl ⟨⟨hcopying.none.1 hlast, hlast⟩, ?_, ?_⟩ trivial
    · rintro hm
      simp [hm, Mode.reverseFlag] at hmode
    · rintro n hm
      simp [hm, Mode.reverseFlag] at hmode
  have hforward : Copying c first lo up s.toView → s.lastRecordCopied = -1 →
      Ok c first log₀ (s.goto (startOver c)) := by
    intro hcopying hlast
    have hprep : Preparing s.toView := ⟨hcopying.none.1 hlast, hlast⟩
    rw [startOver]
    split
    · rename_i hm
      have hgoal : Goal c first 0 first s.toView := by simp [Goal, hm]
      have hnonneg := h.world.first_nonneg
      have hle := h.world.first_le
      refine copyForward_ok h (by omega) (copying_nil hprep hgoal h.world.below)
        (by simp [Counted, hm, Mode.nTailRecs]) ⟨fun r hr => ?_, by simp [hstart]⟩
      have := (h.world.below r (List.mem_of_mem_drop hr)).1
      exact ⟨this, by rw [hlast]; omega⟩
    · rename_i n hm
      exact goto_ok h next next le_rfl ⟨hprep, n, hm⟩ trivial
    · rename_i hplain hrecid
      exact goto_ok h next next le_rfl ⟨hprep, hplain, hrecid⟩ trivial
  cases p with
  | seekToEnd => exact absurd hrec id
  | tailSeek i => exact absurd hrec id
  | sleep => exact absurd hrec id
  | oldTailSeek => exact goto_ok h next next le_rfl hholds trivial
  | oldTailSkip => exact goto_ok h next next le_rfl hholds trivial
  | backwardSeek i =>
    have hlast' := hlast.resolve_left (by simp [Point.resyncAction])
    simp only [resume, hlast', if_true]
    exact hback i hholds.1 hholds.2 hlast'
  | backwardRead i =>
    have hlast' := hlast.resolve_left (by simp [Point.resyncAction])
    simp only [resume, hlast', if_true]
    exact hback i hholds.1 hholds.2 hlast'
  | backwardSkip i =>
    have hlast' := hlast.resolve_left (by simp [Point.resyncAction])
    exact absurd (hholds.1.none.1 hlast') hholds.2.1
  | forwardSeek i =>
    have hlast' := hlast.resolve_left (by simp [Point.resyncAction])
    simp only [resume, hlast', if_true]
    exact hforward hholds.1 hlast'
  | forwardRead i =>
    have hlast' := hlast.resolve_left (by simp [Point.resyncAction])
    simp only [resume, hlast', if_true]
    exact hforward hholds.1 hlast'

/-- After the last record copied `copyForward` goes on. -/
theorem Copying.atForward {pos : Nat} (h : Copying c first lo up v) (hlast : v.lastRecordCopied ≠ -1)
    (hsynced : Synced v.log v.lastRecordCopied pos .afterLast) : AtForward c lo up v pos := by
  refine ⟨fun r hr => ⟨?_, hsynced.2 r hr⟩, fun r hr hmatch hlo hup =>
    h.done r (List.mem_of_mem_take hr) hmatch hlo hup (hsynced.1 r hr)⟩
  -- something has been copied, and that had an id from lo on
  obtain ⟨r₀, hr₀⟩ := List.exists_mem_of_ne_nil _ fun hnil => hlast (h.none.2 hnil)
  obtain ⟨-, hlo, hle⟩ := h.chosen r₀ hr₀
  have := hsynced.2 r hr
  omega

/-- The pointer is back where it belongs, and evlview goes on. -/
theorem resume_synced_ok (h : Here c first next s) (hlo : lo ≤ next)
    (hholds : Holds c first lo up s.toView p) (hlast : s.lastRecordCopied ≠ -1)
    (hsynced : Synced s.log s.lastRecordCopied s.pos p.resyncAction) :
    Ok c first log₀ (resume c s p) := by
  have hagain : ∀ i, CopyingBack c s.toView ∧ Counted c i (s.copied.length + 1) →
      Synced s.log s.lastRecordCopied s.pos .beforeLast → Ok c first log₀ (s.nextBackward c i) := by
    intro i ⟨hcopying, hcount⟩ hsynced
    refine nextBackward_ok h hcopying (fun n hn => ?_) (hcopying.atBackward hlast hsynced)
    have := hcount n hn
    omega
  cases p with
  | seekToEnd => exact absurd hsynced id
  | tailSeek i => exact absurd hsynced id
  | sleep => exact absurd hsynced id
  | oldTailSeek => exact absurd hsynced id
  | oldTailSkip => exact absurd hsynced id
  | backwardSeek i =>
    simp only [resume, hlast, if_false]
    exact hagain i hholds hsynced
  | backwardRead i =>
    simp only [resume, hlast, if_false]
    exact hagain i hholds hsynced
  | backwardSkip i =>
    refine nextBackward_ok h hholds.1 (fun n hn => ?_) (hholds.1.atBackward hlast hsynced)
    have := hholds.2.2 n hn
    omega
  | forwardSeek i =>
    simp only [resume, hlast, if_false]
    exact copyForward_ok h hlo hholds.1 hholds.2 (hholds.1.atForward hlast hsynced)
  | forwardRead i =>
    simp only [resume, hlast, if_false]
    exact copyForward_ok h hlo hholds.1 hholds.2 (hholds.1.atForward hlast hsynced)

/-- An operation of `handleReadOrSeekFailure`. -/
theorem recover_ok (h : Here c first next s) (hlo : lo ≤ next) {ph : Phase} (hph : ph ≠ .reopen)
    (hpc : PcInv c first lo up s (.failed ph p)) : Ok c first log₀ (recover c s p ph) := by
  obtain ⟨hholds, hrec, hsought, hrecovering⟩ := hpc
  obtain ⟨hlast, haction⟩ := hsought hph
  obtain ⟨pos, hpos, hresult⟩ := recover_cases h.world.log haction hph (hrecovering h.stale)
  rcases hresult with ⟨ph', -, heq, hrecovering'⟩ | ⟨heq, hsynced⟩ <;> rw [heq]
  · exact ⟨next, lo, up, h.world, fun _ => hpos, hlo, hholds, hrec, fun _ => ⟨hlast, haction⟩,
      fun _ => hrecovering'⟩
  · exact resume_synced_ok (s := { s with pos }) ⟨h.world, h.stale, hpos⟩ hlo hholds hlast hsynced

theorem reopen_ok (h : InvAt c first next lo up (s.script.flatMap Between.changes) s)
    (hpc : s.pc = .failed .reopen p) : Ok c first log₀ (recover c s p .reopen) := by
  have hinv := h.pc
  rw [hpc] at hinv
  obtain ⟨hholds, hrec, -, -⟩ := hinv
  simp only [recover]
  split
  · rename_i hlast
    exact resume_start_ok (s := { s with pos := 0, stale := false }) ⟨h.world, rfl, Nat.zero_le _⟩ rfl
      hrec hholds hlast
  · rename_i hsought
    rw [not_or] at hsought
    refine ⟨next, lo, up, h.world, fun _ => Nat.zero_le _, h.lo_le, hholds, hrec,
      fun _ => ⟨hsought.2, ?_⟩, fun _ => trivial⟩
    cases p <;> simp [Recoverable, Point.resyncAction] at hrec hsought ⊢

theorem wake_ok (h : InvAt c first next lo up (s.script.flatMap Between.changes) s)
    (hpc : s.pc = .at .sleep) : Ok c first log₀ (s.goto (copyForward c 1)) := by
  have hinv := h.pc
  rw [hpc] at hinv
  obtain ⟨⟨hcopying, hnew, -⟩, hstands⟩ := hinv
  have hcount : Counted c 1 (s.copied.length + 1) := by
    intro n hn
    cases hm : c.mode <;> simp [hm, Mode.newFlag, Mode.nTailRecs] at hnew hn
  rw [copyForward]
  split
  · exact ⟨next, lo, up, h.world, h.place, h.lo_le, ⟨hcopying, hcount⟩, hstands⟩
  · rename_i hfilter
    exact ⟨next, lo, up, h.world, h.place, h.lo_le, ⟨hcopying, hcount⟩,
      fun hstale => ⟨hstands hstale, fun hsome => absurd hsome hfilter⟩⟩

/-! ## Every step -/

/-- evlview does not lose its place in this step. There are two ways in
which it does. The log has been maintained right before a seek to its end,
or before one of those that locate the tail: nothing has been copied yet,
and the pointer is left at the start of the log. Or `copyOldTail` finds no
record with a smaller id, and takes the end of the log, where the seek has
left the pointer, for its start. -/
def keepsPlace (c : Config) (s : State) : Bool :=
  match s.pc with
  | .at .seekToEnd | .at (.tailSeek _) => !s.disturb.stale
  | .at .oldTailSeek =>
    match c.mode with
    | .newRecid n => s.disturb.stale || s.disturb.log.isEmpty || s.disturb.log.any (recid · < n)
    | _ => true
  | _ => true

/-- An operation of the program, on a log that has not been touched. -/
theorem operate_ok (h : Here c first next s) (hlo : lo ≤ next) (hfirst : ∀ r ∈ log₀, recid r < first)
    (hsleep : p ≠ .sleep) (hpc : PcInv c first lo up s (.at p))
    (hkeeps : p = .oldTailSeek → ∀ n, c.mode = .newRecid n → s.log = [] ∨ ∃ r ∈ s.log, recid r < n) :
    Ok c first log₀ (operate c s p) := by
  obtain ⟨hholds, hstands⟩ := hpc
  have hstands := hstands h.stale
  cases p with
  | seekToEnd => exact seekToEnd_ok h hholds
  | backwardSeek i => exact backwardSeek_ok h hholds hstands
  | backwardRead i => exact backwardRead_ok h hholds hstands
  | backwardSkip i => exact backwardSkip_ok h hholds hstands
  | tailSeek i => exact tailSeek_ok h hholds hstands
  | oldTailSeek => exact oldTailSeek_ok h hholds (hkeeps rfl)
  | oldTailSkip => exact oldTailSkip_ok h hholds hstands
  | forwardSeek i => exact forwardSeek_ok h hlo hfirst hholds hstands
  | forwardRead i => exact forwardRead_ok h hlo hfirst hholds hstands
  | sleep => exact absurd rfl hsleep

/-- An operation fails, and `handleReadOrSeekFailure` is called. -/
theorem fail_ok (h : InvAt c first next lo up (s.script.flatMap Between.changes) s)
    (hholds : Holds c first lo up s.toView p) (hrec : Recoverable p) :
    Ok c first log₀ (.inl { s with pc := .failed .reopen p }) :=
  ⟨next, lo, up, h.world, h.place, h.lo_le, hholds, hrec, fun hne => absurd rfl hne,
    fun _ => trivial⟩

theorem sleeping_safe (h : Inv c first s) (hpc : s.pc = .at .sleep)
    (hfirst : ∀ r ∈ log₀, recid r < first) : Safe c log₀ s.toView ∧ Complete c log₀ s.toView := by
  obtain ⟨next, lo, up, h⟩ := h
  have hinv := h.pc
  rw [hpc] at hinv
  have hholds := hinv.1
  refine ⟨hholds.safe hfirst, ?_⟩
  obtain ⟨hcopying, hnew, hall⟩ := hholds
  have hgoal := hcopying.goal
  unfold Goal at hgoal
  unfold Complete
  cases hm : c.mode <;> simp only [hm, Mode.newFlag, Bool.false_eq_true] at hgoal hnew ⊢
  · intro r hr₀ hr hmatch hle
    have := hfirst r hr₀
    exact hall r hr hmatch (by omega) (by omega)

theorem step_ok (h : Inv c first s) (hfirst : ∀ r ∈ log₀, recid r < first) (hkeeps : keepsPlace c s = true) :
    Ok c first log₀ (step c s) := by
  obtain ⟨next, lo, up, ht⟩ := h.disturb
  have hpc := disturb_pc s
  have hinv := ht.pc
  have hhere : s.disturb.stale = false → Here c first next s.disturb :=
    fun hstale => ⟨ht.world, hstale, ht.place hstale⟩
  cases hs : s.pc with
  | «at» p =>
    rw [hpc, hs] at hinv
    by_cases hsleep : p = .sleep
    · subst hsleep
      simp only [step, hs]
      cases hscript : s.script with
      | nil => exact sleeping_safe h hs hfirst
      | cons b script =>
        dsimp only
        split
        · exact wake_ok ht (hpc.trans hs)
        · exact ⟨next, lo, up, ht.world, ht.place, ht.lo_le, hinv⟩
    · rw [step_at hs hsleep]
      split
      · rename_i hstale
        refine fail_ok ht hinv.1 ?_
        cases p <;> simp [keepsPlace, hs, hstale, Recoverable] at hkeeps hsleep ⊢
      · rename_i hstale
        have hstale : s.disturb.stale = false := by simpa using hstale
        refine operate_ok (hhere hstale) ht.lo_le hfirst hsleep hinv ?_
        rintro rfl n hm
        simpa [keepsPlace, hs, hm, hstale] using hkeeps
  | failed ph p =>
    by_cases hph : ph = .reopen
    · subst hph
      simp only [step, hs]
      exact reopen_ok ht (hpc.trans hs)
    · rw [hpc, hs] at hinv
      rw [step_failed hs hph]
      split
      · exact fail_ok ht hinv.1 hinv.2.1
      · rename_i hstale
        exact recover_ok (hhere (by simpa using hstale)) ht.lo_le hph hinv

end Step

end Evlog.Evlview
