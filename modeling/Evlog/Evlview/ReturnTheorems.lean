/-
Evlog.Evlview.ReturnTheorems — when the log is left alone, evlview comes
to its end, or goes to sleep for good.

Every step uses up an entry of the script. Once there is none left the log
does not change any more, and each step takes `State.left` down: the
pointer goes forward, or backward, or the program comes to a later part of
itself. An interruption that is still to be recovered counts for more than
all that can come after it.
-/
import Evlog.Evlview.CopyTheorems

namespace Evlog.Evlview

open Evlog.Lib Evlog.Posix

/-! ## What is left to do -/

/-- A bound on the operations to come at a point. `len` is the length of
the log. -/
def Point.left (len pos : Nat) : Point → Nat
  | .seekToEnd => 5 * len + 10
  | .tailSeek _ => 3 * len + 3 + min pos len
  | .oldTailSeek => 3 * len + 5
  | .oldTailSkip => 3 * len + 4
  | .backwardSeek _ => 3 * min pos len
  | .backwardRead _ => 3 * min pos len + 2
  | .backwardSkip _ => 3 * (min pos len - 1) + 1
  | .forwardSeek _ => 3 * (len - pos) + 2
  | .forwardRead _ => 3 * (len - pos) + 1
  | .sleep => 0

/-- The operations of `handleReadOrSeekFailure` that are to come. -/
def Phase.left : Phase → Nat
  | .reopen => 4
  | .resync => 3
  | .read => 2
  | .noent | .back => 1

def State.top (s : State) : Nat := 5 * s.log.length + 11

def State.left (s : State) : Nat :=
  match s.pc with
  | .at p => if s.stale then s.top + 5 else p.left s.log.length s.pos
  | .failed .reopen _ => s.top + Phase.left .reopen
  | .failed ph _ => if s.stale then s.top + 5 else s.top + ph.left

variable {c : Config} {s : State} {p : Point} {i bound : Nat} {script : List Between}

theorem Point.left_lt_top (pos : Nat) : p.left s.log.length pos < s.top := by
  cases p <;> simp only [Point.left, State.top] <;> omega

/-- Less is left in the next state, and nothing else has happened. -/
def Down (script : List Between) (bound : Nat) : State ⊕ State → Prop
  | .inl s' => s'.script = script ∧ s'.left < bound
  | .inr _ => True

theorem goto_down (hscript : s.script = script) (hstale : s.stale = false)
    (h : p.left s.log.length s.pos < bound) : Down script bound (s.goto p) := by
  refine ⟨hscript, ?_⟩
  simpa [State.left, hstale] using h

theorem copyForward_left (len pos : Nat) :
    (copyForward c i).left len pos ≤ 3 * (len - pos) + 2 := by
  rw [copyForward]
  split <;> simp only [Point.left] <;> omega

theorem copiedForward_down (hscript : s.script = script) (hstale : s.stale = false) (h : 0 < bound) :
    Down script bound (s.copiedForward c) := by
  rw [State.copiedForward]
  split
  · exact goto_down hscript hstale h
  · trivial

theorem nextBackward_down (hscript : s.script = script) (hstale : s.stale = false)
    (h : 3 * min s.pos s.log.length < bound) : Down script bound (s.nextBackward c i) := by
  rw [State.nextBackward]
  split
  · exact goto_down hscript hstale h
  · trivial

/-! ## The operations -/

theorem operate_down (hstale : s.stale = false) (hsleep : p ≠ .sleep) :
    Down s.script (p.left s.log.length s.pos) (operate c s p) := by
  cases p with
  | seekToEnd =>
    refine goto_down rfl hstale ?_
    change (afterSeekToEnd c).left s.log.length s.log.length < _
    unfold afterSeekToEnd
    split <;> simp only [Point.left] <;> omega
  | backwardSeek i =>
    simp only [operate, logSeek]
    cases hprev : Cursor.prevIndex (LogRecord.matches c.filter) s.log s.pos with
    | none => trivial
    | some j =>
      obtain ⟨hlt, ⟨r, hr, -⟩, -⟩ := Cursor.prevIndex_eq_some hprev
      have hlen := (List.getElem?_eq_some_iff.1 hr).1
      refine goto_down rfl hstale ?_
      simp only [Point.left]
      omega
  | backwardRead i =>
    simp only [operate]
    split
    · rename_i r hr
      have hlen := (List.getElem?_eq_some_iff.1 hr).1
      refine goto_down rfl hstale ?_
      simp only [Point.left, State.copyRecord]
      omega
    · trivial
  | backwardSkip i =>
    simp only [operate, logSeek]
    cases hprev : Cursor.prevIndex (LogRecord.matches none) s.log s.pos with
    | none => trivial
    | some j =>
      obtain ⟨hlt, ⟨r, hr, -⟩, -⟩ := Cursor.prevIndex_eq_some hprev
      have hlen := (List.getElem?_eq_some_iff.1 hr).1
      refine nextBackward_down rfl hstale ?_
      simp only [Point.left]
      omega
  | tailSeek i =>
    simp only [operate, logSeek]
    cases hprev : Cursor.prevIndex (LogRecord.matches c.filter) s.log s.pos with
    | none =>
      refine goto_down rfl hstale ((copyForward_left _ _).trans_lt ?_)
      simp only [Point.left]
      omega
    | some j =>
      obtain ⟨hlt, ⟨r, hr, -⟩, -⟩ := Cursor.prevIndex_eq_some hprev
      have hlen := (List.getElem?_eq_some_iff.1 hr).1
      refine goto_down rfl hstale ?_
      split
      · simp only [Point.left]
        omega
      · refine (copyForward_left _ _).trans_lt ?_
        simp only [Point.left]
        omega
  | oldTailSeek =>
    simp only [operate]
    split
    · split
      · refine goto_down rfl hstale ?_
        simp only [Point.left]
        omega
      · refine goto_down rfl hstale ((copyForward_left _ _).trans_lt ?_)
        simp only [Point.left]
        omega
    · trivial
  | oldTailSkip =>
    simp only [operate]
    split
    · refine goto_down rfl hstale ((copyForward_left _ _).trans_lt ?_)
      simp only [Point.left]
      omega
    · trivial
  | forwardSeek i =>
    simp only [operate, logSeek]
    cases hnext : Cursor.nextIndex (LogRecord.matches c.filter) s.log s.pos with
    | none => exact copiedForward_down rfl hstale (Nat.succ_pos _)
    | some j =>
      obtain ⟨hle, -, -⟩ := Cursor.nextIndex_eq_some hnext
      refine goto_down rfl hstale ?_
      simp only [Point.left]
      omega
  | forwardRead i =>
    simp only [operate]
    split
    · rename_i r hr
      have hlen := (List.getElem?_eq_some_iff.1 hr).1
      split
      · refine goto_down rfl hstale ((copyForward_left _ _).trans_lt ?_)
        simp only [Point.left, State.copyRecord]
        omega
      · exact copiedForward_down rfl hstale (Nat.succ_pos _)
    · exact copiedForward_down rfl hstale (Nat.succ_pos _)
  | sleep => exact absurd rfl hsleep

theorem resume_down (hscript : s.script = script) (hstale : s.stale = false) (h : s.top ≤ bound) :
    Down script bound (resume c s p) := by
  have hgoto : ∀ p', Down script bound (s.goto p') := fun p' =>
    goto_down hscript hstale ((Point.left_lt_top _).trans_le h)
  have hback : ∀ i, Down script bound (s.nextBackward c i) := fun i =>
    nextBackward_down hscript hstale
      ((@Point.left_lt_top s (.backwardSeek i) s.pos).trans_le h)
  cases p with
  | seekToEnd => exact hgoto _
  | tailSeek i => exact hgoto _
  | oldTailSeek => exact hgoto _
  | oldTailSkip => exact hgoto _
  | forwardSeek i => exact hgoto _
  | forwardRead i => exact hgoto _
  | sleep => exact hgoto _
  | backwardSkip i => exact hback _
  | backwardSeek i =>
    simp only [resume]
    split
    · exact hgoto _
    · exact hback _
  | backwardRead i =>
    simp only [resume]
    split
    · exact hgoto _
    · exact hback _

theorem recover_down {ph : Phase} (hstale : ph ≠ .reopen → s.stale = false) :
    Down s.script (s.top + ph.left) (recover c s p ph) := by
  have hresume : ∀ pos, Down s.script (s.top + ph.left) (resume c { s with pos, stale := false } p) :=
    fun pos => resume_down rfl rfl (Nat.le_add_right _ _)
  have hagain : ∀ pos ph', ph' ≠ .reopen → ph'.left < ph.left →
      Down s.script (s.top + ph.left)
        (.inl { s with pos, stale := false, pc := .failed ph' p }) := by
    intro pos ph' hne hlt
    refine ⟨rfl, ?_⟩
    cases ph' <;> simp [State.left, State.top] at hne hlt ⊢ <;> omega
  by_cases hph : ph = .reopen
  · subst hph
    simp only [recover]
    split
    · exact hresume 0
    · exact hagain 0 .resync (by simp) (by decide)
  have hs : ∀ pos pc, { s with pos, pc } = { s with pos, stale := false, pc } := by
    intro pos pc
    rw [← hstale hph]
  cases ph with
  | reopen => exact absurd rfl hph
  | resync =>
    simp only [recover, hs]
    split
    · split
      · exact hagain _ .read (by simp) (by decide)
      · exact hresume _
    · exact hagain _ .noent (by simp) (by decide)
  | noent =>
    simp only [recover, hs]
    exact hresume _
  | read =>
    simp only [recover, hs]
    split
    · split
      · exact hresume _
      · exact hagain _ .back (by simp) (by decide)
    · trivial
  | back =>
    simp only [recover, hs]
    split
    · exact hresume _
    · trivial

/-! ## The steps -/

theorem disturb_nil (h : s.script = []) : s.disturb = s := by
  simp [State.disturb, h]

/-- One step uses up the script, and then takes down what is left. -/
theorem step_down {s' : State} (h : Machine.Next (step c) s s') :
    s'.script = s.script.tail ∧ (s.script = [] → s'.left < s.left) := by
  have hpc := disturb_pc s
  have hscript := disturb_script s
  -- no step but the one out of the sleep needs the script
  have hdown : Down s.disturb.script s.disturb.left (.inl s') →
      s'.script = s.script.tail ∧ (s.script = [] → s'.left < s.left) := by
    intro hdown
    refine ⟨hdown.1.trans hscript, fun hnil => ?_⟩
    have hlt := hdown.2
    rwa [disturb_nil hnil] at hlt
  have hfail : ∀ p, s.disturb.left = s.disturb.top + 5 →
      Down s.disturb.script s.disturb.left (.inl { s.disturb with pc := .failed .reopen p }) := by
    intro p hleft
    refine ⟨rfl, ?_⟩
    rw [hleft]
    exact Nat.lt_succ_self _
  have hnext : step c s = .inl s' := h
  cases hs : s.pc with
  | «at» p =>
    by_cases hsleep : p = .sleep
    · subst hsleep
      simp only [step, hs] at hnext
      cases hnil : s.script with
      | nil => simp [hnil] at hnext
      | cons b script =>
        rw [hnil] at hnext hscript
        refine ⟨?_, fun hcons => absurd hcons (List.cons_ne_nil b script)⟩
        dsimp only at hnext
        split at hnext <;> obtain rfl := Sum.inl.inj hnext <;> exact hscript
    · apply hdown
      rw [← hnext, step_at hs hsleep]
      split
      · rename_i hstale
        exact hfail p (by simp [State.left, hpc, hs, hstale])
      · rename_i hstale
        rw [Bool.not_eq_true] at hstale
        have hleft : s.disturb.left = p.left s.disturb.log.length s.disturb.pos := by
          simp [State.left, hpc, hs, hstale]
        rw [hleft]
        exact operate_down hstale hsleep
  | failed ph p =>
    apply hdown
    by_cases hph : ph = .reopen
    · subst hph
      rw [← hnext]
      simp only [step, hs]
      have hleft : s.disturb.left = s.disturb.top + Phase.left .reopen := by
        simp [State.left, hpc, hs]
      rw [hleft]
      exact recover_down fun hne => absurd rfl hne
    · rw [← hnext, step_failed hs hph]
      split
      · rename_i hstale
        refine hfail p ?_
        cases ph <;> simp [State.left, hpc, hs, hstale] at hph ⊢
      · rename_i hstale
        rw [Bool.not_eq_true] at hstale
        have hleft : s.disturb.left = s.disturb.top + ph.left := by
          cases ph <;> simp [State.left, hpc, hs, hstale] at hph ⊢
        rw [hleft]
        exact recover_down fun _ => hstale

theorem exists_returns (c : Config) (s : State) : ∃ s', Machine.Returns (step c) s s' := by
  refine Machine.exists_returns_of_wellFounded
    (InvImage.wf (fun s : State => (s.script.length, s.left))
      (WellFounded.prod_lex Nat.lt_wfRel.wf Nat.lt_wfRel.wf)) (fun s s' h => ?_) s
  obtain ⟨hscript, hleft⟩ := step_down h
  refine Prod.lex_iff.2 ?_
  simp only [hscript, List.length_tail]
  cases hs : s.script with
  | nil => exact .inr ⟨rfl, hleft hs⟩
  | cons b script => exact .inl (Nat.lt_succ_self _)

end Evlog.Evlview
