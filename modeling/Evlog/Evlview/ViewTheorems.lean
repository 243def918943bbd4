/-
Evlog.Evlview.ViewTheorems — evlview survives log maintenance.

Every step of a run keeps the invariant, by Evlog.Evlview.StepTheorems, and
the run comes to its end, by Evlog.Evlview.ReturnTheorems. So at any time
what has been copied is right (`Safe`), and in the end nothing is missing
(`Complete`), whatever records are deleted between any two operations, as
long as evlview is not made to lose its place (`keepsPlace`).
-/
import Evlog.Evlview.StepTheorems
import Evlog.Evlview.ReturnTheorems

namespace Evlog.Evlview

open Relation Evlog.Lib Evlog.Posix

/-! ## Runs -/

def nextRecid (log : List LogRecord) : Int := (log.getLast?.map fun r => recid r + 1).getD 0

/-- The log at the start is in order, and so is what is logged later. -/
structure WellFormed (c : Config) (log₀ : List LogRecord) (script : List Between) : Prop where
  log : Increasing log₀
  recid_nonneg : ∀ r ∈ log₀, 0 ≤ recid r
  fresh : Fresh c.mode.newFlag (nextRecid log₀) (script.flatMap Between.changes)

def Reaches (c : Config) (log₀ : List LogRecord) (script : List Between) (s : State) : Prop :=
  ReflTransGen (Machine.Next (step c)) (start c log₀ script) s

variable {c : Config} {log₀ : List LogRecord} {script : List Between} {s : State} {r : LogRecord}

theorem recid_lt_nextRecid (hlog : Increasing log₀) (hr : r ∈ log₀) : recid r < nextRecid log₀ := by
  rcases List.eq_nil_or_concat log₀ with rfl | ⟨before, last, rfl⟩
  · cases hr
  rw [List.concat_eq_append] at hlog hr ⊢
  have hlast : nextRecid (before ++ [last]) = recid last + 1 := by simp [nextRecid]
  rw [hlast]
  rcases List.mem_append.1 hr with hr | hr
  · have := (List.pairwise_append.1 hlog).2.2 r hr last (List.mem_singleton_self _)
    omega
  · obtain rfl := List.mem_singleton.1 hr
    omega

theorem nextRecid_nonneg (hnonneg : ∀ r ∈ log₀, 0 ≤ recid r) : 0 ≤ nextRecid log₀ := by
  cases hlast : log₀.getLast? with
  | none => simp [nextRecid, hlast]
  | some r =>
    have := hnonneg r (List.mem_of_getLast? hlast)
    simp only [nextRecid, hlast, Option.map_some, Option.getD_some]
    omega

theorem inv_start (h : WellFormed c log₀ script) : Inv c (nextRecid log₀) (start c log₀ script) := by
  have hnonneg := nextRecid_nonneg h.recid_nonneg
  have hprep : Preparing (start c log₀ script).toView := ⟨rfl, rfl⟩
  have hworld : World c (nextRecid log₀) (nextRecid log₀) (script.flatMap Between.changes)
      (start c log₀ script).toView :=
    ⟨h.log, fun r hr => ⟨h.recid_nonneg r hr, recid_lt_nextRecid h.log hr⟩, h.fresh, hnonneg, le_rfl,
      fun _ => rfl, by change (-1 : Int) < _; omega⟩
  have hhere : Here c (nextRecid log₀) (nextRecid log₀) (start c log₀ script) :=
    ⟨hworld, rfl, Nat.zero_le _⟩
  have hforward : c.mode = .plain →
      Ok c (nextRecid log₀) log₀ ((start c log₀ script).goto (copyForward c 1)) := by
    intro hm
    refine copyForward_ok hhere hnonneg
      (copying_nil hprep (by simp [Goal, hm] : Goal c (nextRecid log₀) 0 (nextRecid log₀) _) hworld.below)
      (by simp [Counted, hm, Mode.nTailRecs]) ⟨fun r hr => ?_, by simp [start]⟩
    have := h.recid_nonneg r (List.mem_of_mem_drop hr)
    exact ⟨this, by change (-1 : Int) < _; omega⟩
  have hgoto : (start c log₀ script).goto (startOver c) = .inl (start c log₀ script) := rfl
  have hok : Ok c (nextRecid log₀) log₀ ((start c log₀ script).goto (startOver c)) := by
    rw [startOver]
    split
    · rename_i hm
      exact hforward hm
    · rename_i n hm
      exact goto_ok hhere (nextRecid log₀) (nextRecid log₀) le_rfl ⟨hprep, n, hm⟩ trivial
    · rename_i hplain hrecid
      exact goto_ok hhere (nextRecid log₀) (nextRecid log₀) le_rfl ⟨hprep, hplain, hrecid⟩ trivial
  rwa [hgoto] at hok

theorem Inv.safe {first : Int} (h : Inv c first s) (hfirst : ∀ r ∈ log₀, recid r < first) :
    Safe c log₀ s.toView := by
  obtain ⟨next, lo, up, h⟩ := h
  have hpc := h.pc
  cases hs : s.pc with
  | «at» p =>
    rw [hs] at hpc
    exact hpc.1.safe hfirst
  | failed ph p =>
    rw [hs] at hpc
    exact hpc.1.safe hfirst

/-- Whatever records are deleted between any two operations of evlview, no
record is copied twice, the ids are in order, the tail is no longer than
asked for, and in the end no record is missing that was to be copied and
is still there. This holds of every run in which evlview does not lose
its place. With `--new --recid`, a record with a smaller id is copied only
if it was logged after the start. -/
theorem copy_survives_maintenance (c : Config) (log₀ : List LogRecord) (script : List Between)
    (hrun : WellFormed c log₀ script)
    (hkeeps : ∀ s, Reaches c log₀ script s → keepsPlace c s = true) :
    (∀ s, Reaches c log₀ script s →
      Safe c log₀ s.toView ∧ (s.pc = .at .sleep → Complete c log₀ s.toView)) ∧
    ∃ s, Machine.Returns (step c) (start c log₀ script) s ∧
      Safe c log₀ s.toView ∧ Complete c log₀ s.toView := by
  have hfirst : ∀ r ∈ log₀, recid r < nextRecid log₀ := fun r hr => recid_lt_nextRecid hrun.log hr
  have hstep : ∀ s, Reaches c log₀ script s → Inv c (nextRecid log₀) s →
      Sum.elim (Inv c (nextRecid log₀))
        (fun s : State => Safe c log₀ s.toView ∧ Complete c log₀ s.toView) (step c s) := by
    intro s hreach hinv
    have hok := step_ok hinv hfirst (hkeeps s hreach)
    cases hnext : step c s <;> rwa [hnext] at hok
  have hrule := Machine.run_rule (inv_start hrun) hstep
  obtain ⟨s, hreturns⟩ := exists_returns c (start c log₀ script)
  refine ⟨fun s hreach => ?_, s, hreturns, hrule.2 s hreturns⟩
  have hinv := hrule.1 s hreach
  exact ⟨hinv.safe hfirst, fun hpc => (sleeping_safe hinv hpc hfirst).2⟩

/-! ## Runs of it -/

def numbered (recid : Int32) : LogRecord :=
  ⟨⟨0, recid, 0, 0, 0, 0, 0, 0, 0, 0, 0, 0, 0, 0, 0, 0⟩, [], List.length_nil, Nat.zero_le _⟩

def quiet : Between := ⟨[], false⟩

def deletedTo (n : Int) : Between := ⟨[.maintain fun r => n < recid r], false⟩

def loggedNow (id : Int32) : Between := ⟨[.logged (numbered id)], true⟩

/-- The ids that have been copied when the program comes to its end. -/
def copiedIds (c : Config) (log₀ : List LogRecord) (script : List Between) : Option (List Int) :=
  match Machine.run (step c) 30 (start c log₀ script) with
  | .inl _ => none
  | .inr s => some (s.copied.map recid)

/-- The last two of three records are asked for. When the second one has
been copied it is deleted with the first one. -/
theorem copy_survives_maintenance_tail :
    copiedIds ⟨.tail 2, none⟩ [numbered 1, numbered 2, numbered 3]
        [quiet, quiet, quiet, quiet, deletedTo 2] = some [2, 3] ∧
      ∃ s, Machine.Returns (step ⟨.tail 2, none⟩)
          (start ⟨.tail 2, none⟩ [numbered 1, numbered 2, numbered 3]
            [quiet, quiet, quiet, quiet, deletedTo 2]) s ∧
        Safe ⟨.tail 2, none⟩ [numbered 1, numbered 2, numbered 3] s.toView ∧
        Complete ⟨.tail 2, none⟩ [numbered 1, numbered 2, numbered 3] s.toView := by
  refine ⟨by decide, (copy_survives_maintenance _ _ _ ⟨?_, by decide, ?_⟩ ?_).2⟩
  · simp [Increasing, recid, numbered]
  · simp [quiet, deletedTo, Fresh]
  · intro s hreach
    have halong : Machine.Along (step ⟨.tail 2, none⟩) (fun s => keepsPlace ⟨.tail 2, none⟩ s = true) 30
        (start ⟨.tail 2, none⟩ [numbered 1, numbered 2, numbered 3]
          [quiet, quiet, quiet, quiet, deletedTo 2]) := by
      decide
    exact halong.forall_reaches hreach

/-- With `--new --recid 5` the record 2 is copied, when it is logged while
evlview waits. With `--new --recid 0` the record 1 is not copied, which is
in the log at the start. With `--reverse` nothing is copied when record 1
is deleted before the first operation, though record 2 is in the log all
the time. -/
theorem not_copied_as_asked :
    (WellFormed ⟨.newRecid 5, none⟩ [numbered 1] [quiet, quiet, quiet, loggedNow 2] ∧
      copiedIds ⟨.newRecid 5, none⟩ [numbered 1] [quiet, quiet, quiet, loggedNow 2] = some [2]) ∧
    (WellFormed ⟨.newRecid 0, none⟩ [numbered 1] [] ∧
      copiedIds ⟨.newRecid 0, none⟩ [numbered 1] [] = some []) ∧
    (WellFormed ⟨.reverse, none⟩ [numbered 1, numbered 2] [deletedTo 1] ∧
      copiedIds ⟨.reverse, none⟩ [numbered 1, numbered 2] [deletedTo 1] = some []) := by
  refine ⟨⟨⟨?_, by decide, ?_⟩, by decide⟩, ⟨⟨?_, by decide, trivial⟩, by decide⟩,
    ⟨⟨?_, by decide, ?_⟩, by decide⟩⟩
  · simp [Increasing]
  · exact ⟨rfl, by decide, trivial⟩
  · simp [Increasing]
  · simp [Increasing, recid, numbered]
  · trivial

end Evlog.Evlview
