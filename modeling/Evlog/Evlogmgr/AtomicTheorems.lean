/-
Evlog.Evlogmgr.AtomicTheorems — a compaction that fails.

`evl_compact_log` makes a backup before it starts and removes it on every
way out. A pass that meets a corrupt record has by then written the kept
records before it over deleted ones, and stops. What is left is neither
the log as it was nor a backup of it. The pass is harmless exactly when
what it moved is what it moved it onto, which for all practical purposes
means that it moved nothing (`compact_atomic_iff`).
-/
import Evlog.Evlogmgr.CompactTheorems

namespace Evlog.Evlogmgr

open Evlog.Lib Evlog.Posix

/-! ## The generation number -/

/-- The file starts with a header `setGenerationNumber` accepts. -/
def HeaderOk (content : List UInt8) : Prop :=
  logHeaderSize ≤ content.length ∧ (LogHeader.ofBytes content).logMagic = logfileMagic

instance (content : List UInt8) : Decidable (HeaderOk content) :=
  inferInstanceAs (Decidable (_ ∧ _))

variable {content base : List UInt8}

theorem setGenerationNumber_of_ok (h : HeaderOk content) (type : SetGen) :
    setGenerationNumber type content
      = some (withGeneration content (type.next (LogHeader.ofBytes content).logGeneration)) := by
  simp only [setGenerationNumber, if_neg (not_lt.2 h.1), h.2, ne_eq, not_true_eq_false, if_false]

theorem setGenerationNumber_of_not_ok (h : ¬ HeaderOk content) (type : SetGen) :
    setGenerationNumber type content = none := by
  rw [setGenerationNumber]
  split
  · rfl
  · rename_i hlen
    simp only
    rw [if_pos fun hmagic => h ⟨not_lt.1 hlen, hmagic⟩]

section Generation

variable {content : List UInt8} (h : logHeaderSize ≤ content.length) (gen : UInt32)

include h

theorem withGeneration_length : (withGeneration content gen).length = content.length := by
  simp only [logHeaderSize] at h
  simp [withGeneration, logGenerationOffset]
  omega

theorem withGeneration_drop : (withGeneration content gen).drop logHeaderSize
    = content.drop logHeaderSize := by
  have hlen : (content.take logGenerationOffset ++ leBytes 4 gen.toNat).length = 36 := by
    simp only [logHeaderSize] at h
    simp [logGenerationOffset]
    omega
  rw [withGeneration, List.drop_append, List.drop_eq_nil_of_le (by rw [hlen]; decide),
    List.nil_append, hlen, List.drop_drop]
  rfl

theorem withGeneration_field {k w : Nat} (hkw : k + w ≤ logGenerationOffset) :
    ((withGeneration content gen).drop k).take w = (content.drop k).take w := by
  have hlen : (content.take logGenerationOffset).length = logGenerationOffset := by
    simp only [logHeaderSize] at h
    simp [logGenerationOffset]
    omega
  rw [withGeneration, List.append_assoc, List.drop_append_of_le_length (by omega),
    List.take_append_of_le_length (by rw [List.length_drop]; omega), List.drop_take,
    List.take_take, Nat.min_eq_left (by omega)]

theorem withGeneration_generation :
    UInt32.ofNat (leNat (((withGeneration content gen).drop logGenerationOffset).take 4)) = gen := by
  have hlen : (content.take logGenerationOffset).length = logGenerationOffset := by
    simp only [logHeaderSize] at h
    simp [logGenerationOffset]
    omega
  rw [withGeneration, List.append_assoc, List.drop_left' hlen, List.take_left' (leBytes_length 4 _),
    leNat_leBytes, uint32_ofNat_mod]

theorem withGeneration_header : LogHeader.ofBytes (withGeneration content gen)
    = { LogHeader.ofBytes content with logGeneration := gen } := by
  have hfield := fun k w hkw => withGeneration_field h gen (k := k) (w := w) hkw
  simp only [LogHeader.ofBytes, takeLE, List.drop_drop, LogHeader.mk.injEq]
  refine ⟨?_, ?_, ?_, ?_, withGeneration_generation h gen⟩
  · have := hfield 0 4 (by decide)
    simp only [List.drop_zero] at this
    rw [this]
  · rw [hfield 8 8 (by decide)]
  · rw [hfield 16 4 (by decide)]
  · rw [hfield 24 8 (by decide)]

theorem withGeneration_ok (hok : HeaderOk content) : HeaderOk (withGeneration content gen) := by
  refine ⟨by rw [withGeneration_length h]; exact hok.1, ?_⟩
  rw [withGeneration_header h]
  exact hok.2

end Generation

/-! ## The walk does not look at the header -/

section Congr

variable {query : QueryEval} {logmgmtMsg base base' : List UInt8}

theorem walk_congr (hdrop : base.drop logHeaderSize = base'.drop logHeaderSize) {offset : Int}
    (hoff : (logHeaderSize : Int) ≤ offset) (bytesToProcess : Int) (varbuf : List UInt8)
    (hole : Bool) :
    walk query logmgmtMsg base offset bytesToProcess varbuf hole
      = walk query logmgmtMsg base' offset bytesToProcess varbuf hole := by
  have hread : ∀ (offset : Int) (varbuf : List UInt8), (logHeaderSize : Int) ≤ offset →
      readRecord ⟨base, 0⟩ offset varbuf = readRecord ⟨base', 0⟩ offset varbuf := by
    intro offset varbuf hoff
    refine readRecord_congr (by omega) ?_ varbuf
    have hsum : offset.toNat = logHeaderSize + (offset.toNat - logHeaderSize) := by omega
    simp only
    rw [hsum, ← List.drop_drop, hdrop, List.drop_drop]
  induction offset, bytesToProcess, varbuf, hole using walk.induct query logmgmtMsg base with
  | case1 offset bytesToProcess varbuf hole hpos e he =>
    rw [walk_of_error hpos he, walk_of_error hpos (by rw [← hread _ _ hoff]; exact he)]
  | case2 offset bytesToProcess varbuf hole hpos r hr del hstuck =>
    rw [walk_of_stuck hpos hr hstuck,
      walk_of_stuck hpos (by rw [← hread _ _ hoff]; exact hr) hstuck]
  | case3 offset bytesToProcess varbuf hole hpos r hr del hrange ih =>
    have := readRecord_reclen hr
    rw [walk_of_ok hpos hr hrange, walk_of_ok hpos (by rw [← hread _ _ hoff]; exact hr) hrange,
      ih (by omega)]
  | case4 offset bytesToProcess varbuf hole hpos => rw [walk_of_stop hpos, walk_of_stop hpos]

theorem walkLog_congr (varbuf : List UInt8)
    (hdrop : base.drop logHeaderSize = base'.drop logHeaderSize)
    (hlen : base.length = base'.length) :
    walkLog query logmgmtMsg varbuf base = walkLog query logmgmtMsg varbuf base' := by
  rw [walkLog, walkLog, hlen, walk_congr hdrop (le_refl _)]

end Congr

/-! ## When nothing is lost -/

/-- What was moved is what it was moved onto; so in particular if no record
that is kept comes behind a deleted one. -/
def LandsOnItself (base : List UInt8) (hole : Hole) : Prop :=
  ∀ p ∈ hole, p.2 <+: base.drop p.1

/-- Moving bytes onto themselves, and nothing else, leaves the file. -/
theorem overlay_eq_self_iff (base moved : List UInt8) (start : Nat) :
    overlay base start moved = base ↔ moved <+: base.drop start := by
  have hsplit : base = base.take start ++ base.drop start := (List.take_append_drop _ _).symm
  rw [overlay, List.append_assoc]
  conv_lhs => rhs; rw [hsplit]
  rw [List.append_cancel_left_eq, ← List.drop_drop]
  constructor
  · intro heq
    exact ⟨_, heq⟩
  · rintro ⟨rest, hrest⟩
    rw [← hrest, List.drop_left' rfl]

/-- The records are as before exactly if all that was moved landed on
itself. -/
theorem fileWith_records_iff {hole : Hole}
    (hin : ∀ p ∈ hole, logHeaderSize ≤ p.1 ∧ p.1 + p.2.length ≤ base.length) :
    (fileWith base hole).drop logHeaderSize = base.drop logHeaderSize
      ↔ LandsOnItself base hole := by
  cases hole with
  | none => simp [fileWith, LandsOnItself]
  | some p =>
    obtain ⟨hge, hle⟩ := hin p rfl
    have htake : (overlay base p.1 p.2).take logHeaderSize = base.take logHeaderSize :=
      take_overlay (by omega) hge
    have hlands : LandsOnItself base (some p) ↔ p.2 <+: base.drop p.1 := by
      simp [LandsOnItself]
    rw [hlands, ← overlay_eq_self_iff]
    constructor
    · intro hdrop
      rw [← List.take_append_drop logHeaderSize (overlay base p.1 p.2), htake]
      exact (congrArg _ hdrop).trans (List.take_append_drop _ _)
    · intro heq
      exact congrArg (List.drop logHeaderSize) heq

theorem landsOnItself_congr {base' : List UInt8} {hole : Hole}
    (hdrop : base.drop logHeaderSize = base'.drop logHeaderSize)
    (hin : ∀ p ∈ hole, logHeaderSize ≤ p.1) :
    LandsOnItself base hole ↔ LandsOnItself base' hole := by
  refine forall₂_congr fun p hp => ?_
  have hsum : p.1 = logHeaderSize + (p.1 - logHeaderSize) := by
    have := hin p hp
    omega
  rw [hsum, ← List.drop_drop, hdrop, List.drop_drop]

theorem headerOk_of_take (h : HeaderOk base)
    (htake : content.take logHeaderSize = base.take logHeaderSize) : HeaderOk content := by
  have hlen : logHeaderSize ≤ content.length := by
    have := congrArg List.length htake
    rw [List.length_take, List.length_take, Nat.min_eq_left h.1] at this
    omega
  refine ⟨hlen, ?_⟩
  have hmagic : ∀ bs : List UInt8, logHeaderSize ≤ bs.length →
      (LogHeader.ofBytes bs).logMagic
        = UInt32.ofNat (leNat ((bs.take logHeaderSize).take 4)) := by
    intro bs _
    rw [List.take_take]
    rfl
  rw [hmagic content hlen, htake, ← hmagic base h.1]
  exact h.2

/-! ## Failed compactions -/

/-- After an error the records are as they were, or the complete backup is
still there. -/
def CompactLogResult.Atomic (r : CompactLogResult) (before : List UInt8) : Prop :=
  ∀ e, r.ret = some (.error e) →
    r.content.drop logHeaderSize = before.drop logHeaderSize ∨ r.backup = some before

/-- On a file with a good header the way out changes the generation only. -/
theorem compactExit_of_ok (h : HeaderOk content) (ret : Option (Except Errno Unit))
    (trail : List (List UInt8)) :
    (compactExit ret content trail).ret = ret
      ∧ (compactExit ret content trail).content.drop logHeaderSize = content.drop logHeaderSize
      ∧ (compactExit ret content trail).backup = none := by
  rw [compactExit, setGenerationNumber_of_ok h]
  exact ⟨rfl, withGeneration_drop h.1 _, rfl⟩

/-- With a backup made, a compaction is atomic exactly if its walk over the
log is not stopped by a corrupt record, or everything moved before that
record landed on itself. -/
theorem compact_atomic_iff (query : QueryEval) (logmgmtMsg varbuf : List UInt8) (force : Bool)
    (content : List UInt8) :
    (evlCompactLog query logmgmtMsg varbuf true force content).Atomic content
      ↔ (HeaderOk content → (walkLog query logmgmtMsg varbuf content).2 = some .eio →
          LandsOnItself content (slideLog (walkLog query logmgmtMsg varbuf content).1)) := by
  by_cases hok : HeaderOk content
  · simp only [hok, forall_true_left]
    generalize hodd : withGeneration content
      (SetGen.next .GEN_ODD (LogHeader.ofBytes content).logGeneration) = odd
    have hset : setGenerationNumber .GEN_ODD content = some odd := by
      rw [setGenerationNumber_of_ok hok, hodd]
    have hokodd : HeaderOk odd := hodd ▸ withGeneration_ok hok.1 _ hok
    have hdrop : odd.drop logHeaderSize = content.drop logHeaderSize :=
      hodd ▸ withGeneration_drop hok.1 _
    have hlen : odd.length = content.length := hodd ▸ withGeneration_length hok.1 _
    obtain ⟨hret, hcontent, -, -, hhead⟩ := compactLog_spec query logmgmtMsg varbuf hokodd.1
    have hin := slideLog_inside query logmgmtMsg varbuf hokodd.1
    have hokr := headerOk_of_take hokodd hhead
    rw [walkLog_congr varbuf hdrop hlen] at hret hcontent hin
    simp only [evlCompactLog, Bool.not_true, Bool.false_and, Bool.false_eq_true, if_false, hset]
    generalize walkLog query logmgmtMsg varbuf content = w at *
    generalize compactLog query logmgmtMsg varbuf odd = r at *
    cases hend : w.2 with
    | none =>
      rw [hend] at hret
      simp only [hret, reduceCtorEq, false_imp_iff, iff_true]
      intro e he
      rw [(compactExit_of_ok hokr _ _).1] at he
      exact absurd he (by simp)
    | some e =>
      cases e with
      | overrun =>
        rw [hend] at hret
        simp only [hret, Option.some.injEq, reduceCtorEq, false_imp_iff, iff_true]
        intro e he
        exact absurd he (by simp)
      | eio =>
        rw [hend] at hret hcontent
        simp only [hret, forall_true_left]
        obtain ⟨hret', hdrop', hbackup⟩ :=
          compactExit_of_ok hokr (some (.error .eio)) (odd :: r.trail)
        have hrecords : r.content.drop logHeaderSize = content.drop logHeaderSize
            ↔ LandsOnItself content (slideLog w.1) := by
          rw [hcontent, if_neg (by simp), ← hdrop, fileWith_records_iff hin]
          exact landsOnItself_congr hdrop fun p hp => (hin p hp).1
        rw [← hrecords]
        constructor
        · intro hatomic
          rcases hatomic .eio hret' with hsame | hback
          · rw [← hdrop', hsame]
          · rw [hbackup] at hback
            exact absurd hback (by simp)
        · intro hsame e _
          exact Or.inl (hdrop'.trans hsame)
  · simp only [hok, false_imp_iff, iff_true]
    simp only [evlCompactLog, Bool.not_true, Bool.false_and, Bool.false_eq_true, if_false,
      setGenerationNumber_of_not_ok hok, compactExit]
    exact fun e _ => Or.inl rfl

/-- Two records and 88 zero bytes, such as a file system may leave behind
after a crash. -/
def tornLog : List UInt8 :=
  freshLogHeader.toBytes ++ recordBytes [bareRecord 0, bareRecord 1] ++ List.replicate 88 0

def tornPass : Nat → CompactState
  | 0 => compactStart (withGeneration tornLog 1) []
  | n + 1 =>
    match compactStep queryTypeZero [65] (tornPass n) with
    | .ok c => c
    | .error _ => tornPass n

set_option maxRecDepth 20000

/-- Compacting it fails when the second record is already written over the
first, and the backup is gone. -/
theorem compact_not_atomic :
    ¬ (evlCompactLog queryTypeZero [65] [] true false tornLog).Atomic tornLog := by
  have hset : setGenerationNumber .GEN_ODD tornLog = some (withGeneration tornLog 1) := by
    decide
  have hloop : compactLoop queryTypeZero [65] (compactStart (withGeneration tornLog 1) [])
      = (tornPass 2, some .eio) := by
    have h₁ : compactStep queryTypeZero [65] (compactStart (withGeneration tornLog 1) [])
        = .ok (tornPass 1) := by decide
    have h₂ : compactStep queryTypeZero [65] (tornPass 1) = .ok (tornPass 2) := by decide
    have h₃ : compactStep queryTypeZero [65] (tornPass 2) = .error .eio := by decide
    rw [compactLoop_of_ok (by decide) h₁, compactLoop_of_ok (by decide) h₂,
      compactLoop_of_error (by decide) h₃]
  have hlog : compactLog queryTypeZero [65] [] (withGeneration tornLog 1)
      = ⟨some (.error .eio), (tornPass 2).file.content, (tornPass 2).numDelrec,
          (tornPass 2).trail⟩ := by
    rw [compactLog, if_neg (by decide), hloop]
  have hexit : setGenerationNumber .GEN_EVEN (tornPass 2).file.content
      = some (withGeneration (tornPass 2).file.content 2) := by decide
  intro hatomic
  simp only [evlCompactLog, Bool.not_true, Bool.false_and, Bool.false_eq_true, if_false, hset, hlog,
    compactExit, hexit] at hatomic
  rcases hatomic .eio rfl with hsame | hback
  · exact absurd hsame (by decide)
  · exact absurd hback (by simp)

end Evlog.Evlogmgr
