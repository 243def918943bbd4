/-
Evlog.Evlogmgr.TrailTheorems — what the writes of a maintenance run do to
the log.

A reader notices maintenance by the generation number alone. `WriteOk`
says what makes that sufficient: a write does not lower the number, and it
leaves all good records in place (`Intact`) unless the number is odd after
it. The writes of a compaction are such (`compact_chain`), since the first
makes the number odd and the last one, which makes it even again, moves
nothing.

A repair only touches the number when it is done. Its writes are such if
the number was odd before or if there is nothing to move: no good record
reaches behind the first place that `validateRec` rejects (`RepairOk`).
-/
import Evlog.Evlogmgr.PassTheorems
import Evlog.Evlogmgr.AtomicTheorems

namespace Evlog.Evlogmgr

open Evlog.Lib Evlog.Posix Relation
open Evlog.Lib.Machine (Goes)

/-! ## Writes that readers can live with -/

/-- `log_generation` of the file. -/
def generation (content : List UInt8) : Nat := (LogHeader.ofBytes content).logGeneration.toNat

/-- Every good record of `before` is still in its place. -/
def Intact (before now : List UInt8) : Prop :=
  ∀ offset bs, logHeaderSize ≤ offset → GoodRecord bs → bs <+: before.drop offset →
    bs <+: now.drop offset

/-- A write takes the log from `c` to `c'`. -/
structure WriteOk (c c' : List UInt8) : Prop where
  header : HeaderOk c'
  le : generation c ≤ generation c'
  odd_or_intact : generation c' % 2 = 1 ∨ Intact c c'

section Intact

variable {a b c : List UInt8}

theorem Intact.refl (a : List UInt8) : Intact a a := fun _ _ _ _ h => h

theorem Intact.trans (hab : Intact a b) (hbc : Intact b c) : Intact a c :=
  fun offset bs hle hgood h => hbc offset bs hle hgood (hab offset bs hle hgood h)

/-- What is only appended to, or has only its header changed, is intact. -/
theorem intact_of_prefixed (h : a.drop logHeaderSize <+: b.drop logHeaderSize) : Intact a b := by
  intro offset bs hle _ hbs
  obtain ⟨k, rfl⟩ : ∃ k, offset = logHeaderSize + k := ⟨offset - logHeaderSize, by omega⟩
  rw [← List.drop_drop] at hbs ⊢
  obtain ⟨rest, hrest⟩ := h
  rw [← hrest]
  refine hbs.trans ?_
  rw [List.drop_append]
  exact List.prefix_append ..

theorem generation_of_take
    (htake : a.take logHeaderSize = b.take logHeaderSize) : generation a = generation b := by
  have hfield : ∀ c : List UInt8, generation c = (UInt32.ofNat (leNat
      (((c.take logHeaderSize).drop logGenerationOffset).take 4))).toNat := by
    intro c
    rw [List.drop_take, List.take_take, Nat.min_eq_left (by decide)]
    simp only [generation, LogHeader.ofBytes, takeLE, List.drop_drop, logGenerationOffset]
  rw [hfield a, hfield b, htake]

theorem generation_withGeneration (h : logHeaderSize ≤ a.length) (gen : UInt32) :
    generation (withGeneration a gen) = gen.toNat := by
  rw [generation, withGeneration_header h]

theorem intact_withGeneration (h : logHeaderSize ≤ a.length) (gen : UInt32) :
    Intact a (withGeneration a gen) :=
  intact_of_prefixed (by rw [withGeneration_drop h])

end Intact

theorem next_odd {gen : UInt32} (h : gen.toNat + 2 < 2 ^ 32) :
    gen.toNat ≤ (SetGen.next .GEN_ODD gen).toNat ∧ (SetGen.next .GEN_ODD gen).toNat % 2 = 1
      ∧ (SetGen.next .GEN_ODD gen).toNat ≤ gen.toNat + 1 := by
  have hmod : gen % 2 = 0 ↔ gen.toNat % 2 = 0 := by
    rw [← UInt32.toNat_inj, UInt32.toNat_mod]
    rfl
  have hadd : (gen + 1).toNat = gen.toNat + 1 := by
    rw [UInt32.toNat_add]
    exact Nat.mod_eq_of_lt (by simp; omega)
  rw [SetGen.next]
  split_ifs with heven
  · rw [hmod] at heven
    omega
  · rw [hmod] at heven
    omega

theorem next_even {gen : UInt32} (h : gen.toNat + 1 < 2 ^ 32) :
    gen.toNat ≤ (SetGen.next .GEN_EVEN gen).toNat := by
  have hadd : (gen + 1).toNat = gen.toNat + 1 := by
    rw [UInt32.toNat_add]
    exact Nat.mod_eq_of_lt (by simp; omega)
  rw [SetGen.next]
  split_ifs
  · omega
  · exact le_rfl

variable {content base out : List UInt8}

theorem writeOk_even {even : List UInt8} (hgen : generation content + 1 < 2 ^ 32)
    (h : setGenerationNumber .GEN_EVEN content = some even) : WriteOk content even := by
  have hok : HeaderOk content := by
    by_contra hnot
    rw [setGenerationNumber_of_not_ok hnot] at h
    cases h
  rw [setGenerationNumber_of_ok hok] at h
  obtain rfl := Option.some.inj h
  refine ⟨withGeneration_ok hok.1 _ hok, ?_, .inr (intact_withGeneration hok.1 _)⟩
  rw [generation_withGeneration hok.1]
  exact next_even hgen

/-! ## Compaction -/

def Busy (content : List UInt8) : Prop := HeaderOk content ∧ generation content % 2 = 1

/-- Under a header that is busy, anything may be written behind it. -/
theorem writeOk_of_busy {a b : List UInt8} (hbusy : Busy base)
    (ha : a.take logHeaderSize = base.take logHeaderSize)
    (hb : b.take logHeaderSize = base.take logHeaderSize) : WriteOk a b := by
  refine ⟨headerOk_of_take hbusy.1 hb, ?_, .inl ?_⟩
  · rw [generation_of_take ha, generation_of_take hb]
  · rw [generation_of_take hb]
    exact hbusy.2

variable {trail : List (List UInt8)}

theorem moveRecordUp_last {f f' : OpenFile} {beginhole beginhole' : Int} {rechdr : List UInt8}
    {buf : Option (List UInt8)}
    (h : moveRecordUp f beginhole rechdr buf = some (f', beginhole', trail)) :
    trail.getLast? = some f'.content := by
  simp only [moveRecordUp] at h
  split at h
  · cases h
  · split at h
    · obtain ⟨rfl, -, rfl⟩ := h
      rfl
    · cases h

theorem compactLoop_last (query : QueryEval) (logmgmtMsg base : List UInt8) {c : CompactState}
    (h : (base :: c.trail).getLast? = some c.file.content) :
    (base :: (compactLoop query logmgmtMsg c).1.trail).getLast?
      = some (compactLoop query logmgmtMsg c).1.file.content := by
  induction c using compactLoop.induct query logmgmtMsg with
  | case1 c hpos e hstep =>
    rw [compactLoop_of_error hpos hstep]
    exact h
  | case2 c hpos c' hstep ih =>
    rw [compactLoop_of_ok hpos hstep]
    refine ih ?_
    obtain ⟨r, -, -, -, -, hcases⟩ := compactStep_cases hstep
    rcases hcases with ⟨-, -, hfile, -, htrail⟩ | ⟨-, -, -, trail, hmove, htrail⟩
        | ⟨-, -, -, hfile, -, htrail⟩
    · rw [hfile, htrail, h]
    · rw [htrail, ← List.cons_append, List.getLast?_append, moveRecordUp_last hmove]
      rfl
    · rw [hfile, htrail, h]
  | case3 c hpos =>
    rw [compactLoop_of_stop hpos]
    exact h

theorem compactLog_last (query : QueryEval) (logmgmtMsg varbuf base : List UInt8) :
    (base :: (compactLog query logmgmtMsg varbuf base).trail).getLast?
      = some (compactLog query logmgmtMsg varbuf base).content := by
  have hlast := compactLoop_last query logmgmtMsg base (c := compactStart base varbuf) rfl
  rw [compactLog]
  split_ifs with hempty
  · rfl
  · split
    · rename_i hloop
      rw [hloop] at hlast
      exact hlast
    · rename_i hloop
      rw [hloop] at hlast
      exact hlast
    · rename_i hloop
      rw [hloop] at hlast
      split_ifs
      · rw [← List.cons_append, List.getLast?_append]
        rfl
      · exact hlast

/-- The way out of a compaction, when everything written before leaves the
log busy. -/
theorem compactExit_chain (ret : Option (Except Errno Unit)) {last : List UInt8}
    (hchain : (content :: trail).IsChain WriteOk) (hlast : (content :: trail).getLast? = some last)
    (hgen : generation last + 1 < 2 ^ 32) (hbusy : ∀ c ∈ trail, Busy c) :
    (content :: (compactExit ret last trail).trail).IsChain WriteOk
      ∧ ∀ c ∈ (compactExit ret last trail).trail.dropLast, Busy c := by
  rw [compactExit]
  split
  · rename_i even heven
    refine ⟨?_, by simpa using hbusy⟩
    rw [← List.cons_append, List.isChain_append]
    refine ⟨hchain, .singleton _, ?_⟩
    intro x hx y hy
    rw [hlast] at hx
    obtain rfl := Option.some.inj hx
    obtain rfl := Option.some.inj hy
    exact writeOk_even hgen heven
  · exact ⟨hchain, fun c hc => hbusy c (List.mem_of_mem_dropLast hc)⟩

/-- The writes of a compaction, and that all but the last leave the log
busy. -/
theorem compact_chain (query : QueryEval) (logmgmtMsg varbuf : List UInt8) (backupMade force : Bool)
    (hok : HeaderOk content) (hgen : generation content + 2 < 2 ^ 32) :
    (content :: (evlCompactLog query logmgmtMsg varbuf backupMade force content).trail).IsChain
        WriteOk
      ∧ ∀ c ∈ (evlCompactLog query logmgmtMsg varbuf backupMade force content).trail.dropLast,
          Busy c := by
  rw [evlCompactLog]
  split
  · exact compactExit_chain _ (.singleton _) rfl (by omega) (by simp)
  · rw [setGenerationNumber_of_ok hok]
    dsimp only
    obtain ⟨hle, hmod, hmax⟩ := next_odd (show _ + 2 < 2 ^ 32 from hgen)
    generalize hodd : withGeneration content
      (SetGen.next .GEN_ODD (LogHeader.ofBytes content).logGeneration) = odd
    have hgenodd : generation odd = (SetGen.next .GEN_ODD
        (LogHeader.ofBytes content).logGeneration).toNat := by
      rw [← hodd, generation_withGeneration hok.1]
    have hbusy : Busy odd := ⟨hodd ▸ withGeneration_ok hok.1 _ hok, by rw [hgenodd]; exact hmod⟩
    have hfirst : WriteOk content odd :=
      ⟨hbusy.1, by rw [hgenodd]; exact hle, .inl hbusy.2⟩
    obtain ⟨-, -, -, htrail, htake⟩ := compactLog_spec query logmgmtMsg varbuf hbusy.1.1
    have hlast := compactLog_last query logmgmtMsg varbuf odd
    generalize compactLog query logmgmtMsg varbuf odd = r at *
    -- the pass does not touch the header
    have hheads : ∀ t ∈ odd :: r.trail, t.take logHeaderSize = odd.take logHeaderSize := by
      intro t ht
      rcases List.mem_cons.1 ht with rfl | ht
      · rfl
      · exact htrail t ht
    have hbusy' : ∀ t ∈ odd :: r.trail, Busy t := by
      intro t ht
      refine ⟨headerOk_of_take hbusy.1 (hheads t ht), ?_⟩
      rw [generation_of_take (hheads t ht)]
      exact hbusy.2
    have hpass : (odd :: r.trail).IsChain WriteOk := by
      refine List.Pairwise.isChain (List.pairwise_of_forall_mem_list ?_)
      intro a ha b hb
      exact writeOk_of_busy hbusy (hheads a ha) (hheads b hb)
    have hchain : (content :: odd :: r.trail).IsChain WriteOk :=
      List.isChain_cons_cons.2 ⟨hfirst, hpass⟩
    split
    · exact ⟨hchain, fun c hc => hbusy' c (List.mem_of_mem_dropLast hc)⟩
    · refine compactExit_chain _ hchain ?_ ?_ hbusy'
      · rw [List.getLast?_cons_cons, hlast]
      · rw [generation_of_take htake, hgenodd]
        simp only [generation] at hgen
        omega

/-! ## Repair -/

/-- A repair that readers can live with: the log is busy and the header
stays out of it; or there is nothing it could move or remove. -/
def RepairOk (content : List UInt8) : Prop :=
  (Busy content ∧ ∀ base bad, Reaches content base → StopsAt base bad → logHeaderSize ≤ bad)
    ∨ ∀ bad, StopsAt content bad → logHeaderSize ≤ bad
      ∧ ∀ offset bs, logHeaderSize ≤ offset → GoodRecord bs → bs <+: content.drop offset →
        offset + bs.length ≤ bad

variable {s : RepairState}

/-- What holds of every write the machine makes from states in `P`. -/
theorem repairTrail_all {P : RepairState → Prop} {Q : List UInt8 → Prop}
    (hstep : ∀ s, P s → (∀ t ∈ (repairStep s).2, Q t) ∧ ∀ s', (repairStep s).1 = .inl s' → P s')
    (n : Nat) (hs : P s) : ∀ t ∈ (repairTrail n s).1, Q t := by
  induction n generalizing s with
  | zero => simp [repairTrail]
  | succ n ih =>
    obtain ⟨htrail, hnext⟩ := hstep s hs
    rw [repairTrail]
    split
    · rename_i s' trail heq
      rw [heq] at htrail hnext
      intro t ht
      rcases List.mem_append.1 ht with ht | ht
      · exact htrail t ht
      · exact ih (hnext s' rfl) t ht
    · rename_i e trail heq
      rw [heq] at htrail
      exact htrail

/-- A repair that succeeds has left the file as its last write says. -/
theorem repairStep_done {status : Bool} (h : repairStep s = (.inr (.done out status), trail)) :
    trail = [out] := by
  rw [repairStep] at h
  cases hpc : s.pc with
  | outer =>
    rw [hpc] at h
    simp only at h
    split at h
    · split at h
      · cases h
      · split at h
        · simp only [Prod.mk.injEq, Sum.inr.injEq] at h
          rw [← h.2, h.1, RepairEnd.content]
        · cases h
    · simp only [Prod.mk.injEq, Sum.inr.injEq] at h
      rw [← h.2, h.1, RepairEnd.content]
  | inner =>
    rw [hpc] at h
    simp only at h
    split_ifs at h
    · simp at h
    · simp at h
    · split at h
      · cases h
      · cases h
    · cases h

theorem repairTrail_done {n : Nat} {status : Bool}
    (h : (repairTrail n s).2 = some (.done out status)) :
    (repairTrail n s).1.getLast? = some out := by
  induction n generalizing s with
  | zero => simp [repairTrail] at h
  | succ n ih =>
    rw [repairTrail] at h ⊢
    split at h
    · rename_i s' trail heq
      simp only [List.getLast?_append, ih h, Option.some_or]
    · rename_i e trail heq
      obtain rfl := Option.some.inj h
      rw [repairStep_done heq]
      rfl

/-- If any two of the files can follow each other, the writes are in
order. -/
theorem repair_chain_of {Q : List UInt8 → Prop} (hcontent : Q content)
    (hgen : generation content + 1 < 2 ^ 32)
    (hQ : ∀ a b, Q a → Q b → WriteOk a b ∧ generation a = generation b) (turns : Nat)
    (hall : ∀ t ∈ (repairTrail turns (repairStart content)).1, Q t) :
    (content :: evlRepairLog turns content).IsChain WriteOk := by
  have hall' : ∀ t ∈ content :: (repairTrail turns (repairStart content)).1, Q t := by
    intro t ht
    rcases List.mem_cons.1 ht with rfl | ht
    · exact hcontent
    · exact hall t ht
  have hchain : (content :: (repairTrail turns (repairStart content)).1).IsChain WriteOk := by
    refine List.Pairwise.isChain (List.pairwise_of_forall_mem_list ?_)
    intro a ha b hb
    exact (hQ a b (hall' a ha) (hall' b hb)).1
  rw [evlRepairLog]
  split
  · exact .singleton _
  · split
    · rename_i trail out status htrail
      have hlast := repairTrail_done (congrArg Prod.snd htrail)
      rw [htrail] at hlast hall hchain
      simp only at hlast hchain
      split
      · rename_i even heven
        have hout : Q out := hall out (List.mem_of_getLast? hlast)
        rw [← List.cons_append, List.isChain_append]
        refine ⟨hchain, .singleton _, ?_⟩
        intro x hx y hy
        rw [List.getLast?_cons, hlast] at hx
        obtain rfl := Option.some.inj hx
        obtain rfl := Option.some.inj hy
        refine writeOk_even ?_ heven
        simp only [Option.getD_some]
        rw [(hQ out content hout hcontent).2]
        exact hgen
      · exact hchain
    · rename_i trail e hne htrail
      rw [htrail] at hchain
      exact hchain

/-- Where the machine is in one of its passes. -/
inductive RepairAt (content : List UInt8) : RepairState → Prop
  | walking {base : List UInt8} {offset : Nat} {status : Bool} (hreach : Reaches content base)
      (hwalk : Walks base offset) : RepairAt content (walkingAt base offset status)
  | moving {base moved : List UInt8} {bad next offset : Nat} (hreach : Reaches content base)
      (hstops : StopsAt base bad) (hsearch : searchForNextGoodRecord base bad = some next)
      (hmoved : (movedFrom base next).1.flatten = moved ++ (movedFrom base offset).1.flatten)
      (hend : (movedFrom base next).2 = (movedFrom base offset).2)
      (hbehind : bad + moved.length ≤ offset) (hin : bad + moved.length ≤ base.length) :
      RepairAt content (movingAt base bad moved offset)
  | moved {base moved : List UInt8} {bad offset : Nat} (hreach : Reaches content base)
      (hstops : StopsAt base bad) (hend : base.length ≤ offset) :
      RepairAt content (movedAt base bad moved offset)

theorem walking_step {offset : Nat} (hpos : 0 < offset) (hwalk : Walks base offset) (status : Bool) :
    (base.length ≤ offset
        ∧ repairStep (walkingAt base offset status) = (.inr (.done base status), [base]))
      ∨ (∃ next, Walks base next
        ∧ repairStep (walkingAt base offset status) = (.inl (walkingAt base next status), []))
      ∨ (StopsAt base offset ∧ repairStep (walkingAt base offset status)
          = (.inr (.done (base.take offset) true), [base.take offset]))
      ∨ ∃ next, StopsAt base offset ∧ searchForNextGoodRecord base offset = some next
        ∧ repairStep (walkingAt base offset status) = (.inl (movingAt base offset [] next), []) := by
  by_cases hlt : offset < base.length
  · cases hnext : validateRec base offset with
    | some next =>
      refine .inr (.inl ⟨next, hwalk.tail (accept_eq_some_iff.2 ⟨hlt, hnext⟩), ?_⟩)
      exact step_accept hlt hnext
    | none =>
      cases hsearch : searchForNextGoodRecord base offset with
      | none => exact .inr (.inr (.inl ⟨⟨hwalk, hlt, hnext⟩, step_cut hpos hlt hnext hsearch⟩))
      | some next =>
        exact .inr (.inr (.inr ⟨next, ⟨hwalk, hlt, hnext⟩, rfl, step_found hlt hnext hsearch⟩))
  · exact .inl ⟨by omega, step_end (by omega)⟩

/-- A repair that does not reach into the header leaves it alone. -/
theorem repairAt_step (hsize : content.length < 2 ^ 62)
    (hbehind : ∀ base bad, Reaches content base → StopsAt base bad → logHeaderSize ≤ bad)
    (h : RepairAt content s) :
    (∀ t ∈ (repairStep s).2, t.take logHeaderSize = content.take logHeaderSize)
      ∧ ∀ s', (repairStep s).1 = .inl s' → RepairAt content s' := by
  have hhead : ∀ {base}, Reaches content base →
      base.take logHeaderSize = content.take logHeaderSize := by
    intro base hreach
    induction hreach with
    | refl => rfl
    | @tail mid last hmid hlast ih =>
      obtain ⟨bad, hstops, next, hsearch, -, rfl⟩ := hlast
      rw [take_overlay hstops.2.1.le (hbehind mid bad hmid hstops), ih]
  have hover : ∀ {base bad} moved, Reaches content base → StopsAt base bad →
      (overlay base bad moved).take logHeaderSize = content.take logHeaderSize := by
    intro base bad moved hreach hstops
    rw [take_overlay hstops.2.1.le (hbehind base bad hreach hstops), hhead hreach]
  cases h with
  | @walking base offset status hreach hwalk =>
    have hsize' : base.length < 2 ^ 62 := by
      rw [hreach.length_eq]
      exact hsize
    rcases walking_step (walks_pos hsize' hwalk) hwalk status with
      ⟨hle, hstep⟩ | ⟨next, hnext, hstep⟩ | ⟨hstops, hstep⟩ | ⟨next, hstops, hsearch, hstep⟩
    · rw [hstep]
      exact ⟨by simpa using hhead hreach, by simp⟩
    · rw [hstep]
      refine ⟨by simp, ?_⟩
      rintro s' ⟨⟩
      exact .walking hreach hnext
    · rw [hstep]
      refine ⟨?_, by simp⟩
      simp only [List.mem_singleton, forall_eq]
      rw [List.take_take, Nat.min_eq_left (hbehind base offset hreach hstops), hhead hreach]
    · rw [hstep]
      refine ⟨by simp, ?_⟩
      rintro s' ⟨⟩
      have hle := (search_spec hsearch).1
      exact .moving hreach hstops hsearch rfl rfl (by simpa using hle)
        (by simpa using hstops.2.1.le)
  | @moving base moved bad next offset hreach hstops hsearch hmoved hend hbehind' hin =>
    have hstart := hstops.2.1.le
    by_cases hlt : offset < base.length
    · by_cases hshort : base.length < offset + recHdrSize
      · rw [step_short hstart hbehind' hlt hshort]
        exact ⟨by simp, by simp⟩
      · cases hmov : movable base offset with
        | none =>
          rw [step_stuck hstart hbehind' hin (by omega) hmov]
          refine ⟨by simp, ?_⟩
          rintro s' ⟨⟩
          rw [movedFrom_stuck (by omega) hmov] at hmoved hend
          refine .walking (hreach.tail ⟨bad, hstops, next, hsearch, hend, ?_⟩) .refl
          rw [hmoved, List.flatten_nil, List.append_nil]
        | some bs =>
          have hlen := movable_length hmov
          rw [step_move hstart hbehind' hmov]
          refine ⟨?_, ?_⟩
          · simp only [List.mem_cons, List.not_mem_nil, or_false, forall_eq_or_imp, forall_eq]
            exact ⟨hover _ hreach hstops, hover _ hreach hstops⟩
          · rintro s' ⟨⟩
            rw [movedFrom_cons hmov] at hmoved hend
            refine .moving hreach hstops hsearch ?_ hend ?_ ?_
            · rw [hmoved, List.flatten_cons, List.append_assoc]
            · rw [List.length_append]
              omega
            · rw [List.length_append]
              omega
    · rw [step_out (by omega)]
      refine ⟨by simp, ?_⟩
      rintro s' ⟨⟩
      exact .moved hreach hstops (by omega)
  | @moved base moved bad offset hreach hstops hend =>
    have hpos : 0 < bad := by
      have := hbehind base bad hreach hstops
      simp only [logHeaderSize] at this
      omega
    rw [step_moved hpos hstops.2.1.le hend]
    refine ⟨?_, by simp⟩
    have hge := hbehind base bad hreach hstops
    have hle := hstops.2.1.le
    simp only [List.mem_singleton, forall_eq]
    rw [List.take_append_of_le_length (by rw [List.length_take]; omega), List.take_take,
      Nat.min_eq_left hge, hhead hreach]

/-- Where the machine is when there is nothing to move. -/
inductive QuietAt (content : List UInt8) : RepairState → Prop
  | walking {offset : Nat} {status : Bool} (hwalk : Walks content offset) :
      QuietAt content (walkingAt content offset status)
  | moving {bad next : Nat} (hstops : StopsAt content bad)
      (hsearch : searchForNextGoodRecord content bad = some next) :
      QuietAt content (movingAt content bad [] next)

structure SameRecords (content t : List UInt8) : Prop where
  head : t.take logHeaderSize = content.take logHeaderSize
  keeps : Intact content t
  adds : Intact t content

theorem quietAt_step (hsize : content.length < 2 ^ 62)
    (hquiet : ∀ bad, StopsAt content bad → logHeaderSize ≤ bad
      ∧ ∀ offset bs, logHeaderSize ≤ offset → GoodRecord bs → bs <+: content.drop offset →
        offset + bs.length ≤ bad) (h : QuietAt content s) :
    (∀ t ∈ (repairStep s).2, SameRecords content t)
      ∧ ∀ s', (repairStep s).1 = .inl s' → QuietAt content s' := by
  cases h with
  | @walking offset status hwalk =>
    rcases walking_step (walks_pos hsize hwalk) hwalk status with
      ⟨hle, hstep⟩ | ⟨next, hnext, hstep⟩ | ⟨hstops, hstep⟩ | ⟨next, hstops, hsearch, hstep⟩
    · rw [hstep]
      exact ⟨by simpa using ⟨rfl, .refl _, .refl _⟩, by simp⟩
    · rw [hstep]
      refine ⟨by simp, ?_⟩
      rintro s' ⟨⟩
      exact .walking hnext
    · obtain ⟨hge, hends⟩ := hquiet offset hstops
      rw [hstep]
      refine ⟨?_, by simp⟩
      simp only [List.mem_singleton, forall_eq]
      refine ⟨by rw [List.take_take, Nat.min_eq_left hge], ?_, intact_of_prefixed ?_⟩
      · intro place bs hplace hgood hpre
        have hend := hends place bs hplace hgood hpre
        rw [List.drop_take]
        exact (List.prefix_take_iff).2 ⟨hpre, by omega⟩
      · rw [List.drop_take]
        exact List.take_prefix _ _
    · rw [hstep]
      refine ⟨by simp, ?_⟩
      rintro s' ⟨⟩
      exact .moving hstops hsearch
  | @moving bad next hstops hsearch =>
    obtain ⟨hge, hends⟩ := hquiet bad hstops
    obtain ⟨hle, hnext, hfound⟩ := search_spec hsearch
    have hstart := hstops.2.1.le
    have hbehind : bad + ([] : List UInt8).length ≤ next := by simpa using hle
    by_cases hshort : content.length < next + recHdrSize
    · rw [step_short hstart hbehind hnext hshort]
      exact ⟨by simp, by simp⟩
    · have hmov : movable content next = none := by
        rw [movable, if_neg]
        rintro ⟨-, hrange, -⟩
        obtain ⟨bs, hgood, hpre, -⟩ := good_of_found hsize hfound hrange
        have hend := hends next bs (hge.trans hle) hgood hpre
        have hmin := hgood.length_bounds.1
        simp only [recHdrSize] at hmin
        omega
      rw [step_stuck hstart hbehind (by simpa using hstart) (by omega) hmov]
      refine ⟨by simp, ?_⟩
      rintro s' ⟨⟩
      rw [overlay_nil]
      exact .walking .refl

theorem repair_chain (hok : HeaderOk content) (hgen : generation content + 2 < 2 ^ 32)
    (hsize : content.length < 2 ^ 62) (hrepair : RepairOk content) (turns : Nat) :
    (content :: evlRepairLog turns content).IsChain WriteOk := by
  rcases hrepair with ⟨hbusy, hbehind⟩ | hquiet
  · refine repair_chain_of (Q := fun t => t.take logHeaderSize = content.take logHeaderSize) rfl
      (by omega) ?_ turns ?_
    · intro a b ha hb
      exact ⟨writeOk_of_busy hbusy ha hb, generation_of_take (ha.trans hb.symm)⟩
    · have hstart : RepairAt content (repairStart content) := .walking .refl .refl
      exact repairTrail_all (fun s => repairAt_step hsize hbehind) turns hstart
  · refine repair_chain_of (Q := SameRecords content) ⟨rfl, .refl _, .refl _⟩ (by omega) ?_ turns ?_
    · intro a b ha hb
      have hgeneration := generation_of_take (ha.head.trans hb.head.symm)
      exact ⟨⟨headerOk_of_take hok hb.head, hgeneration.le, .inr (ha.adds.trans hb.keeps)⟩,
        hgeneration⟩
    · have hstart : QuietAt content (repairStart content) := .walking .refl
      exact repairTrail_all (fun s => quietAt_step hsize hquiet) turns hstart

end Evlog.Evlogmgr
