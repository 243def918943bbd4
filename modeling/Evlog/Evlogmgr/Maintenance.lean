/-
Evlog.Evlogmgr.Maintenance — a log with readers and maintenance runs.

Readers open the log (`_evlOpen`), read and seek in it; evlogmgr compacts
or repairs it, evlogd appends to it. Maintenance and evlogd take the write
lock of the file, so they take turns; readers do not look at that lock.
One step is one call of a reader, one append, or one write of the
maintenance run under way. A run may also be killed between two writes; the
lock is free then, and the file stays as it was left.

Every write of a maintenance run is made by a function that takes the
whole file, so a run is the list of the files its writes leave behind
(`evlCompactLog`, `evlRepairLog`); `pending` are those still to be made.
A repair need not end: it is started with the number of turns it gets
before it is killed at the latest, and that number is arbitrary.

`opened` and `seen` record what the file was when a descriptor was opened
and what it has been since. No function of the code reads them.

A descriptor is opened at an even generation number. In every run whose
repairs are in order (`StepOk`) the number never falls, and whatever has
disturbed a record since has raised it (`DescOk`, `descOk_write`). The rest
of `Inv` says so of the writes still to come, and that those of a compaction
leave the log busy until the last.
-/
import Evlog.Evlogmgr.Repair
import Evlog.Lib.Transition
import Evlog.Evlogmgr.TrailTheorems

namespace Evlog.Evlogmgr

open Evlog.Lib Evlog.Posix

/-- A maintenance run under way, or dead. -/
structure Running where
  /-- A compaction, not a repair. -/
  compaction : Bool
  /-- It has made a write. -/
  started : Bool
  pending : List (List UInt8)
  dead : Bool

/-- An open log descriptor. The file in it is the one of the last call. -/
structure Descriptor where
  logd : LogDesc
  opened : List UInt8
  seen : List (List UInt8)

structure System where
  content : List UInt8
  running : Option Running
  descs : List Descriptor

def Descriptor.now (d : Descriptor) (content : List UInt8) : LogDesc :=
  { d.logd with ldFile := ⟨content, d.logd.ldFile.offset⟩ }

def System.free (s : System) : Bool :=
  match s.running with
  | none => true
  | some r => r.dead || r.pending.isEmpty

def System.write (s : System) (content : List UInt8) : System :=
  { s with content := content
           descs := s.descs.map fun d => { d with seen := content :: d.seen } }

inductive Action where
  | open
  | read (i : Nat) (entry : Bool) (buf : Option Nat)
  | seek (i : Nat) (query : Option PosixLogQuery) (direction : SeekDirection)
  /-- evlogd appends to the log. -/
  | append (bytes : List UInt8)
  | compact (query : QueryEval) (logmgmtMsg varbuf : List UInt8) (backupMade force : Bool)
  | repair (turns : Nat)
  /-- The maintenance run makes its next write. -/
  | tick
  /-- The maintenance run is killed. -/
  | kill

/-- The call `op` on the `i`-th descriptor, if there is one. -/
def System.onDesc (s : System) (i : Nat) (op : LogDesc → LogDesc) : System :=
  match s.descs[i]? with
  | none => s
  | some d => { s with descs := s.descs.set i { d with logd := op (d.now s.content) } }

def System.start (s : System) (compaction : Bool) (pending : List (List UInt8)) : System :=
  if s.free then
    { s with running := some { compaction := compaction, started := false, pending := pending
                               dead := false } }
  else s

def System.step (s : System) : Action → System
  | .open =>
    match evlOpen s.content with
    | .error _ => s
    | .ok logd => { s with descs := ⟨logd, s.content, [s.content]⟩ :: s.descs }
  | .read i entry buf => s.onDesc i fun logd => (posixLogRead logd entry buf).2
  | .seek i query direction => s.onDesc i fun logd => (posixLogSeek logd query direction).2
  | .append bytes => if s.free then s.write (s.content ++ bytes) else s
  | .compact query logmgmtMsg varbuf backupMade force =>
    s.start true (evlCompactLog query logmgmtMsg varbuf backupMade force s.content).trail
  | .repair turns => s.start false (evlRepairLog turns s.content)
  | .tick =>
    match s.running with
    | some { compaction, pending := content :: pending, dead := false, .. } =>
      { s.write content with
        running := some { compaction := compaction, started := true, pending := pending
                          dead := false } }
    | _ => s
  | .kill => { s with running := s.running.map fun r => { r with dead := true } }

def System.init (content : List UInt8) : System := ⟨content, none, []⟩

/-! ## The property -/

/-- A good record that was there when the log was opened has not been in
its place ever since. -/
def Disturbed (d : Descriptor) : Prop := ∃ c ∈ d.seen, ¬ Intact d.opened c

/-- A disturbed descriptor can not be used, and a log in the middle of a
compaction can not be opened. -/
structure Noticed (s : System) : Prop where
  readers : ∀ d ∈ s.descs, Disturbed d →
    (∀ entry buf, (posixLogRead (d.now s.content) entry buf).1 = .error .ebadf)
      ∧ ∀ query direction, (posixLogSeek (d.now s.content) query direction).1 = .error .ebadf
  busy : ∀ r, s.running = some r → r.compaction = true → r.started = true → r.pending ≠ [] →
    evlOpen s.content = .error .ebusy

/-- The generation number is below its wrap-around, and a repair is one
that readers can live with. -/
def StepOk (s : System) : Action → Prop
  | .compact .. => generation s.content + 2 < 2 ^ 32
  | .repair _ =>
    generation s.content + 2 < 2 ^ 32 ∧ s.content.length < 2 ^ 62 ∧ RepairOk s.content
  | _ => True

/-! ## The invariant -/

/-- What is true of an open descriptor. -/
structure DescOk (content : List UInt8) (d : Descriptor) : Prop where
  even : d.logd.ldGeneration.toNat % 2 = 0
  le : d.logd.ldGeneration.toNat ≤ generation content
  stale : Disturbed d → d.logd.ldGeneration.toNat < generation content
  intact : d.logd.ldGeneration.toNat = generation content → Intact d.opened content

structure Inv (s : System) : Prop where
  header : HeaderOk s.content
  descs : ∀ d ∈ s.descs, DescOk s.content d
  chain : ∀ r, s.running = some r → r.dead = false → (s.content :: r.pending).IsChain WriteOk
  rest : ∀ r, s.running = some r → r.compaction = true → ∀ c ∈ r.pending.dropLast, Busy c
  busy : ∀ r, s.running = some r → r.compaction = true → r.started = true → r.pending ≠ [] →
    Busy s.content

theorem descOk_write {c c' : List UInt8} {d : Descriptor} (hw : WriteOk c c') (h : DescOk c d) :
    DescOk c' { d with seen := c' :: d.seen } := by
  have hle := h.le
  have heven := h.even
  have hup := hw.le
  refine ⟨heven, by simp only; omega, ?_, ?_⟩
  · rintro ⟨t, ht, hnot⟩
    simp only at ht hnot ⊢
    rcases List.mem_cons.1 ht with rfl | ht
    · rcases hw.odd_or_intact with hodd | hintact
      · omega
      · -- with the number unchanged since the opening, nothing had moved before
        by_contra hge
        exact hnot ((h.intact (by omega)).trans hintact)
    · have := h.stale ⟨t, ht, hnot⟩
      omega
  · intro heq
    simp only at heq ⊢
    rcases hw.odd_or_intact with hodd | hintact
    · omega
    · exact (h.intact (by omega)).trans hintact

theorem descOk_call {content : List UInt8} {d : Descriptor} {logd : LogDesc} (h : DescOk content d)
    (hgen : logd.ldGeneration = d.logd.ldGeneration) : DescOk content { d with logd := logd } := by
  obtain ⟨h₁, h₂, h₃, h₄⟩ := h
  rw [← hgen] at h₁ h₂ h₃ h₄
  exact ⟨h₁, h₂, h₃, h₄⟩

theorem posixLogRead_generation (logd : LogDesc) (entry : Bool) (buf : Option Nat) :
    (posixLogRead logd entry buf).2.ldGeneration = logd.ldGeneration := by
  rw [posixLogRead]
  split_ifs
  · rfl
  · rfl
  · rfl

theorem posixLogSeek_generation (logd : LogDesc) (query : Option PosixLogQuery)
    (direction : SeekDirection) :
    (posixLogSeek logd query direction).2.ldGeneration = logd.ldGeneration := by
  unfold posixLogSeek
  split
  · rfl
  · split
    · rfl
    · cases direction with
      | POSIX_LOG_SEEK_START =>
        dsimp only
        split <;> rfl
      | POSIX_LOG_SEEK_END =>
        dsimp only
        split <;> rfl
      | POSIX_LOG_SEEK_FIRST => rfl
      | POSIX_LOG_SEEK_LAST => rfl
      | POSIX_LOG_SEEK_FORWARD => rfl
      | POSIX_LOG_SEEK_BACKWARD => rfl

section Steps

variable {s : System}

theorem inv_onDesc (h : Inv s) (i : Nat) {op : LogDesc → LogDesc}
    (hop : ∀ logd, (op logd).ldGeneration = logd.ldGeneration) : Inv (s.onDesc i op) := by
  rw [System.onDesc]
  split
  · exact h
  · rename_i d hd
    refine ⟨h.header, ?_, h.chain, h.rest, h.busy⟩
    intro d' hd'
    rcases List.mem_or_eq_of_mem_set hd' with hmem | rfl
    · exact h.descs d' hmem
    · exact descOk_call (h.descs d (List.mem_of_getElem? hd)) (hop _)

theorem inv_start (h : Inv s) {compaction : Bool} {pending : List (List UInt8)}
    (hchain : (s.content :: pending).IsChain WriteOk)
    (hrest : compaction = true → ∀ c ∈ pending.dropLast, Busy c) :
    Inv (s.start compaction pending) := by
  rw [System.start]
  split_ifs
  · refine ⟨h.header, h.descs, ?_, ?_, ?_⟩
    · rintro r ⟨⟩ -
      exact hchain
    · rintro r ⟨⟩
      exact hrest
    · rintro r ⟨⟩ - ⟨⟩
  · exact h

theorem descOk_writes (h : Inv s) {content : List UInt8} (hw : WriteOk s.content content) :
    ∀ d ∈ (s.write content).descs, DescOk content d := by
  intro d hd
  obtain ⟨d₀, hd₀, rfl⟩ := List.mem_map.1 hd
  exact descOk_write hw (h.descs d₀ hd₀)

theorem writeOk_append (hok : HeaderOk s.content) (bytes : List UInt8) :
    WriteOk s.content (s.content ++ bytes) := by
  have htake : (s.content ++ bytes).take logHeaderSize = s.content.take logHeaderSize :=
    List.take_append_of_le_length hok.1
  refine ⟨headerOk_of_take hok htake, (generation_of_take htake).ge, .inr (intact_of_prefixed ?_)⟩
  rw [List.drop_append_of_le_length hok.1]
  exact List.prefix_append ..

theorem inv_append (h : Inv s) (bytes : List UInt8) (hfree : s.free = true) :
    Inv (s.write (s.content ++ bytes)) := by
  have htake : (s.content ++ bytes).take logHeaderSize = s.content.take logHeaderSize :=
    List.take_append_of_le_length h.header.1
  have hw := writeOk_append h.header bytes
  refine ⟨hw.header, descOk_writes h hw, ?_, h.rest, ?_⟩
  · -- a live run that is over has nothing left to write
    intro r hr hlive
    have hover : r.pending = [] := by
      have hr' : s.running = some r := hr
      simpa [System.free, hr', hlive] using hfree
    rw [hover]
    exact .singleton _
  · intro r hr hcompact hstarted hne
    obtain ⟨hok, hodd⟩ := h.busy r hr hcompact hstarted hne
    refine ⟨hw.header, ?_⟩
    change generation (s.content ++ bytes) % 2 = 1
    rw [generation_of_take htake]
    exact hodd

theorem inv_tick (h : Inv s) : Inv (s.step .tick) := by
  simp only [System.step]
  split
  · rename_i compaction started content pending hr
    obtain ⟨hw, hchain⟩ := List.isChain_cons_cons.1 (h.chain _ hr rfl)
    have hrest := h.rest _ hr
    refine ⟨hw.header, descOk_writes h hw, ?_, ?_, ?_⟩
    · rintro r ⟨⟩ -
      exact hchain
    · rintro r ⟨⟩ hcompact c hc
      simp only at hcompact hc
      refine hrest hcompact c ?_
      cases pending with
      | nil => simp at hc
      | cons c' rest => exact List.mem_cons_of_mem _ hc
    · rintro r ⟨⟩ hcompact - hne
      simp only at hcompact hne
      refine hrest hcompact content ?_
      cases pending with
      | nil => exact absurd rfl hne
      | cons c' rest => exact List.mem_cons_self ..
  · exact h

theorem inv_kill (h : Inv s) : Inv (s.step .kill) := by
  refine ⟨h.header, h.descs, ?_, ?_, ?_⟩
  · intro r hr hlive
    obtain ⟨r₀, hr₀, rfl⟩ := Option.map_eq_some_iff.1 hr
    cases hlive
  · intro r hr
    obtain ⟨r₀, hr₀, rfl⟩ := Option.map_eq_some_iff.1 hr
    exact h.rest r₀ hr₀
  · intro r hr
    obtain ⟨r₀, hr₀, rfl⟩ := Option.map_eq_some_iff.1 hr
    exact h.busy r₀ hr₀

theorem isBusyLog_iff (content : List UInt8) :
    isBusyLog (LogHeader.ofBytes content) = true ↔ generation content % 2 = 1 := by
  rw [isBusyLog, generation, bne_iff_ne, ne_eq, ← UInt32.toNat_inj, UInt32.toNat_and]
  change ¬ _ &&& 1 = 0 ↔ _
  rw [Nat.and_one_is_mod]
  omega

theorem inv_open (h : Inv s) : Inv (s.step .open) := by
  simp only [System.step, evlOpen, h.header.2, ne_eq, not_true_eq_false, if_false]
  split
  · exact h
  · rename_i logd hopen
    split_ifs at hopen with hbusy
    obtain rfl := Except.ok.inj hopen
    rw [isBusyLog_iff] at hbusy
    refine ⟨h.header, ?_, h.chain, h.rest, h.busy⟩
    intro d hd
    rcases List.mem_cons.1 hd with rfl | hd
    · refine ⟨?_, le_rfl, ?_, fun _ => .refl _⟩
      · change generation s.content % 2 = 0
        omega
      · rintro ⟨c, hc, hnot⟩
        rw [List.mem_singleton.1 hc] at hnot
        exact absurd (Intact.refl _) hnot
    · exact h.descs d hd

/-- Every step that meets the condition keeps the invariant. -/
theorem inv_step (h : Inv s) {a : Action} (hok : StepOk s a) : Inv (s.step a) := by
  cases a with
  | «open» => exact inv_open h
  | read i entry buf => exact inv_onDesc h i fun logd => posixLogRead_generation logd entry buf
  | seek i query direction =>
    exact inv_onDesc h i fun logd => posixLogSeek_generation logd query direction
  | append bytes =>
    simp only [System.step]
    split_ifs with hfree
    · exact inv_append h bytes hfree
    · exact h
  | compact query logmgmtMsg varbuf backupMade force =>
    obtain ⟨hchain, hbusy⟩ :=
      compact_chain query logmgmtMsg varbuf backupMade force h.header hok
    exact inv_start h hchain fun _ => hbusy
  | repair turns =>
    obtain ⟨hgen, hsize, hrepair⟩ := hok
    exact inv_start h (repair_chain h.header hgen hsize hrepair turns) (by simp)
  | tick => exact inv_tick h
  | kill => exact inv_kill h

theorem noticed_of_inv (h : Inv s) : Noticed s := by
  constructor
  · intro d hd hdisturbed
    have hstale := (h.descs d hd).stale hdisturbed
    have hinvalid : evlValidateLogdes (d.now s.content) = false := by
      have hne : d.logd.ldGeneration ≠ (LogHeader.ofBytes s.content).logGeneration := by
        intro heq
        rw [heq] at hstale
        exact lt_irrefl _ hstale
      simp [evlValidateLogdes, Descriptor.now, hne]
    constructor
    · intro entry buf
      simp [posixLogRead, hinvalid]
    · intro query direction
      simp [posixLogSeek, hinvalid]
  · intro r hr hcompact hstarted hne
    obtain ⟨hok, hodd⟩ := h.busy r hr hcompact hstarted hne
    simp [evlOpen, hok.2, (isBusyLog_iff s.content).2 hodd]

end Steps

/-- Readers notice maintenance in every run whose repairs are in
order. -/
theorem readers_notice {content : List UInt8} (hok : HeaderOk content) {actions : List Action}
    (h : Meets System.step StepOk (System.init content) actions) :
    Noticed (run System.step (System.init content) actions) := by
  refine noticed_of_inv (run_invariant_of_meets Inv (fun s a hs => inv_step hs) ?_ h)
  exact ⟨hok, by simp [System.init], by simp [System.init], by simp [System.init],
    by simp [System.init]⟩

/-- A descriptor that has seen a good record leave its place. -/
theorem disturbed_of_head (s : System) (opened now : List UInt8) {bs : List UInt8} {offset : Nat}
    (hopened : s.descs.head?.map Descriptor.opened = some opened)
    (hseen : s.descs.head?.map (fun d => decide (now ∈ d.seen)) = some true)
    (hoffset : logHeaderSize ≤ offset) (hgood : GoodRecord bs) (hbefore : bs <+: opened.drop offset)
    (hnow : ¬ bs <+: now.drop offset) :
    ∃ d, s.descs.head? = some d ∧ d ∈ s.descs ∧ Disturbed d := by
  obtain ⟨d, hd, rfl⟩ := Option.map_eq_some_iff.1 hopened
  rw [hd] at hseen
  refine ⟨d, hd, List.mem_of_head? hd, now, by simpa using hseen, ?_⟩
  intro hintact
  exact hnow (hintact offset bs hoffset hgood hbefore)

theorem good_bareRecord : GoodRecord (bareRecord 0).toBytes :=
  ⟨by decide, by decide, by decide⟩

/-- A log of two records, of which the first is to be compacted away. -/
def agedLog : List UInt8 :=
  freshLogHeader.toBytes ++ recordBytes [bareRecord 0, bareRecord 1]

def agedPass : Nat → CompactState
  | 0 => compactStart (withGeneration agedLog 1) []
  | n + 1 =>
    match compactStep queryTypeZero [65] (agedPass n) with
    | .ok c => c
    | .error _ => agedPass n

/-- The second record is moved, the file cut, the generation made even. -/
def agedTrail : List (List UInt8) :=
  withGeneration agedLog 1 :: ((agedPass 2).trail
    ++ [withGeneration (freshLogHeader.toBytes ++ recordBytes [bareRecord 1]) 1])
    ++ [withGeneration (freshLogHeader.toBytes ++ recordBytes [bareRecord 1]) 2]

set_option maxRecDepth 20000

theorem agedLog_trail :
    (evlCompactLog queryTypeZero [65] [] true false agedLog).trail = agedTrail := by
  have hset : setGenerationNumber .GEN_ODD agedLog = some (withGeneration agedLog 1) := by
    decide
  have hloop : compactLoop queryTypeZero [65] (compactStart (withGeneration agedLog 1) [])
      = (agedPass 2, none) := by
    have h₁ : compactStep queryTypeZero [65] (compactStart (withGeneration agedLog 1) [])
        = .ok (agedPass 1) := by decide
    have h₂ : compactStep queryTypeZero [65] (agedPass 1) = .ok (agedPass 2) := by decide
    rw [compactLoop_of_ok (by decide) h₁, compactLoop_of_ok (by decide) h₂,
      compactLoop_of_stop (by decide)]
  have hcut : (agedPass 2).file.content.take (agedPass 2).fi.beginhole.toNat
      = withGeneration (freshLogHeader.toBytes ++ recordBytes [bareRecord 1]) 1 := by
    decide
  have hlog : compactLog queryTypeZero [65] [] (withGeneration agedLog 1)
      = ⟨some (.ok ()), withGeneration (freshLogHeader.toBytes ++ recordBytes [bareRecord 1]) 1,
          (agedPass 2).numDelrec, (agedPass 2).trail
            ++ [withGeneration (freshLogHeader.toBytes ++ recordBytes [bareRecord 1]) 1]⟩ := by
    rw [compactLog, if_neg (by decide), hloop]
    simp only [hcut]
    rw [if_pos (by decide)]
  have hexit : setGenerationNumber .GEN_EVEN
      (withGeneration (freshLogHeader.toBytes ++ recordBytes [bareRecord 1]) 1)
      = some (withGeneration (freshLogHeader.toBytes ++ recordBytes [bareRecord 1]) 2) := by
    decide
  simp only [evlCompactLog, Bool.not_true, Bool.false_and, Bool.false_eq_true, if_false, hset, hlog,
    compactExit, hexit, agedTrail, List.cons_append]

def agedRun : List Action :=
  [.open, .compact queryTypeZero [65] [] true false, .tick, .tick, .tick]

def agedSystem : System :=
  { content := agedTrail[2]
    running := some ⟨true, true, agedTrail.drop 3, false⟩
    descs := [⟨⟨logdMagic, 0, ⟨agedLog, logHeaderSize⟩⟩, agedLog,
      (agedTrail.take 3).reverse ++ [agedLog]⟩] }

theorem agedRun_system : run System.step (System.init agedLog) agedRun = agedSystem := by
  have hopen : evlOpen agedLog = .ok ⟨logdMagic, 0, ⟨agedLog, logHeaderSize⟩⟩ := by
    rw [evlOpen, if_neg (by decide), if_neg (by decide),
      show (LogHeader.ofBytes agedLog).logGeneration = 0 by decide]
  have htrail : agedTrail = agedTrail[0] :: agedTrail[1] :: agedTrail[2] :: agedTrail.drop 3 := by
    decide
  simp only [agedRun, run_cons, run_nil, System.init, System.step, hopen, System.start, System.free,
    if_true, agedLog_trail]
  rw [htrail]
  rfl

theorem readers_notice_compaction :
    ∃ d ∈ (run System.step (System.init agedLog) agedRun).descs, Disturbed d
      ∧ (posixLogRead (d.now (run System.step (System.init agedLog) agedRun).content) true none).1
        = .error .ebadf := by
  have hmeets : Meets System.step StepOk (System.init agedLog) agedRun := by
    refine ⟨trivial, ?_, trivial, trivial, trivial, trivial⟩
    change generation agedLog + 2 < 2 ^ 32
    decide
  have hnoticed := readers_notice (by decide) hmeets
  rw [agedRun_system] at hnoticed ⊢
  obtain ⟨d, -, hmem, hdisturbed⟩ := disturbed_of_head agedSystem agedLog agedTrail[2]
    (by decide) (by decide) le_rfl good_bareRecord (by decide)
    (by decide)
  exact ⟨d, hmem, hdisturbed, (hnoticed.readers d hmem hdisturbed).1 true none⟩

/-- A reader has the log open while a stray byte is repaired away. -/
def repairedRun : List Action := [.open, .repair 4, .tick, .tick, .tick, .tick]

/-- The record has moved, the generation number has not. -/
theorem readers_unaware : ¬ Noticed (run System.step (System.init strayLog) repairedRun) := by
  intro h
  obtain ⟨d, hd, hmem, hdisturbed⟩ := disturbed_of_head
    (run System.step (System.init strayLog) repairedRun) strayLog
    (freshLogHeader.toBytes ++ (bareRecord 0).toBytes)
    (by decide) (by decide) (show logHeaderSize ≤ 41 by decide) good_bareRecord
    (by decide) (by decide)
  have hread := (h.readers d hmem hdisturbed).1 true none
  have hok : (run System.step (System.init strayLog) repairedRun).descs.head?.map
      (fun d => (posixLogRead (d.now (run System.step (System.init strayLog) repairedRun).content)
        true none).1.toBool) = some true := by
    decide
  rw [hd, Option.map_some, hread] at hok
  cases hok

end Evlog.Evlogmgr
