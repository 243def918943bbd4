/-
Evlog.Evlogmgr.LogLife — a log over its life.

evlogd writes records to a log, or keeps them back while it does not get the
lock; in between evlogmgr deletes some; and libevl reads what is there. Three
models are put together here: the calls of `write_rec_to_log`, the pass of
`compactLog` over the same file, and `_evlRead`.

A compaction has the lock from its beginning to its end, so the calls of
evlogd during it do not get it and leave the file alone; so it is one event.
Each event is followed on two lists, the records in the file and those held
back (`logStep_keeps`), and `log_life` says what becomes of a record in any
sequence of events.
-/
import Evlog.Evlogd.LogWriteTheorems
import Evlog.Evlogmgr.CompactTheorems

namespace Evlog.Evlogmgr

open Evlog.Lib Evlog.Posix Evlog.Evlogd Evlog.Evlogd.LogState

/-! ## Two compactions -/

theorem content_compactLog (query : QueryEval) (logmgmtMsg varbuf : List UInt8) {hdr : List UInt8}
    (hhdr : hdr.length = logHeaderSize) (rs : List FileRecord) :
    (compactLog query logmgmtMsg varbuf (hdr ++ recordBytes rs)).content =
      hdr ++ recordBytes (keptRecords query logmgmtMsg rs) :=
  (compactLog_of_records query logmgmtMsg varbuf hdr hhdr rs).2.1

/-- Compactions compose. Two of them leave what one leaves that is asked
for either, so their order does not matter; and the second of two alike finds
nothing to delete and leaves the file as it is. -/
theorem compactLog_compose (query query' : QueryEval) (logmgmtMsg varbuf varbuf' varbuf'' hdr : List UInt8)
    (hhdr : hdr.length = logHeaderSize) (rs : List FileRecord) :
    (compactLog query' logmgmtMsg varbuf'
        (compactLog query logmgmtMsg varbuf (hdr ++ recordBytes rs)).content).content =
      (compactLog (fun e data => query e data || query' e data) logmgmtMsg varbuf''
        (hdr ++ recordBytes rs)).content ∧
    (compactLog query' logmgmtMsg varbuf'
        (compactLog query logmgmtMsg varbuf (hdr ++ recordBytes rs)).content).content =
      (compactLog query logmgmtMsg varbuf
        (compactLog query' logmgmtMsg varbuf' (hdr ++ recordBytes rs)).content).content ∧
    (compactLog query logmgmtMsg varbuf'
        (compactLog query logmgmtMsg varbuf (hdr ++ recordBytes rs)).content).numDelrec = 0 ∧
    (compactLog query logmgmtMsg varbuf'
        (compactLog query logmgmtMsg varbuf (hdr ++ recordBytes rs)).content).content =
      (compactLog query logmgmtMsg varbuf (hdr ++ recordBytes rs)).content := by
  simp only [content_compactLog _ _ _ hhdr, (compactLog_of_records _ _ _ _ hhdr _).2.2, keptRecords,
    List.filter_filter]
  refine ⟨?_, ?_, ?_, ?_⟩
  · congr 3
    funext r
    simp only [FileRecord.removed]
    cases query r.entry r.data <;> cases query' r.entry r.data <;> simp
  · congr 3
    funext r
    exact Bool.and_comm _ _
  · rw [List.countP_eq_zero]
    intro r hr
    have hkeep : (!r.removed query logmgmtMsg) = true := (List.mem_filter.1 hr).2
    rw [Bool.not_eq_true'] at hkeep
    exact Bool.eq_false_iff.1 hkeep
  · simp only [Bool.and_self]

/-- Of two records, the first goes with the first compaction and the second
with the next. -/
theorem compactLog_compose_two : (compactLog (fun _ _ => true) [65] []
        (compactLog queryTypeZero [65] [] (freshLogHeader.toBytes
          ++ recordBytes [bareRecord 0, bareRecord 1])).content).content =
      (compactLog (fun e data => queryTypeZero e data || true) [65] []
        (freshLogHeader.toBytes ++ recordBytes [bareRecord 0, bareRecord 1])).content :=
  (compactLog_compose queryTypeZero (fun _ _ => true) [65] [] [] [] freshLogHeader.toBytes (by simp)
    [bareRecord 0, bareRecord 1]).1

/-! ## The records of writers -/

/-- The magic that evlogmgr looks for. -/
def CarriesMagic (r : LogRecord) : Prop := r.entry.logMagic &&& 0xffff0000 = logrecMagicHiword

def Deletes (query : QueryEval) (logmgmtMsg : List UInt8) (r : LogRecord) : Bool :=
  query r.entry r.data &&
    cBytesAt (r.data ++ leBytes sizeSize (recHdrSize + r.data.length)) != logmgmtMsg

variable {query : QueryEval} {logmgmtMsg varbuf : List UInt8} {l : LogId} {hdr : LogHeader}
  {rs buffered : List LogRecord} {s : LogState}

theorem exists_fileRecords (query : QueryEval) (logmgmtMsg : List UInt8)
    (h : ∀ r ∈ rs, CarriesMagic r) :
    ∃ frs, rs.flatMap LogRecord.toBytes = recordBytes frs ∧
      recordBytes (keptRecords query logmgmtMsg frs) =
        (rs.filter fun r => !Deletes query logmgmtMsg r).flatMap LogRecord.toBytes := by
  induction rs with
  | nil => exact ⟨[], rfl, rfl⟩
  | cons r rs ih =>
    obtain ⟨frs, hbytes, hkept⟩ := ih fun r' hr' => h r' (List.mem_cons_of_mem r hr')
    have hr : CarriesMagic r := h r List.mem_cons_self
    have hrbytes : (FileRecord.ofLogRecord r hr).toBytes = r.toBytes := by
      rw [LogRecord.toBytes, ← r.size_eq]
      rfl
    have hremoved : (FileRecord.ofLogRecord r hr).removed query logmgmtMsg =
        Deletes query logmgmtMsg r := by
      have hentry : (FileRecord.ofLogRecord r hr).entry = r.entry := PosixLogEntry.ofBytes_toBytes _
      rw [FileRecord.removed, hentry]
      rfl
    refine ⟨.ofLogRecord r hr :: frs, ?_, ?_⟩
    · rw [List.flatMap_cons, recordBytes_cons, hrbytes, hbytes]
    · rw [keptRecords, List.filter_cons, List.filter_cons, hremoved]
      cases Deletes query logmgmtMsg r with
      | true => exact hkept
      | false => exact congrArg₂ (· ++ ·) hrbytes hkept

theorem content_compactLog_logBytes (varbuf : List UInt8) (h : ∀ r ∈ rs, CarriesMagic r) :
    (compactLog query logmgmtMsg varbuf (logBytes hdr rs)).content =
      logBytes hdr (rs.filter fun r => !Deletes query logmgmtMsg r) := by
  obtain ⟨frs, hbytes, hkept⟩ := exists_fileRecords query logmgmtMsg h
  rw [logBytes, hbytes, content_compactLog query logmgmtMsg varbuf hdr.toBytes_length, hkept, logBytes]

/-! ## Events -/

inductive LogEvent where
  | write (c : WriteCall)
  | compact (l : LogId) (query : QueryEval) (logmgmtMsg varbuf : List UInt8)

def LogEvent.call : LogEvent → Option WriteCall
  | .write c => some c
  | .compact .. => none

/-- The calls of `write_rec_to_log` for the log. -/
def callsOn (l : LogId) (es : List LogEvent) : List WriteCall :=
  (es.filterMap LogEvent.call).filter (·.log = l)

/-- The descriptor of evlogd keeps its offset when evlogmgr cuts the file. -/
def logStep (s : LogState) : LogEvent → Option LogState
  | .write c => writeCall s c
  | .compact l query logmgmtMsg varbuf =>
      some (s.setFile l ⟨(compactLog query logmgmtMsg varbuf (s.content l)).content,
        (s.linfo l).file.offset⟩)

/-- Of the records `rs` those in `rs'` are left, in their order, and every one
that none of the compactions asks for. -/
structure Remains (l : LogId) (es : List LogEvent) (rs rs' : List LogRecord) : Prop where
  sublist : rs'.Sublist rs
  kept : ∀ P : LogRecord → Bool,
    (∀ query logmgmtMsg varbuf, .compact l query logmgmtMsg varbuf ∈ es →
      ∀ r, P r = true → Deletes query logmgmtMsg r = false) → rs'.filter P = rs.filter P

theorem Remains.refl (l : LogId) (es : List LogEvent) (rs : List LogRecord) : Remains l es rs rs :=
  ⟨.refl rs, fun _ _ => rfl⟩

theorem carriesMagic_msgRecord (env : ProcInfo) (recid : Int32) (facility : UInt32)
    (eventType severity : Int32) (text : MsgText) :
    CarriesMagic (msgRecord env recid facility eventType severity text) :=
  (by decide : logMagicArch &&& 0xffff0000 = logrecMagicHiword)

theorem carriesMagic_of_explains {k k' : Nat} {cs : List WriteCall} {os : List Outcome}
    (h : Explains k cs os k') (hcs : ∀ c ∈ cs, CarriesMagic c.record) :
    ∀ r ∈ os.filterMap Outcome.kept, CarriesMagic r := by
  induction h with
  | nil => simp
  | buffered _ _ ih | written _ _ ih =>
    obtain ⟨hc, hrest⟩ := List.forall_mem_cons.1 hcs
    exact List.forall_mem_cons.2 ⟨hc, ih hrest⟩
  | dropped _ _ ih => exact ih (List.forall_mem_cons.1 hcs).2
  | reported recid _ _ _ ih =>
    obtain ⟨hc, hrest⟩ := List.forall_mem_cons.1 hcs
    exact List.forall_mem_cons.2 ⟨carriesMagic_msgRecord .., List.forall_mem_cons.2 ⟨hc, ih hrest⟩⟩

/-- The condition on an event: what evlogd writes carries the magic number,
and the count of drops does not wrap around. -/
def EventOk (l : LogId) (s : LogState) : LogEvent → Prop
  | .write c => CarriesMagic c.record ∧ Counted l s c
  | .compact .. => True

/-- One event, on the two lists. -/
theorem logStep_keeps (h : Holds s l hdr rs buffered) (hmagic : ∀ r ∈ rs ++ buffered, CarriesMagic r)
    (e : LogEvent) (he : EventOk l s e) {k : Nat} (hk : (s.drops l).toInt = k) :
    ∃ s' outcomes rs' buffered' k', logStep s e = some s' ∧ Holds s' l hdr rs' buffered' ∧
      Remains l [e] (rs ++ buffered ++ outcomes.filterMap Outcome.kept) (rs' ++ buffered') ∧
      (∀ r ∈ outcomes.filterMap Outcome.kept, CarriesMagic r) ∧
      (s'.drops l).toInt = (k' : Nat) ∧
      ∀ es os unreported, Explains k' (callsOn l es) os unreported →
        Explains k (callsOn l (e :: es)) (outcomes ++ os) unreported := by
  have hnone : ∀ {rs'}, Remains l [e] (rs ++ buffered) rs' →
      Remains l [e] (rs ++ buffered ++ [].filterMap Outcome.kept) rs' := by
    intro rs' h'
    rwa [List.filterMap_nil, List.append_nil]
  cases e with
  | write c =>
    by_cases hc : c.log = l
    · obtain ⟨s', outcomes, appended, buffered', k', hcall, h', hkept, hk', hexp⟩ :=
        writeCall_self h hc he.2 hk
      have hsame : rs ++ appended ++ buffered' =
          rs ++ buffered ++ outcomes.filterMap Outcome.kept := by
        rw [List.append_assoc, hkept, List.append_assoc]
      refine ⟨s', outcomes, rs ++ appended, buffered', k', hcall, h', hsame ▸ .refl .., ?_, hk', ?_⟩
      · have hone := hexp [] [] _ (.nil _)
        rw [List.append_nil] at hone
        exact carriesMagic_of_explains hone (List.forall_mem_singleton.2 he.1)
      · intro es os unreported hes
        have hcalls : callsOn l (.write c :: es) = c :: callsOn l es :=
          List.filter_cons_of_pos (by simpa using hc)
        rw [hcalls]
        exact hexp _ _ _ hes
    · obtain ⟨s', hcall, h', hdrops⟩ := writeCall_other h hc
      refine ⟨s', [], rs, buffered, k, hcall, h', hnone (.refl ..), by simp, hdrops ▸ hk, ?_⟩
      intro es os unreported hes
      have hcalls : callsOn l (.write c :: es) = callsOn l es :=
        List.filter_cons_of_neg (by simpa using hc)
      rw [hcalls]
      exact hes
  | compact l' query logmgmtMsg varbuf =>
    have htouch := touches_setFile h.opened l'
      ⟨(compactLog query logmgmtMsg varbuf (s.content l')).content, (s.linfo l').file.offset⟩
    by_cases hl : l' = l
    · subst hl
      have hdrops : (s.setFile l' ⟨(compactLog query logmgmtMsg varbuf (s.content l')).content,
          (s.linfo l').file.offset⟩).drops l' = s.drops l' := by
        cases l' <;> rfl
      refine ⟨_, [], rs.filter fun r => !Deletes query logmgmtMsg r, buffered, k, rfl,
        ⟨htouch.opened, ?_, ?_⟩, hnone ⟨?_, ?_⟩, by simp, hdrops.symm ▸ hk, fun _ _ _ hes => hes⟩
      · rw [← content_compactLog_logBytes varbuf fun r hr => hmagic r (List.mem_append_left _ hr),
          ← h.content_eq]
        cases l' <;> rfl
      · rw [← h.pending_eq]
        cases l' <;> rfl
      · exact List.filter_sublist.append (.refl buffered)
      · intro P hP
        rw [List.filter_append, List.filter_append, List.filter_filter]
        refine congrArg (· ++ buffered.filter P) (List.filter_congr fun r _ => ?_)
        have hkeep := hP query logmgmtMsg varbuf List.mem_cons_self r
        cases hr : P r with
        | false => rfl
        | true => rw [hkeep hr]; rfl
    · refine ⟨_, [], rs, buffered, k, rfl, ⟨htouch.opened, ?_, ?_⟩, hnone (.refl ..), by simp, ?_,
        fun _ _ _ hes => hes⟩
      · rw [htouch.content_ne l (Ne.symm hl), h.content_eq]
      · rw [htouch.pending_ne l (Ne.symm hl), h.pending_eq]
      · rw [htouch.drops_ne l (Ne.symm hl), hk]

theorem Remains.step {e : LogEvent} {es : List LogEvent} {rs rs' rs'' more more' : List LogRecord}
    (h : Remains l [e] (rs ++ more) rs') (h' : Remains l es (rs' ++ more') rs'') :
    Remains l (e :: es) (rs ++ (more ++ more')) rs'' where
  sublist := by
    rw [← List.append_assoc]
    exact h'.sublist.trans (h.sublist.append (.refl more'))
  kept P hP := by
    have hfirst := h.kept P fun q m v hmem => hP q m v (List.mem_cons.2 (.inl (List.mem_singleton.1 hmem)))
    have hrest := h'.kept P fun q m v hmem => hP q m v (List.mem_cons_of_mem e hmem)
    rw [hrest, List.filter_append, hfirst, ← List.filter_append, List.append_assoc]

theorem run_keeps (es : List LogEvent) (h : Holds s l hdr rs buffered)
    (hmagic : ∀ r ∈ rs ++ buffered, CarriesMagic r) {k : Nat} (hk : (s.drops l).toInt = k)
    (hes : Guarded logStep (EventOk l) s es) :
    ∃ s' outcomes rs' buffered' unreported, runM logStep s es = some s' ∧
      Holds s' l hdr rs' buffered' ∧
      Remains l es (rs ++ buffered ++ outcomes.filterMap Outcome.kept) (rs' ++ buffered') ∧
      (s'.drops l).toInt = (unreported : Nat) ∧
      Explains k (callsOn l es) outcomes unreported := by
  induction es generalizing s rs buffered k with
  | nil =>
    exact ⟨s, [], rs, buffered, k, rfl, h,
      by rw [List.filterMap_nil, List.append_nil]; exact .refl .., hk, .nil _⟩
  | cons e es ih =>
    obtain ⟨s1, os1, rs1, buf1, k1, hstep, h1, hremains1, hmagic1, hk1, hexp1⟩ :=
      logStep_keeps h hmagic e hes.1 hk
    have hall : ∀ r ∈ rs1 ++ buf1, CarriesMagic r := by
      intro r hr
      rcases List.mem_append.1 (hremains1.sublist.subset hr) with hold | hnew
      · exact hmagic r hold
      · exact hmagic1 r hnew
    obtain ⟨s', os, rs', buf', unreported, hrun, h', hremains, hk', hexp⟩ :=
      ih h1 hall hk1 (hes.2 s1 hstep)
    refine ⟨s', os1 ++ os, rs', buf', unreported, (runM_cons hstep es).trans hrun, h', ?_, hk',
      hexp1 _ _ _ hexp⟩
    rw [List.filterMap_append]
    exact hremains1.step hremains

/-! ## What is read -/

theorem evlReadSeq_logBytes (hdr : LogHeader) (rs : List LogRecord) {bufs : List (Option Nat)}
    (hbufs : bufs.length = rs.length) (lastBuf : Option Nat) :
    ∃ atEnd, evlReadSeq bufs ⟨logBytes hdr rs, logHeaderSize⟩ =
        (.ok (List.zipWith (fun r buf => (r.entry, delivered buf r.data)) rs bufs), atEnd) ∧
      evlRead lastBuf atEnd = (.error .eagain, atEnd) := by
  refine ⟨logAt hdr rs rs.length, ?_, evlRead_logAt_end hdr rs lastBuf⟩
  have hread := evlReadSeq_logAt hdr rs bufs 0 (by rw [Nat.zero_add, hbufs])
  rwa [List.drop_zero, logAt, boundary_zero] at hread

/-- What is logged is what is read. Whatever evlogd writes and evlogmgr
deletes, in any order and under any pattern of locks: of the records that were
there and those that evlogd has taken, the file and the buffer behind it have,
in their order, all that no compaction asks for; the drops are reported
exactly; and a reader gets the records of the file, then EAGAIN. -/
theorem log_life (es : List LogEvent) (h : Holds s l hdr rs buffered)
    (hmagic : ∀ r ∈ rs ++ buffered, CarriesMagic r) {k : Nat} (hk : (s.drops l).toInt = k)
    (hes : Guarded logStep (EventOk l) s es) :
    ∃ s' outcomes rs' buffered' unreported, runM logStep s es = some s' ∧
      (s'.drops l).toInt = (unreported : Nat) ∧
      Explains k (callsOn l es) outcomes unreported ∧
      Remains l es (rs ++ buffered ++ outcomes.filterMap Outcome.kept) (rs' ++ buffered') ∧
      s'.pending l = buffered'.flatMap LogRecord.toBytes ∧
      ∀ bufs lastBuf, bufs.length = rs'.length →
        ∃ atEnd, evlReadSeq bufs ⟨s'.content l, logHeaderSize⟩ =
            (.ok (List.zipWith (fun r buf => (r.entry, delivered buf r.data)) rs' bufs), atEnd) ∧
          evlRead lastBuf atEnd = (.error .eagain, atEnd) := by
  obtain ⟨s', outcomes, rs', buffered', unreported, hrun, h', hremains, hk', hexp⟩ :=
    run_keeps es h hmagic hk hes
  refine ⟨s', outcomes, rs', buffered', unreported, hrun, hk', hexp, hremains, h'.pending_eq,
    fun bufs lastBuf hbufs => ?_⟩
  rw [h'.content_eq]
  exact evlReadSeq_logBytes hdr rs' hbufs lastBuf

/-- One message held back and one written, and both deleted. -/
def deletedRun : List LogEvent :=
  twoMessages.map LogEvent.write ++ [.compact .evlLog (fun _ _ => true) [] []]

theorem log_life_deleted : Guarded logStep (EventOk .evlLog) freshState deletedRun ∧
    ∃ s' outcomes rs' buffered', runM logStep freshState deletedRun = some s' ∧
      Remains .evlLog deletedRun (List.filterMap Outcome.kept outcomes) (rs' ++ buffered') := by
  have hes : Guarded logStep (EventOk .evlLog) freshState deletedRun := by
    refine ⟨⟨carriesMagic_msgRecord .., fun _ _ _ => by decide⟩, fun _ _ => ?_⟩
    refine ⟨⟨carriesMagic_msgRecord .., fun _ hlock => absurd hlock (by decide)⟩, fun _ _ => ?_⟩
    exact ⟨trivial, fun _ _ => trivial⟩
  obtain ⟨s', outcomes, rs', buffered', unreported, hrun, -, -, hremains, -⟩ :=
    log_life (k := 0) deletedRun holds_freshState (fun _ hr => absurd hr List.not_mem_nil) rfl hes
  exact ⟨hes, s', outcomes, rs', buffered', hrun, hremains⟩

end Evlog.Evlogmgr
