/-
Evlog.Evlogd.RecIdTheorems — the record ids in the two log files.

`getNextRecId` only ever goes up, gives odd ids to the event log and even
ones to the private log, and a start takes the counter from the last
records of the files. As long as records reach a file in the order in
which they took their ids, the ids in it increase, and after a start the
counter is not below any of them. `IdsUpTo` is that invariant for one
log, over the file and the secondary buffer together.

A call that gets the lock after drops has taken its id BEFORE the drain
gives the next one to the message about the drops, which is written first.
`MeetsOrder` excludes that step, the only one that does not keep the order
(`daemon_recIds_of_meetsOrder`).
-/
import Evlog.Evlogd.LogWriteTheorems

namespace Evlog.Evlogd

open Evlog.Lib Evlog.Posix LogState

/-! ## The counter -/

def parity : LogId → Int
  | .evlLog => 1
  | .pvtLog => 0

theorem toInt_add_of_small {a b : Int32} (ha : 0 ≤ a.toInt) (hb : 0 ≤ b.toInt)
    (h : a.toInt + b.toInt < 2 ^ 31) : (a + b).toInt = a.toInt + b.toInt := by
  rw [Int32.toInt_add, Int.bmod_eq_of_le (by omega) (by omega)]

/-- Below the end of the type the next id is one or two above the
counter and has the parity of the log. -/
theorem nextRecId_spec {s : LogState} (hs : s.Opened) (l : LogId) (hpos : 0 ≤ s.gRecId.toInt)
    (hmax : s.gRecId.toInt + 2 < 2 ^ 31) :
    s.gRecId.toInt < (s.nextRecId l).gRecId.toInt
      ∧ (s.nextRecId l).gRecId.toInt % 2 = parity l
      ∧ (s.nextRecId l).gRecId.toInt ≤ s.gRecId.toInt + 2 := by
  have hone : (1 : Int32).toInt = 1 := rfl
  have htwo : (2 : Int32).toInt = 2 := rfl
  have hodd : s.gRecId % 2 ≠ 0 ↔ s.gRecId.toInt % 2 = 1 := by
    rw [ne_eq, ← Int32.toInt_inj, Int32.toInt_mod, htwo, Int.tmod_eq_emod_of_nonneg hpos]
    show ¬ s.gRecId.toInt % 2 = 0 ↔ s.gRecId.toInt % 2 = 1
    omega
  have hadd1 : (s.gRecId + 1).toInt = s.gRecId.toInt + 1 :=
    toInt_add_of_small hpos (by decide) (by rw [hone]; omega)
  have hadd2 : (s.gRecId + 2).toInt = s.gRecId.toInt + 2 :=
    toInt_add_of_small hpos (by decide) (by rw [htwo]; omega)
  cases l with
  | evlLog =>
    have hid : (s.nextRecId .evlLog).gRecId
        = if s.gRecId % 2 ≠ 0 then s.gRecId + 2 else s.gRecId + 1 := by
      simp only [nextRecId, linfo, hs.evl_type, getNextRecId]
      rfl
    rw [hid]
    split_ifs with h
    · have := hodd.mp h
      simp only [hadd2, parity]
      omega
    · have := mt hodd.mpr h
      simp only [hadd1, parity]
      omega
  | pvtLog =>
    have hid : (s.nextRecId .pvtLog).gRecId
        = if s.gRecId % 2 ≠ 0 then s.gRecId + 1 else s.gRecId + 2 := by
      simp only [nextRecId, linfo, hs.pvt_type, getNextRecId]
      rfl
    rw [hid]
    split_ifs with h
    · have := hodd.mp h
      simp only [hadd1, parity]
      omega
    · have := mt hodd.mpr h
      simp only [hadd2, parity]
      omega

/-! ## Ids in order -/

def recidOf (r : LogRecord) : Int := r.entry.logRecid.toInt

/-- The ids of a log's records: positive, up to `g`, of the log's
parity, and increasing. -/
structure IdsUpTo (g : Int) (l : LogId) (rs : List LogRecord) : Prop where
  pos : ∀ r ∈ rs, 0 < recidOf r
  le : ∀ r ∈ rs, recidOf r ≤ g
  parity_eq : ∀ r ∈ rs, recidOf r % 2 = parity l
  increasing : rs.Pairwise fun r r' => recidOf r < recidOf r'

variable {g g' : Int} {l : LogId} {rs : List LogRecord}

theorem IdsUpTo.nil (g : Int) (l : LogId) : IdsUpTo g l [] :=
  ⟨by simp, by simp, by simp, .nil⟩

theorem IdsUpTo.mono (h : IdsUpTo g l rs) (hle : g ≤ g') : IdsUpTo g' l rs :=
  ⟨h.pos, fun r hr => (h.le r hr).trans hle, h.parity_eq, h.increasing⟩

/-- A record with an id above all others goes to the end. -/
theorem IdsUpTo.snoc (h : IdsUpTo g l rs) {r : LogRecord} (hpos : 0 ≤ g) (hlt : g < recidOf r)
    (hpar : recidOf r % 2 = parity l) : IdsUpTo (recidOf r) l (rs ++ [r]) where
  pos := by
    intro r' hr'
    rcases List.mem_append.mp hr' with hr' | hr'
    · exact h.pos r' hr'
    · rw [List.mem_singleton.mp hr']
      omega
  le := by
    intro r' hr'
    rcases List.mem_append.mp hr' with hr' | hr'
    · exact (h.le r' hr').trans hlt.le
    · rw [List.mem_singleton.mp hr']
  parity_eq := by
    intro r' hr'
    rcases List.mem_append.mp hr' with hr' | hr'
    · exact h.parity_eq r' hr'
    · rw [List.mem_singleton.mp hr', hpar]
  increasing := by
    refine List.pairwise_append.mpr ⟨h.increasing, List.pairwise_singleton _ _, ?_⟩
    intro r' hr' r'' hr''
    rw [List.mem_singleton.mp hr'']
    exact (h.le r' hr').trans_lt hlt

theorem IdsUpTo.of_append {buffered : List LogRecord} (h : IdsUpTo g l (rs ++ buffered)) :
    IdsUpTo g l rs where
  pos r hr := h.pos r (List.mem_append_left _ hr)
  le r hr := h.le r (List.mem_append_left _ hr)
  parity_eq r hr := h.parity_eq r (List.mem_append_left _ hr)
  increasing := (List.pairwise_append.mp h.increasing).1

theorem IdsUpTo.snoc_le {r : LogRecord} (h : IdsUpTo g l (rs ++ [r])) :
    IdsUpTo (recidOf r) l (rs ++ [r]) := by
  refine ⟨h.pos, ?_, h.parity_eq, h.increasing⟩
  intro r' hr'
  rcases List.mem_append.mp hr' with hr' | hr'
  · exact ((List.pairwise_append.mp h.increasing).2.2 r' hr' r (by simp)).le
  · rw [List.mem_singleton.mp hr']

/-! ## The invariant -/

/-- Between two steps of the daemon: every log's file and buffer hold
records whose ids are in order and not above the counter. -/
structure DaemonInv (s : LogState) : Prop where
  opened : s.Opened
  gRecId_nonneg : 0 ≤ s.gRecId.toInt
  ids : ∀ l, ∃ hdr rs buffered, Holds s l hdr rs buffered
    ∧ IdsUpTo s.gRecId.toInt l (rs ++ buffered)

/-- The condition on a step: the counter is not at the end of its type,
and a call that gets the lock finds no unreported drops. -/
def MeetsOrder (s : LogState) : DaemonStep → Prop
  | .logEvlRec l _ locked _ => s.gRecId.toInt + 2 < 2 ^ 31 ∧ (locked = true → s.drops l = 0)
  | .mkEvlRec l _ _ _ _ locked _ =>
    s.gRecId.toInt + 2 < 2 ^ 31 ∧ (locked = true → s.drops l = 0)
  | .restart _ => True
  | .sigkill _ => True

variable {s : LogState}

variable {hdr : LogHeader} {buffered rs' : List LogRecord}

theorem Holds.nextRecId (h : Holds s l hdr rs buffered) (l' : LogId) :
    Holds (s.nextRecId l') l hdr rs buffered where
  opened := (touches_nextRecId h.opened l').opened
  content_eq := by rw [content_nextRecId, h.content_eq]
  pending_eq := by rw [← h.pending_eq, pending, pending, userbuf_nextRecId]

/-- Without a report the record goes behind all others of its log, or is
dropped. -/
theorem writeCall_stores (h : Holds s l hdr rs buffered) {c : WriteCall} (hc : c.log = l)
    (hdrops : c.locked = true → s.drops l = 0) :
    ∃ s' rs' buffered', writeCall s c = some s' ∧ s'.gRecId = s.gRecId
      ∧ Holds s' l hdr rs' buffered' ∧ Touches l s s'
      ∧ (rs' ++ buffered' = rs ++ buffered ++ [c.record] ∨ rs' ++ buffered' = rs ++ buffered) := by
  subst hc
  cases hlock : c.locked with
  | false =>
    obtain ⟨htouch, hid, hcontent, hpending, -⟩ :=
      writeRecToBuf_spec h.opened c.log c.record.toBytes
    have hcall : writeCall s c = some (writeRecToBuf s c.log c.record.toBytes) := by
      rw [writeCall, hlock, writeRecToLog_unlocked]
    split_ifs at hpending
    · refine ⟨_, rs, buffered ++ [c.record], hcall, hid,
        ⟨htouch.opened, hcontent.trans h.content_eq, ?_⟩, htouch, Or.inl (by simp)⟩
      rw [hpending, h.pending_eq]
      simp
    · exact ⟨_, rs, buffered, hcall, hid,
        ⟨htouch.opened, hcontent.trans h.content_eq, hpending.trans h.pending_eq⟩, htouch,
        Or.inr rfl⟩
  | true =>
    obtain ⟨s', hwrite, htouch, hpending, -, hcases⟩ :=
      writeRecToLog_locked h.opened c.log c.record.toBytes c.env
    have hcall : writeCall s c = some s' := by rw [writeCall, hlock, hwrite]
    rcases hcases with ⟨-, hid, hcontent⟩ | ⟨hpos, -, -⟩
    · refine ⟨s', rs ++ buffered ++ [c.record], [], hcall, hid,
        ⟨htouch.opened, ?_, hpending⟩, htouch, Or.inl (by simp)⟩
      rw [hcontent, h.content_eq, h.pending_eq, ← logBytes_append, ← logBytes_append]
      simp
    · rw [hdrops hlock] at hpos
      exact absurd hpos (by decide)

/-- `log_evl_rec` keeps the invariant. -/
theorem logEvlRec_inv (h : DaemonInv s) (l : LogId) (rec : LogRecord) (locked : Bool)
    (env : ProcInfo) (hmax : s.gRecId.toInt + 2 < 2 ^ 31)
    (hdrops : locked = true → s.drops l = 0) :
    ∃ s', logEvlRec s l rec locked env = some s' ∧ DaemonInv s' := by
  obtain ⟨hlt, hpar, -⟩ := nextRecId_spec h.opened l h.gRecId_nonneg hmax
  generalize hg : (s.nextRecId l).gRecId = recid at hlt hpar
  have hrecid : recidOf (withRecid rec recid) = recid.toInt := rfl
  obtain ⟨hdr, rs, buffered, hholds, hids⟩ := h.ids l
  have hdrops' : locked = true → (s.nextRecId l).drops l = 0 := by
    rw [drops, userbuf_nextRecId]
    exact hdrops
  obtain ⟨s', rs', buffered', hcall, hid, hholds', htouch, hrs⟩ :=
    writeCall_stores (hholds.nextRecId l) (c := ⟨l, withRecid rec recid, locked, env⟩) rfl hdrops'
  rw [hg] at hid
  have hcall' : logEvlRec s l rec locked env = some s' := by
    rw [← hcall]
    simp only [logEvlRec, writeCall, hg]
  refine ⟨s', hcall', htouch.opened, by rw [hid]; exact h.gRecId_nonneg.trans hlt.le, ?_⟩
  intro l'
  rw [hid]
  by_cases hl : l' = l
  · subst hl
    refine ⟨hdr, rs', buffered', hholds', ?_⟩
    rcases hrs with hrs | hrs
    · rw [hrs, ← hrecid]
      exact hids.snoc h.gRecId_nonneg (by rw [hrecid]; exact hlt) (by rw [hrecid]; exact hpar)
    · rw [hrs]
      exact hids.mono hlt.le
  · obtain ⟨hdr2, rs2, buffered2, hholds2, hids2⟩ := h.ids l'
    refine ⟨hdr2, rs2, buffered2, ⟨htouch.opened, ?_, ?_⟩, hids2.mono hlt.le⟩
    · rw [htouch.content_ne l' hl, content_nextRecId, hholds2.content_eq]
    · rw [htouch.pending_ne l' hl, ← hholds2.pending_eq, pending, pending, userbuf_nextRecId]

/-! ## Start -/

/-- `read` where the file is known around the offset. -/
theorem read_at_apply {f : OpenFile} {pre mid post : List UInt8} {n : Nat}
    (hc : f.content = pre ++ (mid ++ post)) (ho : f.offset = pre.length) (hn : mid.length = n) :
    FileM.read n f = (.ok mid, { f with offset := f.offset + n }) := by
  obtain ⟨content, offset⟩ := f
  simp only at hc ho
  subst hc ho hn
  simp only [FileM.read, OpenFile.read_at]

/-- At the end of a log with a last record, `openMaybeCreate` reads that
record's id. -/
theorem readLastRecId_logBytes (hdr : LogHeader) (rs : List LogRecord) (r : LogRecord) :
    ∃ offset, readLastRecId ⟨logBytes hdr (rs ++ [r]), (logBytes hdr (rs ++ [r])).length⟩
      = (.ok r.entry.logRecid, ⟨logBytes hdr (rs ++ [r]), offset⟩) := by
  generalize hpre : logBytes hdr rs = pre
  have hn : r.body.length ≤ 8280 := by
    rw [r.body_length]
    exact Nat.add_le_add_left r.size_le _
  have hc : logBytes hdr (rs ++ [r])
      = (pre ++ r.body) ++ (leBytes 4 r.body.length ++ []) := by
    rw [← logBytes_append, hpre, List.flatMap_singleton, r.toBytes_eq]
    simp [sizeSize]
  have hc2 : logBytes hdr (rs ++ [r])
      = pre ++ (r.entry.toBytes ++ (r.data ++ leBytes 4 r.body.length)) := by
    rw [hc, LogRecord.body]
    simp
  have hlen : (logBytes hdr (rs ++ [r])).length = pre.length + r.body.length + 4 := by
    rw [hc]
    simp
    omega
  have hrecsize : Int.bmod (leInt (leBytes 4 r.body.length) + 4) (2 ^ 32)
      = ((r.body.length + 4 : Nat) : Int) := by
    rw [leInt_leBytes (by omega), Int.bmod_eq_of_le (by omega) (by omega)]
    rfl
  generalize logBytes hdr (rs ++ [r]) = content at hc hc2 hlen ⊢
  have hback : FileM.lseek (-4) .SEEK_CUR .eio ⟨content, content.length⟩
      = (.ok (content.length - 4), ⟨content, content.length - 4⟩) :=
    lseek_cur_back_apply .eio (f := ⟨content, content.length⟩) (by simp only; omega)
  have hback2 : FileM.lseek (-((r.body.length + 4 : Nat) : Int)) .SEEK_CUR .eio
        ⟨content, content.length - 4 + 4⟩
      = (.ok pre.length, ⟨content, pre.length⟩) := by
    rw [lseek_cur_back_apply .eio (by simp only; omega)]
    simp only [hlen]
    congr 2 <;> omega
  refine ⟨pre.length + recHdrSize, ?_⟩
  rw [readLastRecId, FileM.bind_ok hback, FileM.bind_ok (read_at_apply (f := ⟨content, _⟩) hc
    (by simp only [List.length_append]; omega) (leBytes_length _ _))]
  rw [if_neg (by simp)]
  simp only [hrecsize]
  rw [FileM.bind_ok hback2, FileM.bind_ok (read_at_apply (f := ⟨content, pre.length⟩) hc2 rfl
    r.entry.toBytes_length), if_neg (by simp), FileM.pure_apply,
    PosixLogEntry.ofBytes_toBytes]

/-- The counter value `openMaybeCreate` takes from a log. -/
def recoveredRecId (hdr : LogHeader) (rs : List LogRecord) : Int32 :=
  match rs.getLast? with
  | none => 0
  | some r => if hdr.lastRecId < r.entry.logRecid then r.entry.logRecid else hdr.lastRecId

/-- `openMaybeCreate` on a log of whole records. -/
theorem openMaybeCreate_logBytes (hdr : LogHeader) (rs : List LogRecord) (fd : Int) :
    ∃ offset, openMaybeCreate (logBytes hdr rs) fd
      = .ok { fd := fd, recId := recoveredRecId hdr rs, file := ⟨logBytes hdr rs, offset⟩ } := by
  have hlen : (logBytes hdr rs).length
      = logHeaderSize + (rs.flatMap LogRecord.toBytes).length := by
    rw [logBytes, List.length_append, LogHeader.toBytes_length]
  have hne : (logBytes hdr rs).length ≠ 0 := by
    rw [hlen]
    simp only [logHeaderSize]
    omega
  have hhdr : LogHeader.ofBytes (logBytes hdr rs) = hdr := LogHeader.ofBytes_toBytes_append _ _
  have hend : FileM.lseek 0 .SEEK_END .eio ⟨logBytes hdr rs, 0⟩
      = (.ok (logBytes hdr rs).length, ⟨logBytes hdr rs, (logBytes hdr rs).length⟩) := by
    rw [FileM.lseek, OpenFile.lseek_end]
  simp only [openMaybeCreate, if_neg hne]
  rw [recoverRecId, FileM.bind_ok hend]
  rcases List.eq_nil_or_concat rs with rfl | ⟨init, r, rfl⟩
  · rw [if_neg (by rw [hlen]; simp)]
    exact ⟨_, rfl⟩
  · rw [List.concat_eq_append] at hlen hhdr ⊢
    obtain ⟨offset, hread⟩ := readLastRecId_logBytes hdr init r
    have hmap : mapHdr ⟨logBytes hdr (init ++ [r]), offset⟩
        = (.ok hdr, ⟨logBytes hdr (init ++ [r]), offset⟩) := by
      rw [mapHdr, hhdr]
    rw [if_pos, FileM.bind_ok hread, FileM.bind_ok hmap, FileM.pure_apply]
    · simp only [recoveredRecId, List.getLast?_append, List.getLast?_singleton, Option.some_or]
      exact ⟨offset, rfl⟩
    · rw [hlen, List.flatMap_append, List.flatMap_singleton, List.length_append, r.toBytes_length]
      simp only [recHdrSize]
      omega

/-- A start on two logs of whole records, or on new ones. -/
theorem initLogFiles_logBytes (fds : LogFds) (hdr : LogId → LogHeader)
    (rs : LogId → List LogRecord) :
    ∃ s, initLogFiles fds (logBytes (hdr .evlLog) (rs .evlLog))
          (logBytes (hdr .pvtLog) (rs .pvtLog)) = .ok s
      ∧ (∀ l, Holds s l (hdr l) (rs l) [] ∧ s.drops l = 0)
      ∧ ((s.gRecId = 0 ∧ ∀ l, recoveredRecId (hdr l) (rs l) = 0)
        ∨ ∀ l, (recoveredRecId (hdr l) (rs l)).toInt ≤ s.gRecId.toInt) := by
  obtain ⟨offE, hE⟩ := openMaybeCreate_logBytes (hdr .evlLog) (rs .evlLog) fds.evl
  obtain ⟨offP, hP⟩ := openMaybeCreate_logBytes (hdr .pvtLog) (rs .pvtLog) fds.pvt
  generalize hidE : recoveredRecId (hdr .evlLog) (rs .evlLog) = idE at hE
  generalize hidP : recoveredRecId (hdr .pvtLog) (rs .pvtLog) = idP at hP
  refine ⟨_, by rw [initLogFiles, hE, hP]; rfl, ?_, ?_⟩
  · intro l
    cases l with
    | evlLog => exact ⟨⟨⟨rfl, rfl, fds.ne, rfl, rfl⟩, rfl, rfl⟩, rfl⟩
    | pvtLog => exact ⟨⟨⟨rfl, rfl, fds.ne, rfl, rfl⟩, rfl, rfl⟩, rfl⟩
  · simp only
    by_cases hzero : idP = 0 ∧ idE = 0
    · rw [if_pos hzero]
      refine Or.inl ⟨rfl, ?_⟩
      intro l
      cases l with
      | evlLog => rw [hidE, hzero.2]
      | pvtLog => rw [hidP, hzero.1]
    · rw [if_neg hzero]
      refine Or.inr ?_
      intro l
      have hgt := Int32.lt_iff_toInt_lt (x := idE) (y := idP)
      split_ifs with hmax
      · cases l with
        | evlLog => rw [hidE]; exact (hgt.mp hmax).le
        | pvtLog => rw [hidP]
      · cases l with
        | evlLog => rw [hidE]
        | pvtLog => rw [hidP]; exact Int.not_lt.mp (mt hgt.mpr hmax)

/-- The counter value taken from a log is not below any id in it. -/
theorem IdsUpTo.recovered (hdr : LogHeader) (h : IdsUpTo g l rs) :
    IdsUpTo (recoveredRecId hdr rs).toInt l rs ∧ 0 ≤ (recoveredRecId hdr rs).toInt := by
  rcases List.eq_nil_or_concat rs with rfl | ⟨init, r, rfl⟩
  · exact ⟨.nil _ _, le_rfl⟩
  · rw [List.concat_eq_append] at h ⊢
    have hle : recidOf r ≤ (recoveredRecId hdr (init ++ [r])).toInt := by
      simp only [recoveredRecId, List.getLast?_append, List.getLast?_singleton, Option.some_or]
      split_ifs with hlt
      · exact le_rfl
      · exact Int.not_lt.mp (mt Int32.lt_iff_toInt_lt.mpr hlt)
    have hpos : 0 < recidOf r := h.pos r (by simp)
    exact ⟨h.snoc_le.mono hle, by omega⟩

theorem initLogFiles_inv (fds : LogFds) (hdr : LogId → LogHeader) (rs : LogId → List LogRecord)
    (hids : ∀ l, ∃ g, IdsUpTo g l (rs l)) :
    ∃ s, initLogFiles fds (logBytes (hdr .evlLog) (rs .evlLog))
          (logBytes (hdr .pvtLog) (rs .pvtLog)) = .ok s
      ∧ DaemonInv s := by
  obtain ⟨s, hinit, hholds, hgRecId⟩ := initLogFiles_logBytes fds hdr rs
  have hrecovered : ∀ l, IdsUpTo (recoveredRecId (hdr l) (rs l)).toInt l (rs l)
      ∧ 0 ≤ (recoveredRecId (hdr l) (rs l)).toInt := by
    intro l
    obtain ⟨g, hg⟩ := hids l
    exact hg.recovered (hdr l)
  have hle : ∀ l, (recoveredRecId (hdr l) (rs l)).toInt ≤ s.gRecId.toInt := by
    intro l
    rcases hgRecId with ⟨hzero, hnone⟩ | hle
    · rw [hzero, hnone l]
    · exact hle l
  refine ⟨s, hinit, (hholds .evlLog).1.opened, (hrecovered .evlLog).2.trans (hle .evlLog), ?_⟩
  intro l
  refine ⟨hdr l, rs l, [], (hholds l).1, ?_⟩
  rw [List.append_nil]
  exact (hrecovered l).1.mono (hle l)

theorem initLogFiles_nil (fds : LogFds) : initLogFiles fds [] []
      = .ok { freshState with
          evlLog := { freshState.evlLog with fd := fds.evl }
          pvtLog := { freshState.pvtLog with fd := fds.pvt }
          userEvlbuf := { freshState.userEvlbuf with fd := fds.evl }
          userprivEvlbuf := { freshState.userprivEvlbuf with fd := fds.pvt } } := rfl

theorem initLogFiles_nil_inv {fds : LogFds} (h : initLogFiles fds [] [] = .ok s) : DaemonInv s := by
  rw [initLogFiles_nil, Except.ok.injEq] at h
  subst h
  refine ⟨⟨rfl, rfl, fds.ne, rfl, rfl⟩, le_rfl, ?_⟩
  intro l
  refine ⟨freshLogHeader, [], [], ⟨⟨rfl, rfl, fds.ne, rfl, rfl⟩, ?_, ?_⟩, .nil _ _⟩
  · cases l <;> rfl
  · cases l <;> rfl

/-- A store to `last_recId` where the file is known around it. -/
theorem setLastRecId_at {front old back : List UInt8} (hfront : front.length = 16)
    (hold : old.length = 4) (recId : Int32) :
    setLastRecId (front ++ (old ++ back)) recId
      = front ++ (leBytes 4 recId.toUInt32.toNat ++ back) := by
  have hdrop : (front ++ (old ++ back)).drop 20 = back := by
    rw [← List.append_assoc, List.drop_left' (by simp [hfront, hold])]
  rw [setLastRecId, List.take_left' hfront, hdrop, List.append_assoc]

/-- Storing `last_recId` changes the header and nothing else. -/
theorem setLastRecId_logBytes (hdr : LogHeader) (rs : List LogRecord) (recId : Int32) :
    setLastRecId (logBytes hdr rs) recId = logBytes { hdr with lastRecId := recId } rs := by
  have hsplit : ∀ h : LogHeader, logBytes h rs
      = (leBytes 4 h.logMagic.toNat ++ (leBytes 4 0 ++ leBytes 8 h.logVersion.toUInt64.toNat))
        ++ (leBytes 4 h.lastRecId.toUInt32.toNat ++ (leBytes 4 0
          ++ (leBytes 8 h.reserved1.toUInt64.toNat ++ (leBytes 4 h.logGeneration.toNat
            ++ (leBytes 4 0 ++ rs.flatMap LogRecord.toBytes))))) := by
    intro h
    simp only [logBytes, LogHeader.toBytes, List.append_assoc]
  rw [hsplit, hsplit, setLastRecId_at (by simp) (by simp)]

/-! ## Runs -/

/-- One step that meets the condition succeeds and keeps the invariant. -/
theorem daemonStep_inv (s : LogState) (a : DaemonStep) (h : DaemonInv s) (hP : MeetsOrder s a) :
    ∃ s', daemonStep s a = some s' ∧ DaemonInv s' := by
  choose hdr rs buffered hholds hids using h.ids
  have hfile : ∀ l, ∃ g, IdsUpTo g l (rs l) := fun l => ⟨_, (hids l).of_append⟩
  cases a with
  | logEvlRec l rec locked env => exact logEvlRec_inv h l rec locked env hP.1 hP.2
  | mkEvlRec l facility eventType severity text locked env =>
    exact logEvlRec_inv h l _ locked env hP.1 hP.2
  | restart fds =>
    obtain ⟨s', hinit, hinv⟩ :=
      initLogFiles_inv fds (fun l => { hdr l with lastRecId := s.gRecId }) rs hfile
    refine ⟨s', ?_, hinv⟩
    have hE : (evlogdstopdaemon s).1
        = logBytes { hdr .evlLog with lastRecId := s.gRecId } (rs .evlLog) := by
      rw [← setLastRecId_logBytes, ← (hholds .evlLog).content_eq]
      rfl
    have hPvt : (evlogdstopdaemon s).2
        = logBytes { hdr .pvtLog with lastRecId := s.gRecId } (rs .pvtLog) := by
      rw [← setLastRecId_logBytes, ← (hholds .pvtLog).content_eq]
      rfl
    rw [daemonStep, hE, hPvt, hinit]
    rfl
  | sigkill fds =>
    obtain ⟨s', hinit, hinv⟩ := initLogFiles_inv fds hdr rs hfile
    refine ⟨s', ?_, hinv⟩
    have hE : s.evlLog.file.content = logBytes (hdr .evlLog) (rs .evlLog) :=
      (hholds .evlLog).content_eq
    have hPvt : s.pvtLog.file.content = logBytes (hdr .pvtLog) (rs .pvtLog) :=
      (hholds .pvtLog).content_eq
    rw [daemonStep, hE, hPvt, hinit]
    rfl

/-- The two files hold whole records; the ids are odd in the event log
and even in the private log, increase in file order, and none occurs in
both files. -/
def RecIdsOk (s : LogState) : Prop :=
  ∃ evlHdr evlRecs pvtHdr pvtRecs,
    s.content .evlLog = logBytes evlHdr evlRecs ∧ s.content .pvtLog = logBytes pvtHdr pvtRecs
      ∧ (∀ r ∈ evlRecs, recidOf r % 2 = 1) ∧ (∀ r ∈ pvtRecs, recidOf r % 2 = 0)
      ∧ evlRecs.Pairwise (fun r r' => recidOf r < recidOf r')
      ∧ pvtRecs.Pairwise (fun r r' => recidOf r < recidOf r')
      ∧ ∀ r ∈ evlRecs, ∀ r' ∈ pvtRecs, recidOf r ≠ recidOf r'

theorem DaemonInv.recIdsOk (h : DaemonInv s) : RecIdsOk s := by
  obtain ⟨evlHdr, evlRecs, evlBuf, hevl, hevlIds⟩ := h.ids .evlLog
  obtain ⟨pvtHdr, pvtRecs, pvtBuf, hpvt, hpvtIds⟩ := h.ids .pvtLog
  have hevl' := hevlIds.of_append
  have hpvt' := hpvtIds.of_append
  refine ⟨evlHdr, evlRecs, pvtHdr, pvtRecs, hevl.content_eq, hpvt.content_eq, hevl'.parity_eq,
    hpvt'.parity_eq, hevl'.increasing, hpvt'.increasing, ?_⟩
  intro r hr r' hr' heq
  have hodd : recidOf r % 2 = 1 := hevl'.parity_eq r hr
  have heven : recidOf r' % 2 = 0 := hpvt'.parity_eq r' hr'
  omega

/-- The descriptors of `freshState`. -/
def firstFds : LogFds := ⟨3, 4, by decide⟩

/-- Record ids. In every run of the daemon, from its first start on,
whose steps meet `MeetsOrder`, every restart succeeds and the ids in the
two files are as they should be. -/
theorem daemon_recIds_of_meetsOrder (fds : LogFds) (s₀ : LogState)
    (hinit : initLogFiles fds [] [] = .ok s₀) (steps : List DaemonStep)
    (hsteps : Guarded daemonStep MeetsOrder s₀ steps) :
    ∃ s, runM daemonStep s₀ steps = some s ∧ RecIdsOk s := by
  obtain ⟨s, hrun, hinv⟩ := runM_invariant daemonStep_inv (initLogFiles_nil_inv hinit) hsteps
  exact ⟨s, hrun, hinv.recIdsOk⟩

/-- The first start of the daemon, a message, and a kill. -/
theorem daemon_recIds_of_meetsOrder_killed : ∃ s, runM daemonStep freshState
        [.mkEvlRec .evlLog logLogmgmt 1 logInfo ⟨cBytes "hello", by decide⟩ true someProc,
          .sigkill firstFds] = some s ∧ RecIdsOk s := by
  refine daemon_recIds_of_meetsOrder firstFds freshState rfl _ ⟨⟨by decide, fun _ => rfl⟩, ?_⟩
  intro s' _
  exact ⟨trivial, fun _ _ => trivial⟩

/-! ## The step that breaks the order -/

theorem logEvlRec_unlocked (h : Holds s l hdr rs buffered) (rec : LogRecord) (env : ProcInfo)
    (hfits : (s.pending l).length ≤ maxUserbuf l) {k : Nat} (hk : (s.drops l).toInt = k)
    (hkmax : k + 1 < 2 ^ 31) :
    ∃ s' buffered' k', logEvlRec s l rec false env = some s' ∧ Holds s' l hdr rs buffered'
      ∧ s'.gRecId = (s.nextRecId l).gRecId
      ∧ (s'.pending l).length ≤ maxUserbuf l
      ∧ (s'.drops l).toInt = (k' : Nat) ∧ k' ≤ k + 1
      ∧ (s'.pending l).length + rec.toBytes.length * k'
          = (s.pending l).length + rec.toBytes.length * k + rec.toBytes.length := by
  generalize hg : (s.nextRecId l).gRecId = recid
  have hlen : (withRecid rec recid).toBytes.length = rec.toBytes.length := by
    rw [LogRecord.toBytes_length, LogRecord.toBytes_length]
    rfl
  have hpend : (s.nextRecId l).pending l = s.pending l := by
    rw [pending, pending, userbuf_nextRecId]
  have hdrop : (s.nextRecId l).drops l = s.drops l := by
    rw [drops, drops, userbuf_nextRecId]
  have h1 := h.nextRecId l
  obtain ⟨htouch, hid, hcontent, hpending, hdrops⟩ :=
    writeRecToBuf_spec h1.opened l (withRecid rec recid).toBytes
  have hcall : logEvlRec s l rec false env
      = some (writeRecToBuf (s.nextRecId l) l (withRecid rec recid).toBytes) := by
    simp only [logEvlRec, hg, writeRecToLog_unlocked]
  rw [hpend, hlen] at hpending
  rw [hpend, hdrop, hlen] at hdrops
  rw [hg] at hid
  split_ifs at hpending hdrops with hfit
  · refine ⟨_, buffered ++ [withRecid rec recid], k, hcall,
      ⟨htouch.opened, hcontent.trans h1.content_eq, ?_⟩, hid, ?_, by rw [hdrops, hk],
      Nat.le_succ k, ?_⟩
    · rw [hpending, h.pending_eq]
      simp
    · rw [hpending, List.length_append, hlen]
      exact hfit
    · rw [hpending, List.length_append, hlen]
      omega
  · have hmax : s.drops l ≠ Int32.maxValue := by
      intro heq
      rw [heq, Int32.toInt_maxValue] at hk
      omega
    refine ⟨_, buffered, k + 1, hcall,
      ⟨htouch.opened, hcontent.trans h1.content_eq, hpending.trans h.pending_eq⟩, hid, ?_,
      by rw [hdrops, toInt_count_succ hk hmax], le_rfl, ?_⟩
    · rw [hpending]
      exact hfits
    · rw [hpending, Nat.mul_add, Nat.mul_one]
      omega

/-- A record that finds the lock again after drops is written behind the
message about them, which has the larger id. -/
theorem logEvlRec_reported (h : Holds s .pvtLog hdr rs buffered) (rec : LogRecord) (env : ProcInfo)
    (hpos : 0 ≤ s.gRecId.toInt) (hmax : s.gRecId.toInt + 4 < 2 ^ 31) (hdrops : 0 < s.drops .pvtLog) :
    ∃ s', logEvlRec s .pvtLog rec true env = some s' ∧ s'.gRecId.toInt ≤ s.gRecId.toInt + 4
      ∧ ¬ RecIdsOk s' := by
  obtain ⟨hlt1, -, hle1⟩ := nextRecId_spec h.opened .pvtLog hpos (by omega)
  have h1 := h.nextRecId .pvtLog
  have hdrops1 : 0 < (s.nextRecId .pvtLog).drops .pvtLog := by
    rw [drops, userbuf_nextRecId]
    exact hdrops
  generalize hs1 : s.nextRecId .pvtLog = s1 at hlt1 hle1 h1 hdrops1
  obtain ⟨hlt2, -, hle2⟩ := nextRecId_spec h1.opened .pvtLog (by omega) (by omega)
  obtain ⟨s', hwrite, htouch, -, -, hcases⟩ :=
    writeRecToLog_locked h1.opened .pvtLog (withRecid rec s1.gRecId).toBytes env
  have hcall : logEvlRec s .pvtLog rec true env = some s' := by
    simp only [logEvlRec, hs1, hwrite]
  rcases hcases with ⟨hzero, -, -⟩ | ⟨-, hid, hcontent⟩
  · exact absurd hdrops1 hzero
  · refine ⟨s', hcall, by rw [hid]; omega, ?_⟩
    rintro ⟨_, _, pvtHdr, pvtRecs, -, hpvt, -, -, -, hincreasing, -⟩
    generalize hreport : droppedRecord env (s1.nextRecId .pvtLog).gRecId
      (s1.drops .pvtLog).toInt = report at hcontent
    have hbytes : logBytes pvtHdr pvtRecs
        = logBytes hdr (rs ++ buffered ++ [report, withRecid rec s1.gRecId]) := by
      rw [← hpvt, hcontent, h1.content_eq, h1.pending_eq, ← logBytes_append, ← logBytes_append]
      simp
    -- the ids of the file, in order, end with those of the report and the record
    have hids : (pvtRecs.map recidOf).Pairwise (· < ·) := List.pairwise_map.mpr hincreasing
    have hmap : pvtRecs.map recidOf
        = (rs ++ buffered ++ [report, withRecid rec s1.gRecId]).map recidOf := by
      have hentries := congrArg (List.map fun e : PosixLogEntry => e.logRecid.toInt)
        (entries_of_logBytes hbytes)
      rw [List.map_map, List.map_map] at hentries
      exact hentries
    rw [hmap, List.map_append] at hids
    have hlast := (List.pairwise_append.mp hids).2.1
    have hreportId : recidOf report = (s1.nextRecId .pvtLog).gRecId.toInt := by
      rw [← hreport]
      rfl
    have hrecId : recidOf (withRecid rec s1.gRecId) = s1.gRecId.toInt := rfl
    simp only [List.map_cons, List.map_nil, List.pairwise_cons, List.mem_singleton,
      forall_eq, hreportId, hrecId] at hlast
    omega

/-- Any number of calls without the lock: each adds its record to the
buffer or one to the drops. -/
theorem runM_unlocked (rec : LogRecord) (env : ProcInfo) (n : Nat) :
    ∀ (s : LogState) (buffered : List LogRecord) (k : Nat), Holds s l hdr rs buffered →
      (s.pending l).length ≤ maxUserbuf l → 0 ≤ s.gRecId.toInt →
      s.gRecId.toInt + 2 * n + 2 < 2 ^ 31 → (s.drops l).toInt = k → k + n < 2 ^ 31 →
      ∃ s' buffered' k',
        runM daemonStep s (List.replicate n (.logEvlRec l rec false env)) = some s'
        ∧ Holds s' l hdr rs buffered' ∧ (s'.pending l).length ≤ maxUserbuf l
        ∧ 0 ≤ s'.gRecId.toInt ∧ s'.gRecId.toInt ≤ s.gRecId.toInt + 2 * n
        ∧ (s'.drops l).toInt = (k' : Nat)
        ∧ (s'.pending l).length + rec.toBytes.length * k'
          = (s.pending l).length + rec.toBytes.length * k + rec.toBytes.length * n := by
  induction n with
  | zero =>
    intro s buffered k h hfits hpos _ hk _
    exact ⟨s, buffered, k, rfl, h, hfits, hpos, by omega, hk, by omega⟩
  | succ n ih =>
    intro s buffered k h hfits hpos hmax hk hkmax
    obtain ⟨hlt, -, hle⟩ := nextRecId_spec h.opened l hpos (by omega)
    obtain ⟨s1, buf1, k1, hcall, h1, hid, hfits1, hk1, hk1le, hcount1⟩ :=
      logEvlRec_unlocked h rec env hfits hk (by omega)
    rw [← hid] at hlt hle
    obtain ⟨s', buf', k', hrun, h', hfits', hpos', hle', hk', hcount'⟩ :=
      ih s1 buf1 k1 h1 hfits1 (by omega) (by omega) hk1 (by omega)
    refine ⟨s', buf', k', ?_, h', hfits', hpos', by omega, hk', ?_⟩
    · rw [List.replicate_succ, runM_cons (show daemonStep s (.logEvlRec l rec false env) = some s1
        from hcall), hrun]
    · rw [hcount', hcount1, Nat.mul_add, Nat.mul_one]
      omega

/-- Lock contention on the private log of a new daemon: 32 of the largest
records without the lock, one too many for the buffer, and one with it. -/
def contentionSteps : List DaemonStep :=
  List.replicate 32 (.logEvlRec .pvtLog largestRecord false someProc)
    ++ [.logEvlRec .pvtLog largestRecord true someProc]

/-- After them the last two ids in the private log are out of order. -/
theorem daemon_recIds_out_of_order : initLogFiles firstFds [] [] = .ok freshState
      ∧ ∃ s, runM daemonStep freshState contentionSteps = some s
        ∧ s.gRecId.toInt ≤ 68 ∧ ¬ RecIdsOk s := by
  refine ⟨rfl, ?_⟩
  have hfresh : Holds freshState .pvtLog freshLogHeader [] [] :=
    ⟨opened_freshState, (List.append_nil _).symm, rfl⟩
  obtain ⟨s1, buffered, k, hrun, h1, hfits, hpos, hle, hk, hcount⟩ :=
    runM_unlocked largestRecord someProc 32 freshState [] 0 hfresh (by decide) le_rfl (by decide)
      rfl (by decide)
  rw [largestRecord_length] at hcount
  have hgzero : freshState.gRecId.toInt = 0 := rfl
  have hdrops : 0 < s1.drops .pvtLog := by
    have hpend0 : (freshState.pending .pvtLog).length = 0 := rfl
    have hzero : (0 : Int32).toInt = 0 := rfl
    simp only [maxUserbuf] at hfits
    rw [Int32.lt_iff_toInt_lt, hk, hzero]
    omega
  obtain ⟨s2, hcall, hid, hbad⟩ := logEvlRec_reported h1 largestRecord someProc hpos (by omega) hdrops
  refine ⟨s2, ?_, by omega, hbad⟩
  have hlast : runM daemonStep s1 [.logEvlRec .pvtLog largestRecord true someProc] = some s2 := by
    rw [runM_cons hcall, runM_nil]
  rw [contentionSteps, runM_append hrun, hlast]

end Evlog.Evlogd
