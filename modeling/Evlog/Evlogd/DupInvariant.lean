/-
Evlog.Evlogd.DupInvariant — entries, slots and counts fit together.

`DupInv` relates the entries of both logs to the slots of the shared
buffer: a slot is in use exactly while one entry points into it, and a
log's `dup_count` is the sum of its entries' counts. Beside it stand the
two sides of the account, for one log and one class of equal events: what
is counted in the entries (`pending`) and what has been written
(`accountedFor`).

The machinery counts up, forgets or replaces one entry at a time: up to order
one element of a list is replaced (`exists_perm_set`, `setEntry_spec`).
-/
import Evlog.Lib.SlotPool
import Evlog.Evlogd.Dup

namespace Evlog.Evlogd

open Evlog.Lib Evlog.Posix

/-! ## Classes of equal events -/

/-- What `compareEventRecords` looks at. -/
def dupKey (r : LogRecord) : UInt64 × Int32 × UInt32 × Int32 × Int32 × UInt32 × UInt32 × Int32
    × Int32 × UInt32 × UInt64 × Int32 × List UInt8 :=
  (r.entry.logSize, r.entry.logEventType, r.entry.logFacility, r.entry.logSeverity,
    r.entry.logPid, r.entry.logUid, r.entry.logGid, r.entry.logPgrp, r.entry.logFormat,
    r.entry.logFlags, r.entry.logThread, r.entry.logProcessor, r.data)

theorem compareEventRecords_iff (crec prec : LogRecord) :
    compareEventRecords crec prec = true ↔ dupKey crec = dupKey prec := by
  have hdata : prec.entry.logSize = crec.entry.logSize →
      (crec.data.take crec.entry.logSize.toNat = prec.data.take crec.entry.logSize.toNat
        ↔ crec.data = prec.data) := by
    intro hsize
    rw [List.take_of_length_le crec.size_eq.le,
      List.take_of_length_le (by rw [prec.size_eq, hsize])]
  unfold compareEventRecords dupKey
  simp only [Bool.and_eq_true, beq_iff_eq, Prod.mk.injEq]
  constructor
  · rintro ⟨⟨⟨⟨⟨⟨⟨⟨⟨⟨⟨⟨h1, h2⟩, h3⟩, h4⟩, h5⟩, h6⟩, h7⟩, h8⟩, h9⟩, h10⟩, h11⟩, h12⟩, h13⟩
    exact ⟨h1.symm, h2.symm, h3.symm, h4.symm, h5.symm, h6.symm, h7.symm, h8.symm, h9.symm,
      h10.symm, h11.symm, h12.symm, (hdata h1).mp h13⟩
  · rintro ⟨h1, h2, h3, h4, h5, h6, h7, h8, h9, h10, h11, h12, h13⟩
    exact ⟨⟨⟨⟨⟨⟨⟨⟨⟨⟨⟨⟨h1.symm, h2.symm⟩, h3.symm⟩, h4.symm⟩, h5.symm⟩, h6.symm⟩, h7.symm⟩,
      h8.symm⟩, h9.symm⟩, h10.symm⟩, h11.symm⟩, h12.symm⟩, (hdata h1.symm).mpr h13⟩

theorem compareEventRecords_congr {r r' : LogRecord} (h : compareEventRecords r r' = true)
    (c : LogRecord) : compareEventRecords r c = compareEventRecords r' c := by
  have hkey := (compareEventRecords_iff r r').mp h
  rw [Bool.eq_iff_iff, compareEventRecords_iff, compareEventRecords_iff, hkey]

theorem facility_of_compareEventRecords {r c : LogRecord} (h : compareEventRecords r c = true) :
    r.entry.logFacility = c.entry.logFacility ∧ r.entry.logEventType = c.entry.logEventType := by
  have hkey := (compareEventRecords_iff r c).mp h
  simp only [dupKey, Prod.mk.injEq] at hkey
  exact ⟨hkey.2.2.1, hkey.2.1⟩

/-! ## The buffer -/

section Buffer

variable (buf : List EventBuffer) (i : Nat)

def flags (buf : List EventBuffer) : List Bool := buf.map EventBuffer.inUse

@[simp] theorem flags_length : (flags buf).length = buf.length := List.length_map _

@[simp] theorem setInUse_length (inUse : Bool) : (setInUse buf i inUse).length = buf.length :=
  List.length_modify _ _ _

@[simp] theorem flags_setInUse (inUse : Bool) :
    flags (setInUse buf i inUse) = (flags buf).set i inUse := by
  unfold flags setInUse
  apply List.ext_getElem?
  intro j
  rw [List.getElem?_map, List.getElem?_modify, List.getElem?_set, List.getElem?_map]
  by_cases hij : i = j
  · subst hij
    by_cases hlt : i < buf.length
    · simp [hlt]
    · simp [hlt]
  · simp [hij]

@[simp] theorem recAt_setInUse (inUse : Bool) (p : Option Nat) :
    recAt (setInUse buf i inUse) p = recAt buf p := by
  cases p with
  | none => rfl
  | some j =>
    unfold recAt setInUse
    simp only [List.getElem?_modify]
    by_cases hij : i = j
    · subst hij
      cases buf[i]? <;> simp
    · simp [hij]

end Buffer

/-! ## Entries -/

def owned (es : List DupBuffer) : List Nat := es.filterMap DupBuffer.recPtr

def countSum (es : List DupBuffer) : Nat := (es.map DupBuffer.dupCount).sum

/-- The duplicates counted in an entry, if its event is in the class of `c`. -/
def entryPending (buf : List EventBuffer) (c : LogRecord) (e : DupBuffer) : Nat :=
  if compareEventRecords (recAt buf e.recPtr) c then e.dupCount else 0

/-- The duplicates counted in the entries for the class of `c`. -/
def pendingFor (buf : List EventBuffer) (c : LogRecord) (es : List DupBuffer) : Nat :=
  (es.map (entryPending buf c)).sum

/-- An entry that points somewhere points into its slot, and one that
does not has no duplicates. -/
structure EntryOk (e : DupBuffer) : Prop where
  index_eq : ∀ i, e.recPtr = some i → e.bufIndex = i
  none_zero : e.recPtr = none → e.dupCount = 0

section Entries

variable {es es' : List DupBuffer} {e : DupBuffer} {buf : List EventBuffer} {c : LogRecord}

theorem owned_cons (e : DupBuffer) (es : List DupBuffer) :
    owned (e :: es) = e.recPtr.toList ++ owned es := by
  cases hp : e.recPtr with
  | none => simp [owned, hp]
  | some i => simp [owned, hp]

theorem owned_append (es es' : List DupBuffer) : owned (es ++ es') = owned es ++ owned es' :=
  List.filterMap_append

@[simp] theorem countSum_cons (e : DupBuffer) (es : List DupBuffer) :
    countSum (e :: es) = e.dupCount + countSum es := by
  simp [countSum]

@[simp] theorem pendingFor_cons (buf : List EventBuffer) (c : LogRecord) (e : DupBuffer)
    (es : List DupBuffer) :
    pendingFor buf c (e :: es) = entryPending buf c e + pendingFor buf c es := by
  simp [pendingFor]

theorem owned_perm (h : es.Perm es') : (owned es).Perm (owned es') := h.filterMap _

theorem countSum_perm (h : es.Perm es') : countSum es = countSum es' := (h.map _).sum_eq

theorem pendingFor_perm (h : es.Perm es') : pendingFor buf c es = pendingFor buf c es' :=
  (h.map _).sum_eq

theorem dupCount_le_countSum (h : e ∈ es) : e.dupCount ≤ countSum es :=
  List.single_le_sum (by simp) _ (List.mem_map_of_mem h)

/-- The counts depend on the events the entries point to only. -/
theorem pendingFor_congr {buf' : List EventBuffer}
    (h : ∀ e ∈ es, recAt buf' e.recPtr = recAt buf e.recPtr) :
    pendingFor buf' c es = pendingFor buf c es := by
  unfold pendingFor
  congr 1
  apply List.map_congr_left
  intro e he
  rw [entryPending, entryPending, h e he]

theorem pendingFor_setInUse (i : Nat) (inUse : Bool) :
    pendingFor (setInUse buf i inUse) c es = pendingFor buf c es :=
  pendingFor_congr fun _ _ => recAt_setInUse ..

theorem pendingFor_of_countSum (h : countSum es = 0) : pendingFor buf c es = 0 := by
  apply List.sum_eq_zero
  intro n hn
  obtain ⟨e, he, rfl⟩ := List.mem_map.mp hn
  have hle := dupCount_le_countSum he
  unfold entryPending
  split_ifs
  · omega
  · rfl

theorem entryOk_zeroEntry : EntryOk zeroEntry := ⟨nofun, fun _ => rfl⟩

theorem owns_releaseEntry {i : Nat} {ctx : List Nat} (he : EntryOk e) (hptr : e.recPtr = some i)
    (h : Owns (flags buf) (e.recPtr.toList ++ ctx)) :
    Owns (flags (setInUse buf e.bufIndex false)) ctx := by
  rw [hptr] at h
  rw [flags_setInUse, he.index_eq i hptr]
  exact h.release

end Entries

/-! ## What was written -/

/-- The events of the class of `c` written to log `l`. -/
def writtenFor (l : LogId) (c : LogRecord) (outs : List DupOutput) : Nat :=
  (outs.map fun
    | .logEvlRec l' rec => if l' = l ∧ compareEventRecords rec c then 1 else 0
    | .writeDiscardEvent .. => 0).sum

/-- The counts in the discard events written to log `l` for the class of
`c`, under the facility and event type of that class. -/
def discardedFor (l : LogId) (c : LogRecord) (outs : List DupOutput) : Nat :=
  (outs.map fun
    | .logEvlRec .. => 0
    | .writeDiscardEvent l' facNum eventType count kept =>
      if l' = l ∧ compareEventRecords kept c ∧ facNum = c.entry.logFacility
          ∧ eventType = c.entry.logEventType
      then count else 0).sum

def accountedFor (l : LogId) (c : LogRecord) (outs : List DupOutput) : Nat :=
  writtenFor l c outs + discardedFor l c outs

section Outputs

variable (l l' : LogId) (c : LogRecord)

@[simp] theorem accountedFor_nil : accountedFor l c [] = 0 := rfl

@[simp] theorem accountedFor_append (outs outs' : List DupOutput) :
    accountedFor l c (outs ++ outs') = accountedFor l c outs + accountedFor l c outs' := by
  simp only [accountedFor, writtenFor, discardedFor, List.map_append, List.sum_append]
  omega

theorem accountedFor_cons (out : DupOutput) (outs : List DupOutput) :
    accountedFor l c (out :: outs) = accountedFor l c [out] + accountedFor l c outs :=
  accountedFor_append l c [out] outs

theorem accountedFor_logEvlRec (rec : LogRecord) : accountedFor l c [.logEvlRec l' rec]
      = if l' = l ∧ compareEventRecords rec c then 1 else 0 := by
  simp [accountedFor, writtenFor, discardedFor]

/-- A discard event under the facility and event type of an equal event
reports its count for the class of that event. -/
theorem accountedFor_discard {rhdr kept : LogRecord} (h : compareEventRecords rhdr kept = true)
    (count : Nat) :
    accountedFor l c [.writeDiscardEvent l' rhdr.entry.logFacility rhdr.entry.logEventType count
        kept]
      = if l' = l ∧ compareEventRecords kept c then count else 0 := by
  obtain ⟨hfac, htype⟩ := facility_of_compareEventRecords h
  simp only [accountedFor, writtenFor, discardedFor, List.map_cons, List.map_nil, List.sum_cons,
    List.sum_nil, Nat.zero_add, Nat.add_zero]
  by_cases hc : compareEventRecords kept c
  · obtain ⟨hfac', htype'⟩ := facility_of_compareEventRecords hc
    simp [hfac, htype, hfac', htype']
  · simp [hc]

theorem compareEventRecords_self (r : LogRecord) : compareEventRecords r r = true :=
  (compareEventRecords_iff r r).mpr rfl

end Outputs

/-! ## The invariant -/

def otherLog : LogId → LogId
  | .evlLog => .pvtLog
  | .pvtLog => .evlLog

theorem otherLog_ne (l : LogId) : otherLog l ≠ l := by
  cases l <;> decide

def DupState.entries (s : DupState) (l : LogId) : List DupBuffer :=
  (s.linfo l).dupRecsArray.getD []

/-- Between two actions of the parent process: entries, slots and counts
fit together. -/
structure DupInv (s : DupState) : Prop where
  size_pos : 0 < s.dupArraySize
  buf_length : s.buf.length = if s.disDupRecs then 2 * s.dupArraySize + 1 else 1
  off_none : s.disDupRecs = false → ∀ l, (s.linfo l).dupRecsArray = none
  length_eq : ∀ l es, (s.linfo l).dupRecsArray = some es → es.length = s.dupArraySize
  entries_ok : ∀ l, ∀ e ∈ s.entries l, EntryOk e
  count_eq : ∀ l, (s.linfo l).dupCount = countSum (s.entries l)
  owns : Owns (flags s.buf) (owned (s.entries .evlLog) ++ owned (s.entries .pvtLog))
  equalityIndex_ge : -1 ≤ s.equalityIndex

variable {s : DupState}

theorem DupInv.owns_at (h : DupInv s) (l : LogId) :
    Owns (flags s.buf) (owned (s.entries l) ++ owned (s.entries (otherLog l))) := by
  cases l with
  | evlLog => exact h.owns
  | pvtLog => exact h.owns.perm List.perm_append_comm

@[simp] theorem linfo_setLinfo (s : DupState) (l : LogId) (linfo : DupLog) :
    (s.setLinfo l linfo).linfo l = linfo := by
  cases l <;> rfl

theorem linfo_setLinfo_ne (s : DupState) {l l' : LogId} (h : l' ≠ l) (linfo : DupLog) :
    (s.setLinfo l linfo).linfo l' = s.linfo l' := by
  cases l <;> cases l' <;> first | rfl | exact absurd rfl h

@[simp] theorem buf_setLinfo (s : DupState) (l : LogId) (linfo : DupLog) :
    (s.setLinfo l linfo).buf = s.buf := by
  cases l <;> rfl

theorem entries_setLinfo (s : DupState) (l : LogId) (n : Nat) (es : List DupBuffer) :
    (s.setLinfo l ⟨n, some es⟩).entries l = es := by
  rw [DupState.entries, linfo_setLinfo]
  rfl

theorem entries_setLinfo_ne (s : DupState) {l l' : LogId} (h : l' ≠ l) (linfo : DupLog) :
    (s.setLinfo l linfo).entries l' = s.entries l' := by
  rw [DupState.entries, linfo_setLinfo_ne s h, DupState.entries]

/-- The invariant depends on entries, sizes and in-use flags only. -/
theorem DupInv.congr (h : DupInv s) {s' : DupState} (hlinfo : ∀ l, s'.linfo l = s.linfo l)
    (hsize : s'.dupArraySize = s.dupArraySize) (hon : s'.disDupRecs = s.disDupRecs)
    (hflags : flags s'.buf = flags s.buf) (hindex : -1 ≤ s'.equalityIndex) : DupInv s' := by
  have hentries : ∀ l, s'.entries l = s.entries l := by
    intro l
    rw [DupState.entries, hlinfo, DupState.entries]
  have hlen : s'.buf.length = s.buf.length := by
    rw [← flags_length s'.buf, hflags, flags_length]
  refine ⟨by rw [hsize]; exact h.size_pos, by rw [hlen, hon, hsize]; exact h.buf_length, ?_, ?_,
    ?_, ?_, ?_, hindex⟩
  · intro hoff l
    rw [hlinfo]
    exact h.off_none (hon ▸ hoff) l
  · intro l es hes
    rw [hlinfo] at hes
    rw [hsize, h.length_eq l es hes]
  · intro l e he
    rw [hentries] at he
    exact h.entries_ok l e he
  · intro l
    rw [hentries, hlinfo, h.count_eq l]
  · rw [hflags, hentries, hentries]
    exact h.owns

/-- New entries for one log, with a new buffer, keep the invariant if
they fit together. -/
theorem DupInv.update (h : DupInv s) (hon : s.disDupRecs = true) (l : LogId)
    {buf : List EventBuffer} {es : List DupBuffer} {n : Nat}
    (hbuf : buf.length = s.buf.length) (hlen : es.length = s.dupArraySize)
    (hok : ∀ e ∈ es, EntryOk e) (hn : n = countSum es)
    (howns : Owns (flags buf) (owned es ++ owned (s.entries (otherLog l)))) :
    DupInv (({ s with buf := buf }).setLinfo l ⟨n, some es⟩) := by
  have hkeep : ∀ l', l' ≠ l → (({ s with buf := buf }).setLinfo l ⟨n, some es⟩).linfo l'
      = s.linfo l' := by
    intro l' hne
    rw [linfo_setLinfo_ne _ hne]
    cases l' <;> rfl
  have hentries : ∀ l', l' ≠ l →
      (({ s with buf := buf }).setLinfo l ⟨n, some es⟩).entries l' = s.entries l' := by
    intro l' hne
    rw [DupState.entries, hkeep l' hne, DupState.entries]
  have hself := entries_setLinfo { s with buf := buf } l n es
  refine ⟨?_, ?_, ?_, ?_, ?_, ?_, ?_, ?_⟩
  · cases l <;> exact h.size_pos
  · have := hbuf.trans h.buf_length
    cases l <;> exact this
  · intro hoff
    have : s.disDupRecs = false := by cases l <;> exact hoff
    rw [hon] at this
    cases this
  · intro l' es' hes'
    have hsize : es'.length = s.dupArraySize := by
      by_cases hl : l' = l
      · subst hl
        rw [linfo_setLinfo, Option.some.injEq] at hes'
        rw [← hes', hlen]
      · rw [hkeep l' hl] at hes'
        exact h.length_eq l' es' hes'
    cases l <;> exact hsize
  · intro l' e he
    by_cases hl : l' = l
    · subst hl
      rw [hself] at he
      exact hok e he
    · rw [hentries l' hl] at he
      exact h.entries_ok l' e he
  · intro l'
    by_cases hl : l' = l
    · subst hl
      rw [hself, linfo_setLinfo, hn]
    · rw [hentries l' hl, hkeep l' hl, h.count_eq l']
  · have hother := hentries (otherLog l) (otherLog_ne l)
    rw [buf_setLinfo]
    cases l with
    | evlLog => rwa [hself, show LogId.pvtLog = otherLog .evlLog from rfl, hother]
    | pvtLog =>
      rw [hself, show LogId.evlLog = otherLog .pvtLog from rfl, hother]
      exact howns.perm List.perm_append_comm
  · cases l <;> exact h.equalityIndex_ge

/-- The `calloc` in `dropDupRecord` adds entries that point nowhere. -/
theorem lookbackArray_spec (h : DupInv s) (l : LogId) : (lookbackArray s l).length = s.dupArraySize
      ∧ (∀ e ∈ lookbackArray s l, EntryOk e)
      ∧ (s.linfo l).dupCount = countSum (lookbackArray s l)
      ∧ Owns (flags s.buf) (owned (lookbackArray s l) ++ owned (s.entries (otherLog l)))
      ∧ ∀ buf c, pendingFor buf c (lookbackArray s l) = pendingFor buf c (s.entries l) := by
  cases harr : (s.linfo l).dupRecsArray with
  | some es =>
    have hes : lookbackArray s l = s.entries l := by
      rw [lookbackArray, DupState.entries, harr]
      rfl
    rw [hes]
    refine ⟨?_, h.entries_ok l, h.count_eq l, h.owns_at l, fun _ _ => rfl⟩
    rw [DupState.entries, harr]
    exact h.length_eq l es harr
  | none =>
    have hes : lookbackArray s l = List.replicate s.dupArraySize zeroEntry := by
      rw [lookbackArray, harr]
      rfl
    have hnil : s.entries l = [] := by
      rw [DupState.entries, harr]
      rfl
    have hsum : countSum (List.replicate s.dupArraySize zeroEntry) = 0 := by
      simp [countSum, zeroEntry]
    rw [hes]
    refine ⟨List.length_replicate, ?_, ?_, ?_, ?_⟩
    · intro e he
      rw [List.eq_of_mem_replicate he]
      exact entryOk_zeroEntry
    · rw [h.count_eq l, hnil, hsum]
      rfl
    · have howned : owned (List.replicate s.dupArraySize zeroEntry) = owned (s.entries l) := by
        rw [hnil]
        simp [owned, zeroEntry]
      rw [howned]
      exact h.owns_at l
    · intro buf c
      rw [pendingFor_of_countSum hsum, hnil]
      rfl

/-! ## Replacing an entry -/

/-- The duplicates of the class of `c` that log `l` has not reported yet. -/
def DupState.pending (s : DupState) (l : LogId) (c : LogRecord) : Nat :=
  pendingFor s.buf c (s.entries l)

theorem ok_set {es : List DupBuffer} {k : Nat} {e' : DupBuffer} (hok : ∀ e ∈ es, EntryOk e)
    (he' : EntryOk e') : ∀ e ∈ es.set k e', EntryOk e := by
  intro e he
  rcases List.mem_or_eq_of_mem_set he with he | rfl
  · exact hok e he
  · exact he'

/-- The account of a log is that of its new entries; the other log's is
what it was if the events it points to are. -/
theorem pending_update {buf : List EventBuffer} (hbuf : ∀ p, recAt buf p = recAt s.buf p)
    (l : LogId) (n : Nat) (es : List DupBuffer) (l' : LogId) (c : LogRecord) :
    ((({ s with buf := buf }).setLinfo l ⟨n, some es⟩).pending l' c)
      = if l = l' then pendingFor s.buf c es else s.pending l' c := by
  rw [DupState.pending, buf_setLinfo, pendingFor_congr fun e _ => hbuf e.recPtr]
  by_cases hl : l = l'
  · subst hl
    rw [if_pos rfl, entries_setLinfo]
  · rw [if_neg hl, entries_setLinfo_ne _ (Ne.symm hl), DupState.pending]
    cases l' <;> rfl

/-- One entry of a log is replaced, in a buffer that holds the same events.
The invariant is kept if the log's count is adjusted and the slots change
hands, and the account changes by the two entries. -/
theorem setEntry_spec (h : DupInv s) (hon : s.disDupRecs = true) (l : LogId)
    (buf : List EventBuffer) (n : Nat) (e' : DupBuffer) {k : Nat}
    (hk : k < (lookbackArray s l).length)
    (hbuf : buf.length = s.buf.length) (hrec : ∀ p, recAt buf p = recAt s.buf p)
    (he' : EntryOk e')
    (hn : n + (lookbackArray s l)[k].dupCount = (s.linfo l).dupCount + e'.dupCount)
    (howns : ∀ ctx, Owns (flags s.buf) ((lookbackArray s l)[k].recPtr.toList ++ ctx) →
      Owns (flags buf) (e'.recPtr.toList ++ ctx)) :
    DupInv (({ s with buf := buf }).setLinfo l ⟨n, some ((lookbackArray s l).set k e')⟩)
      ∧ ∀ l' c, (({ s with buf := buf }).setLinfo l
            ⟨n, some ((lookbackArray s l).set k e')⟩).pending l' c
          + (if l = l' then entryPending s.buf c (lookbackArray s l)[k] else 0)
        = s.pending l' c + if l = l' then entryPending s.buf c e' else 0 := by
  obtain ⟨hlen, hok, hcount, hall, hpend⟩ := lookbackArray_spec h l
  obtain ⟨rest, hperm, hset⟩ := exists_perm_set hk
  have hset' := hset e'
  have hsum : countSum (lookbackArray s l)
      = (lookbackArray s l)[k].dupCount + countSum rest := by
    rw [countSum_perm hperm, countSum_cons]
  constructor
  · refine h.update hon l hbuf (by rw [List.length_set, hlen]) (ok_set hok he') ?_ ?_
    · rw [countSum_perm hset', countSum_cons]
      omega
    · -- the slots of the other entries, of both logs, are the context
      have hold := (owned_perm hperm).append_right (owned (s.entries (otherLog l)))
      have hnew := (owned_perm hset').append_right (owned (s.entries (otherLog l)))
      rw [owned_cons, List.append_assoc] at hold hnew
      exact (howns _ (hall.perm hold)).perm hnew.symm
  · intro l' c
    rw [pending_update hrec]
    by_cases hl : l = l'
    · subst hl
      rw [if_pos rfl, if_pos rfl, if_pos rfl, DupState.pending, ← hpend, pendingFor_perm hset',
        pendingFor_perm hperm, pendingFor_cons, pendingFor_cons]
      omega
    · rw [if_neg hl, if_neg hl, if_neg hl]

end Evlog.Evlogd
