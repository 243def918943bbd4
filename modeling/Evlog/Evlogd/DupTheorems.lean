/-
Evlog.Evlogd.DupTheorems — what the dup machinery of evlogd.c keeps.

Every step keeps `DupInv` and conserves the events: for every log and
every class of equal events, an event received is written, or counted in
an entry, and what is taken off an entry is reported. One spec lemma per
function says both (`countDuplicate_spec`, `replaceEntry_spec`,
`checkDupEventTimeoutForLog_spec`, `reallocBuffer_spec`); the run theorems
follow by induction on the actions.
-/
import Evlog.Lib.Transition
import Evlog.Evlogd.DupInvariant

namespace Evlog.Evlogd

open Evlog.Lib Evlog.Posix

variable {s : DupState}

/-! ## The loop of `dropDupRecord` -/

/-- The result of the loop names an entry of the array, in the first case
one that is a duplicate. -/
def LookbackOk (s : DupState) (rhdr : LogRecord) (curTime : Int) (es : List DupBuffer) :
    LookbackResult → Prop
  | .duplicate k => ∃ h : k < es.length, isDuplicate s rhdr curTime es[k] = true
  | .replace k _ => k < es.length

theorem lookback_ok (s : DupState) (rhdr : LogRecord) (curTime : Int) (rest : List DupBuffer) :
    ∀ (pre : List DupBuffer) (replacePtr : Nat) (replaceScore : Int) (equalityFlag : Bool),
      replacePtr < (pre ++ rest).length →
      LookbackOk s rhdr curTime (pre ++ rest)
        (lookback s rhdr curTime replacePtr replaceScore equalityFlag pre.length rest) := by
  induction rest with
  | nil =>
    intro pre replacePtr replaceScore equalityFlag hlt
    exact hlt
  | cons e rest ih =>
    intro pre replacePtr replaceScore equalityFlag hlt
    have hpre : pre.length + 1 = (pre ++ [e]).length := by simp
    have hall : pre ++ e :: rest = (pre ++ [e]) ++ rest := by simp
    unfold lookback
    dsimp only
    by_cases hdup : isDuplicate s rhdr curTime e
    · rw [if_pos hdup]
      exact ⟨by simp, by simpa using hdup⟩
    · rw [if_neg hdup, hpre, hall]
      rw [hall] at hlt
      split_ifs
      · exact ih (pre ++ [e]) pre.length _ false (by simp)
      · exact ih (pre ++ [e]) replacePtr replaceScore false hlt
      · exact ih (pre ++ [e]) replacePtr replaceScore equalityFlag hlt

/-! ## One event -/

/-- One event of the class of `c` for log `l`. -/
def oneEvent (l' : LogId) (rhdr : LogRecord) (l : LogId) (c : LogRecord) : Nat :=
  if l' = l ∧ compareEventRecords rhdr c then 1 else 0

variable {k bufIndex : Nat}

theorem dupCount_le_linfo (h : DupInv s) (l : LogId) (hk : k < (lookbackArray s l).length) :
    (lookbackArray s l)[k].dupCount ≤ (s.linfo l).dupCount := by
  rw [(lookbackArray_spec h l).2.2.1]
  exact dupCount_le_countSum (List.getElem_mem hk)

variable {e : DupBuffer}

theorem exists_of_isDuplicate {rhdr : LogRecord} {curTime : Int}
    (h : isDuplicate s rhdr curTime e = true) :
    ∃ i, e.recPtr = some i ∧ compareEventRecords rhdr (recAt s.buf e.recPtr) = true := by
  unfold isDuplicate at h
  cases hp : e.recPtr with
  | none => simp [hp] at h
  | some i =>
    simp only [hp, Bool.and_eq_true] at h
    exact ⟨i, rfl, h.2⟩

/-- A duplicate is counted, and the count reported when it is time. -/
theorem countDuplicate_spec (h : DupInv s) (hon : s.disDupRecs = true) (l : LogId)
    (rhdr : LogRecord) (curTime : Int) (hk : k < (lookbackArray s l).length)
    (hdup : isDuplicate s rhdr curTime (lookbackArray s l)[k] = true) :
    DupInv (countDuplicate s l rhdr curTime (lookbackArray s l) k (lookbackArray s l)[k]).1
      ∧ ∀ l' c, (countDuplicate s l rhdr curTime (lookbackArray s l) k
            (lookbackArray s l)[k]).1.pending l' c
          + accountedFor l' c (countDuplicate s l rhdr curTime (lookbackArray s l) k
            (lookbackArray s l)[k]).2
        = s.pending l' c + oneEvent l rhdr l' c := by
  have heok := (lookbackArray_spec h l).2.1 _ (List.getElem_mem hk)
  have hle := dupCount_le_linfo h l hk
  have hset := fun buf n e' => setEntry_spec h hon l buf n e' hk
  generalize (lookbackArray s l)[k] = e at hdup heok hle hset ⊢
  obtain ⟨i, hptr, hsame⟩ := exists_of_isDuplicate hdup
  have hclass := compareEventRecords_congr hsame
  unfold countDuplicate
  dsimp only
  by_cases hlimit : ((e.dupCount + 1 : Nat) : Int) = s.dupCount
      ∨ curTime - e.timeStart ≥ s.dupInterval
  · rw [if_pos hlimit]
    simp only [discard]
    obtain ⟨hinv, hcons⟩ := hset (setInUse s.buf e.bufIndex false)
      ((s.linfo l).dupCount + 1 - (e.dupCount + 1))
      { e with recPtr := none, dupCount := 0, timeStart := 0 }
      (setInUse_length ..) (fun p => recAt_setInUse ..) ⟨nofun, fun _ => rfl⟩
      (by simp only; omega) (fun ctx hctx => owns_releaseEntry heok hptr hctx)
    refine ⟨hinv, ?_⟩
    intro l' c
    have hpend := hcons l' c
    rw [accountedFor_discard _ _ _ hsame]
    by_cases hl : l = l'
    · simp only [hl, if_true, true_and, oneEvent, entryPending, hclass c] at hpend ⊢
      split_ifs at hpend ⊢ <;> omega
    · simpa [hl, oneEvent] using hpend
  · rw [if_neg hlimit]
    obtain ⟨hinv, hcons⟩ := hset s.buf ((s.linfo l).dupCount + 1)
      { e with dupCount := e.dupCount + 1 } rfl (fun p => rfl)
      ⟨heok.index_eq, fun hnone => by rw [hptr] at hnone; cases hnone⟩
      (by simp only; omega) (fun ctx hctx => hctx)
    refine ⟨hinv, ?_⟩
    intro l' c
    have hcounted : s.pending l' c
          + (if l = l' then entryPending s.buf c { e with dupCount := e.dupCount + 1 } else 0)
        = s.pending l' c + oneEvent l rhdr l' c
          + if l = l' then entryPending s.buf c e else 0 := by
      by_cases hl : l = l'
      · simp only [hl, if_true, true_and, oneEvent, entryPending, hclass c]
        split_ifs <;> omega
      · simp [hl, oneEvent]
    exact Nat.add_right_cancel ((hcons l' c).trans hcounted)

/-- The discard event for an entry that is given up reports its count. -/
theorem accountedFor_entry (l l' : LogId) (c : LogRecord) (buf : List EventBuffer) (e : DupBuffer) :
    accountedFor l' c (if 0 < e.dupCount then
        [DupOutput.writeDiscardEvent l (recAt buf e.recPtr).entry.logFacility
          (recAt buf e.recPtr).entry.logEventType e.dupCount (recAt buf e.recPtr)]
      else []) = if l = l' then entryPending buf c e else 0 := by
  unfold entryPending
  split_ifs with hpos hl hc hl hc
  · rw [accountedFor_discard _ _ _ (compareEventRecords_self _), if_pos ⟨hl, hc⟩]
  · rw [accountedFor_discard _ _ _ (compareEventRecords_self _), if_neg (fun h => hc h.2)]
  · rw [accountedFor_discard _ _ _ (compareEventRecords_self _), if_neg (fun h => hl h.1)]
  · rw [accountedFor_nil]
    omega
  · rw [accountedFor_nil]
  · rw [accountedFor_nil]

/-- The slot of an entry that is given up is released, if it has one; a
free slot stays free. -/
theorem owns_giveUpEntry {buf : List EventBuffer} {ctx : List Nat} {j : Nat} (he : EntryOk e)
    (h : Owns (flags buf) (e.recPtr.toList ++ ctx)) (hfree : (flags buf)[j]? = some false) :
    Owns (flags (if e.recPtr ≠ none then setInUse buf e.bufIndex false else buf)) ctx
      ∧ (flags (if e.recPtr ≠ none then setInUse buf e.bufIndex false else buf))[j]?
        = some false := by
  cases hptr : e.recPtr with
  | none =>
    rw [hptr] at h
    rw [if_neg (by simp)]
    exact ⟨h, hfree⟩
  | some i =>
    rw [if_pos (by simp)]
    refine ⟨owns_releaseEntry he hptr h, ?_⟩
    rw [flags_setInUse, List.getElem?_set]
    split_ifs with hi hlt
    · rfl
    · subst hi
      rw [List.getElem?_eq_none (Nat.not_lt.mp hlt)] at hfree
      cases hfree
    · exact hfree

/-- A new event takes over an entry, whose count is reported. -/
theorem replaceEntry_spec (h : DupInv s) (hon : s.disDupRecs = true) (l : LogId)
    (hfree : (flags s.buf)[bufIndex]? = some false) (curTime : Int)
    (hk : k < (lookbackArray s l).length) :
    DupInv (replaceEntry s l bufIndex curTime (lookbackArray s l) k (lookbackArray s l)[k]).1
      ∧ ∀ l' c, (replaceEntry s l bufIndex curTime (lookbackArray s l) k
            (lookbackArray s l)[k]).1.pending l' c
          + accountedFor l' c (replaceEntry s l bufIndex curTime (lookbackArray s l) k
            (lookbackArray s l)[k]).2
        = s.pending l' c := by
  have heok := (lookbackArray_spec h l).2.1 _ (List.getElem_mem hk)
  have hle := dupCount_le_linfo h l hk
  have hset := fun buf n e' => setEntry_spec h hon l buf n e' hk
  generalize (lookbackArray s l)[k] = e at heok hle hset ⊢
  unfold replaceEntry
  dsimp only
  generalize hbuf : (if e.recPtr ≠ none then setInUse s.buf e.bufIndex false else s.buf) = buf
  have hlen : buf.length = s.buf.length := by
    rw [← hbuf]
    split_ifs
    · exact setInUse_length ..
    · rfl
  have hrec : ∀ p, recAt buf p = recAt s.buf p := by
    intro p
    rw [← hbuf]
    split_ifs
    · exact recAt_setInUse ..
    · rfl
  obtain ⟨hinv, hcons⟩ := hset (setInUse buf bufIndex true) ((s.linfo l).dupCount - e.dupCount)
    { recPtr := some bufIndex, dupCount := 0, bufIndex := bufIndex, timeStart := curTime }
    (by rw [setInUse_length, hlen]) (fun p => by rw [recAt_setInUse, hrec])
    ⟨fun i hi => Option.some.inj hi, nofun⟩ (by simp only; omega) (by
      intro ctx hctx
      obtain ⟨hreleased, hstillFree⟩ := owns_giveUpEntry heok hctx hfree
      rw [hbuf] at hreleased hstillFree
      rw [flags_setInUse]
      exact hreleased.claim hstillFree)
  refine ⟨hinv, ?_⟩
  intro l' c
  have hpend := hcons l' c
  rw [accountedFor_entry, hpend]
  simp [entryPending]

theorem DupInv.setEqualityIndex (h : DupInv s) {n : Int} (hn : -1 ≤ n) :
    DupInv { s with equalityIndex := n } :=
  h.congr (fun l => by cases l <;> rfl) rfl rfl rfl hn

theorem pending_setEqualityIndex (n : Int) (l : LogId) (c : LogRecord) :
    ({ s with equalityIndex := n } : DupState).pending l c = s.pending l c := by
  cases l <;> rfl

theorem getD_of_lt {es : List DupBuffer} (hk : k < es.length) : es.getD k zeroEntry = es[k] := by
  simp [hk]

/-- After the loop: a dropped event is counted or reported, and no count
is lost. -/
theorem afterLookback_spec (h : DupInv s) (hon : s.disDupRecs = true) (rhdr : LogRecord) (l : LogId)
    (hfree : (flags s.buf)[bufIndex]? = some false) (curTime : Int) (result : LookbackResult)
    (hresult : LookbackOk s rhdr curTime (lookbackArray s l) result) :
    DupInv (afterLookback s rhdr l bufIndex curTime (lookbackArray s l) result).2.1
      ∧ ∀ l' c, (afterLookback s rhdr l bufIndex curTime (lookbackArray s l) result).2.1.pending l' c
          + accountedFor l' c
            (afterLookback s rhdr l bufIndex curTime (lookbackArray s l) result).2.2
        = s.pending l' c
          + if (afterLookback s rhdr l bufIndex curTime (lookbackArray s l) result).1
            then oneEvent l rhdr l' c else 0 := by
  match result, hresult with
  | .duplicate k, ⟨hk, hdup⟩ =>
    rw [afterLookback, getD_of_lt hk]
    exact countDuplicate_spec h hon l rhdr curTime hk hdup
  | .replace k false, hk =>
    rw [afterLookback, getD_of_lt hk]
    exact replaceEntry_spec h hon l hfree curTime hk
  | .replace _ true, _ =>
    rw [afterLookback]
    generalize hnext : (if s.equalityIndex + 1 ≥ s.dupArraySize then 0
      else s.equalityIndex + 1) = next
    have hrange : 0 ≤ next ∧ next < s.dupArraySize := by
      have hge := h.equalityIndex_ge
      have hpos := h.size_pos
      rw [← hnext]
      split_ifs <;> omega
    have hk : next.toNat < (lookbackArray s l).length := by
      rw [(lookbackArray_spec h l).1]
      omega
    have harr : lookbackArray { s with equalityIndex := next } l = lookbackArray s l := by
      cases l <;> rfl
    have hrep := replaceEntry_spec (h.setEqualityIndex (n := next) (by omega)) hon l
      hfree curTime (k := next.toNat) (by rw [harr]; exact hk)
    simp only [harr, pending_setEqualityIndex] at hrep
    dsimp only
    rw [getD_of_lt hk]
    exact hrep

/-- `dropDupRecord` on a slot that is free. -/
theorem dropDupRecord_spec (h : DupInv s) (rhdr : LogRecord) (l : LogId)
    (hfree : s.disDupRecs = true → (flags s.buf)[bufIndex]? = some false) (curTime : Int) :
    DupInv (dropDupRecord s rhdr l bufIndex curTime).2.1
      ∧ ∀ l' c, (dropDupRecord s rhdr l bufIndex curTime).2.1.pending l' c
          + accountedFor l' c (dropDupRecord s rhdr l bufIndex curTime).2.2
        = s.pending l' c
          + if (dropDupRecord s rhdr l bufIndex curTime).1 then oneEvent l rhdr l' c else 0 := by
  unfold dropDupRecord
  by_cases hon : s.disDupRecs = true
  · rw [if_neg (by simp [hon])]
    exact afterLookback_spec h hon rhdr l (hfree hon) curTime _
      (lookback_ok s rhdr curTime (lookbackArray s l) [] 0 _ true
        (by rw [List.nil_append, (lookbackArray_spec h l).1]; exact h.size_pos))
  · rw [if_pos (by simpa using hon)]
    exact ⟨h, fun l' c => by simp⟩

/-! ### The slot of the next event -/

theorem owned_length_le (es : List DupBuffer) : (owned es).length ≤ es.length :=
  List.length_filterMap_le _ _

theorem DupInv.entries_length_le (h : DupInv s) (l : LogId) :
    (s.entries l).length ≤ s.dupArraySize := by
  unfold DupState.entries
  cases harr : (s.linfo l).dupRecsArray with
  | none => exact Nat.zero_le _
  | some es => exact (h.length_eq l es harr).le

/-- No more than `2 * dup_array_size` slots are owned. -/
theorem DupInv.owned_length_le (h : DupInv s) :
    (owned (s.entries .evlLog) ++ owned (s.entries .pvtLog)).length ≤ 2 * s.dupArraySize := by
  have h1 := (Evlogd.owned_length_le (s.entries .evlLog)).trans (h.entries_length_le .evlLog)
  have h2 := (Evlogd.owned_length_le (s.entries .pvtLog)).trans (h.entries_length_le .pvtLog)
  rw [List.length_append]
  omega

/-- With discarding on, the slot search finds a free slot. -/
theorem nextSlot_free (h : DupInv s) (hon : s.disDupRecs = true) :
    nextSlot s < s.buf.length ∧ (flags s.buf)[nextSlot s]? = some false := by
  have hlen : s.buf.length = 2 * s.dupArraySize + 1 := by rw [h.buf_length, if_pos hon]
  obtain ⟨i, hi, hfree⟩ := h.owns.exists_free (by
    have := h.owned_length_le
    rw [flags_length, hlen]
    omega)
  rw [flags_length] at hi
  have hslot : nextSlot s = s.buf.findIdx fun slot => !slot.inUse := by
    rw [nextSlot, if_pos hon, findSlot]
  have hlt : (s.buf.findIdx fun slot => !slot.inUse) < s.buf.length := by
    apply List.findIdx_lt_length_of_exists
    refine ⟨s.buf[i], List.getElem_mem hi, ?_⟩
    rw [flags, List.getElem?_map, List.getElem?_eq_getElem hi] at hfree
    simpa using hfree
  rw [hslot]
  refine ⟨hlt, ?_⟩
  have hget := List.findIdx_getElem (w := hlt)
  rw [flags, List.getElem?_map, List.getElem?_eq_getElem hlt]
  simpa using hget

@[simp] theorem flags_readEvent (s : DupState) (rhdr : LogRecord) :
    flags (readEvent s rhdr).buf = flags s.buf := by
  unfold flags readEvent
  apply List.ext_getElem?
  intro j
  simp only [List.getElem?_map, List.getElem?_modify]
  cases s.buf[j]? with
  | none => rfl
  | some slot => by_cases hj : nextSlot s = j <;> simp [hj]

theorem entries_readEvent (s : DupState) (rhdr : LogRecord) (l : LogId) :
    (readEvent s rhdr).entries l = s.entries l := by
  cases l <;> rfl

theorem recAt_readEvent (h : DupInv s) (rhdr : LogRecord) {l : LogId} (he : e ∈ s.entries l) :
    recAt (readEvent s rhdr).buf e.recPtr = recAt s.buf e.recPtr := by
  cases hptr : e.recPtr with
  | none => rfl
  | some i =>
    have hon : s.disDupRecs = true := by
      by_contra hoff
      have hnone := h.off_none (by simpa using hoff) l
      rw [DupState.entries, hnone] at he
      cases he
    have howned : i ∈ owned (s.entries l) ++ owned (s.entries (otherLog l)) := by
      refine List.mem_append_left _ ?_
      rw [owned, List.mem_filterMap]
      exact ⟨e, he, hptr⟩
    have hne : nextSlot s ≠ i := by
      intro heq
      have hset := ((h.owns_at l).set_iff i).mpr howned
      rw [← heq, (nextSlot_free h hon).2] at hset
      cases hset
    unfold recAt readEvent
    simp only [List.getElem?_modify, if_neg hne]
    simp

theorem DupInv.readEvent (h : DupInv s) (rhdr : LogRecord) : DupInv (readEvent s rhdr) :=
  h.congr (fun l => by cases l <;> rfl) rfl rfl (flags_readEvent s rhdr) h.equalityIndex_ge

theorem pending_readEvent (h : DupInv s) (rhdr : LogRecord) (l : LogId) (c : LogRecord) :
    (readEvent s rhdr).pending l c = s.pending l c := by
  rw [DupState.pending, entries_readEvent, DupState.pending]
  exact pendingFor_congr fun e he => recAt_readEvent h rhdr he

/-- One event: it is written, or counted and later reported. -/
theorem processEvent_spec (h : DupInv s) (l : LogId) (rhdr : LogRecord) (curTime : Int) :
    DupInv (processEvent s l rhdr curTime).1
      ∧ ∀ l' c, (processEvent s l rhdr curTime).1.pending l' c
          + accountedFor l' c (processEvent s l rhdr curTime).2
        = s.pending l' c + oneEvent l rhdr l' c := by
  have hfree : (readEvent s rhdr).disDupRecs = true →
      (flags (readEvent s rhdr).buf)[nextSlot s]? = some false := by
    intro hon
    rw [flags_readEvent]
    exact (nextSlot_free h hon).2
  obtain ⟨hinv, hcons⟩ := dropDupRecord_spec (h.readEvent rhdr) rhdr l hfree curTime
  unfold processEvent
  cases hres : dropDupRecord (readEvent s rhdr) rhdr l (nextSlot s) curTime with
  | mk drop result =>
    rw [hres] at hinv hcons
    obtain ⟨s', out⟩ := result
    simp only [pending_readEvent h] at hcons
    cases drop with
    | true => exact ⟨hinv, fun l' c => by simpa using hcons l' c⟩
    | false =>
      refine ⟨hinv, ?_⟩
      intro l' c
      have := hcons l' c
      simp only [Bool.false_eq_true, if_false, Nat.add_zero] at this
      simp only [accountedFor_append, accountedFor_logEvlRec]
      rw [← this, oneEvent]
      omega

/-! ## Timeouts and dumps -/

section DiscardLoop

variable (l : LogId) (due : DupBuffer → Bool)

theorem discardLoop_cons_due {e : DupBuffer} (h : 0 < e.dupCount ∧ due e)
    (buf : List EventBuffer) (es : List DupBuffer) :
    discardLoop l due buf (e :: es)
      = ({ e with recPtr := none, dupCount := 0, timeStart := 0 }
            :: (discardLoop l due (setInUse buf e.bufIndex false) es).1,
          (discardLoop l due (setInUse buf e.bufIndex false) es).2.1,
          e.dupCount + (discardLoop l due (setInUse buf e.bufIndex false) es).2.2.1,
          .writeDiscardEvent l (recAt buf e.recPtr).entry.logFacility
              (recAt buf e.recPtr).entry.logEventType e.dupCount (recAt buf e.recPtr)
            :: (discardLoop l due (setInUse buf e.bufIndex false) es).2.2.2) := by
  rw [discardLoop, if_pos h]
  rfl

theorem discardLoop_cons_keep {e : DupBuffer} (h : ¬ (0 < e.dupCount ∧ due e))
    (buf : List EventBuffer) (es : List DupBuffer) :
    discardLoop l due buf (e :: es)
      = (e :: (discardLoop l due buf es).1, (discardLoop l due buf es).2.1,
          (discardLoop l due buf es).2.2.1, (discardLoop l due buf es).2.2.2) := by
  rw [discardLoop, if_neg h]

theorem recAt_discardLoop (es : List DupBuffer) : ∀ (buf : List EventBuffer) (p : Option Nat),
      recAt (discardLoop l due buf es).2.1 p = recAt buf p := by
  induction es with
  | nil => intro buf p; rfl
  | cons e es ih =>
    intro buf p
    by_cases hdue : 0 < e.dupCount ∧ due e
    · rw [discardLoop_cons_due l due hdue, ih, recAt_setInUse]
    · rw [discardLoop_cons_keep l due hdue, ih]

/-- Forgotten entries give up their slots, and the counts taken off the
entries add up. -/
theorem discardLoop_owns (es : List DupBuffer) :
    ∀ (buf : List EventBuffer) (ctx : List Nat), (∀ e ∈ es, EntryOk e) →
      Owns (flags buf) (owned es ++ ctx) →
      (discardLoop l due buf es).1.length = es.length
        ∧ (∀ e ∈ (discardLoop l due buf es).1, EntryOk e)
        ∧ (discardLoop l due buf es).2.1.length = buf.length
        ∧ Owns (flags (discardLoop l due buf es).2.1) (owned (discardLoop l due buf es).1 ++ ctx)
        ∧ countSum (discardLoop l due buf es).1 + (discardLoop l due buf es).2.2.1
            = countSum es := by
  induction es with
  | nil =>
    intro buf ctx hok howns
    exact ⟨rfl, hok, rfl, howns, rfl⟩
  | cons e es ih =>
    intro buf ctx hok howns
    have heok := hok e (by simp)
    have hok' : ∀ e ∈ es, EntryOk e := fun e he => hok e (by simp [he])
    rw [owned_cons, List.append_assoc] at howns
    by_cases hdue : 0 < e.dupCount ∧ due e
    · rw [discardLoop_cons_due l due hdue]
      obtain ⟨i, hptr⟩ : ∃ i, e.recPtr = some i := by
        cases hp : e.recPtr with
        | none => have := heok.none_zero hp; omega
        | some i => exact ⟨i, rfl⟩
      obtain ⟨hlen, hok1, hbuf, howns1, hsum⟩ :=
        ih _ ctx hok' (owns_releaseEntry heok hptr howns)
      refine ⟨by simp [hlen], ?_, by rw [hbuf, setInUse_length], ?_, ?_⟩
      · intro e1 he1
        rcases List.mem_cons.mp he1 with rfl | he1
        · exact ⟨nofun, fun _ => rfl⟩
        · exact hok1 e1 he1
      · rw [owned_cons]
        exact howns1
      · rw [countSum_cons, countSum_cons]
        simp only
        omega
    · rw [discardLoop_cons_keep l due hdue]
      have hctx : Owns (flags buf) (owned es ++ (e.recPtr.toList ++ ctx)) := by
        refine howns.perm ?_
        rw [← List.append_assoc, ← List.append_assoc]
        exact List.perm_append_comm.append_right ctx
      obtain ⟨hlen, hok1, hbuf, howns1, hsum⟩ := ih buf _ hok' hctx
      refine ⟨by simp [hlen], ?_, hbuf, ?_, ?_⟩
      · intro e1 he1
        rcases List.mem_cons.mp he1 with rfl | he1
        · exact heok
        · exact hok1 e1 he1
      · rw [owned_cons, List.append_assoc]
        refine howns1.perm ?_
        rw [← List.append_assoc, ← List.append_assoc]
        exact List.perm_append_comm.append_right ctx
      · rw [countSum_cons, countSum_cons, Nat.add_assoc, hsum]

theorem discardLoop_account (l' : LogId) (c : LogRecord) (es : List DupBuffer) :
    ∀ buf : List EventBuffer,
      (if l = l' then pendingFor buf c (discardLoop l due buf es).1 else 0)
          + accountedFor l' c (discardLoop l due buf es).2.2.2
        = if l = l' then pendingFor buf c es else 0 := by
  induction es with
  | nil => intro buf; split_ifs <;> rfl
  | cons e es ih =>
    intro buf
    by_cases hdue : 0 < e.dupCount ∧ due e
    · rw [discardLoop_cons_due l due hdue, accountedFor_cons,
        accountedFor_discard _ _ _ (compareEventRecords_self _)]
      have hrest := ih (setInUse buf e.bufIndex false)
      rw [pendingFor_setInUse, pendingFor_setInUse] at hrest
      by_cases hl : l = l'
      · rw [if_pos hl, if_pos hl] at hrest ⊢
        rw [pendingFor_cons, pendingFor_cons, ← hrest, entryPending, entryPending]
        simp only [hl, true_and, ite_self]
        omega
      · rw [if_neg hl, if_neg hl] at hrest ⊢
        rw [if_neg (fun h => hl h.1)]
        omega
    · rw [discardLoop_cons_keep l due hdue]
      have hrest := ih buf
      by_cases hl : l = l'
      · rw [if_pos hl, if_pos hl] at hrest ⊢
        rw [pendingFor_cons, pendingFor_cons, Nat.add_assoc, hrest]
      · rw [if_neg hl, if_neg hl] at hrest ⊢
        exact hrest

theorem countSum_discardLoop_all (es : List DupBuffer) :
    ∀ buf : List EventBuffer, countSum (discardLoop l (fun _ => true) buf es).1 = 0 := by
  induction es with
  | nil => intro buf; rfl
  | cons e es ih =>
    intro buf
    by_cases hdue : 0 < e.dupCount ∧ (fun _ : DupBuffer => true) e
    · rw [discardLoop_cons_due l _ hdue, countSum_cons, ih]
    · rw [discardLoop_cons_keep l _ hdue, countSum_cons, ih]
      simp only [and_true] at hdue
      omega

end DiscardLoop

/-- `checkDupEventTimeoutForLog` reports what is due and keeps the rest. -/
theorem checkDupEventTimeoutForLog_spec (h : DupInv s) (l : LogId) (now tvSec : Int) :
    DupInv (checkDupEventTimeoutForLog s l now tvSec).1
      ∧ ∀ l' c, (checkDupEventTimeoutForLog s l now tvSec).1.pending l' c
          + accountedFor l' c (checkDupEventTimeoutForLog s l now tvSec).2.2
        = s.pending l' c := by
  unfold checkDupEventTimeoutForLog
  cases harr : (s.linfo l).dupRecsArray with
  | none => exact ⟨h, fun _ _ => rfl⟩
  | some es =>
    have hes : s.entries l = es := by
      rw [DupState.entries, harr]
      rfl
    have hon : s.disDupRecs = true := by
      by_contra hoff
      rw [h.off_none (by simpa using hoff) l] at harr
      cases harr
    dsimp only
    split_ifs with hzero
    · exact ⟨h, fun _ _ => rfl⟩
    · generalize hdue : (fun e => decide (timeoutOf s now e ≤ 0)) = due
      have howns := h.owns_at l
      have hok := h.entries_ok l
      rw [hes] at howns hok
      obtain ⟨hlen, hok', hbuf, howns', hsum⟩ := discardLoop_owns l due es s.buf _ hok howns
      constructor
      · refine h.update hon l hbuf (hlen.trans (h.length_eq l es harr)) hok' ?_ howns'
        rw [h.count_eq l, hes, ← hsum, Nat.add_sub_cancel]
      · intro l' c
        have hacc := discardLoop_account l due l' c es s.buf
        rw [pending_update (recAt_discardLoop l due es s.buf)]
        by_cases hl : l = l'
        · subst hl
          rw [if_pos rfl, if_pos rfl] at hacc
          rw [if_pos rfl, hacc, DupState.pending, hes]
        · rw [if_neg hl, if_neg hl, Nat.zero_add] at hacc
          rw [if_neg hl, hacc, Nat.add_zero]

theorem checkDupEventTimeout_spec (h : DupInv s) (evlNow pvtNow : Int) :
    DupInv (checkDupEventTimeout s evlNow pvtNow).1
      ∧ ∀ l c, (checkDupEventTimeout s evlNow pvtNow).1.pending l c
          + accountedFor l c (checkDupEventTimeout s evlNow pvtNow).2.2
        = s.pending l c := by
  obtain ⟨h1, hcons1⟩ := checkDupEventTimeoutForLog_spec h .evlLog evlNow 0
  obtain ⟨h2, hcons2⟩ := checkDupEventTimeoutForLog_spec h1 .pvtLog pvtNow
    (checkDupEventTimeoutForLog s .evlLog evlNow 0).2.1
  refine ⟨h2, ?_⟩
  intro l c
  have hout : (checkDupEventTimeout s evlNow pvtNow).2.2
      = (checkDupEventTimeoutForLog s .evlLog evlNow 0).2.2
        ++ (checkDupEventTimeoutForLog (checkDupEventTimeoutForLog s .evlLog evlNow 0).1 .pvtLog
          pvtNow (checkDupEventTimeoutForLog s .evlLog evlNow 0).2.1).2.2 := rfl
  rw [← hcons1 l c, ← hcons2 l c, hout, accountedFor_append, Nat.add_right_comm, Nat.add_assoc]
  rfl

/-- `dumpDuplicatesBuffer` reports everything the log has counted. The
slots of entries without duplicates stay in use, so the invariant is lost
until the buffer is reallocated. -/
theorem dumpDuplicatesBuffer_spec (s : DupState) (l : LogId) :
    (∀ p, recAt (dumpDuplicatesBuffer s l).1.buf p = recAt s.buf p)
      ∧ (dumpDuplicatesBuffer s l).1.entries l = []
      ∧ (∀ l', l' ≠ l → (dumpDuplicatesBuffer s l).1.linfo l' = s.linfo l')
      ∧ ((s.linfo l).dupCount = countSum (s.entries l) →
          (dumpDuplicatesBuffer s l).1.linfo l = zeroLog)
      ∧ ∀ l' c, accountedFor l' c (dumpDuplicatesBuffer s l).2
          = if l = l' then s.pending l' c else 0 := by
  unfold dumpDuplicatesBuffer
  cases harr : (s.linfo l).dupRecsArray with
  | none =>
    have hnil : s.entries l = [] := by
      rw [DupState.entries, harr]
      rfl
    refine ⟨fun _ => rfl, hnil, fun _ _ => rfl, ?_, ?_⟩
    · intro hcount
      have hzero : (s.linfo l).dupCount = 0 := by
        rw [hcount, hnil]
        rfl
      show s.linfo l = zeroLog
      rw [zeroLog, ← hzero, ← harr]
    · intro l' c
      split_ifs with hl
      · subst hl
        rw [DupState.pending, hnil]
        rfl
      · rfl
  | some es =>
    have hes : s.entries l = es := by
      rw [DupState.entries, harr]
      rfl
    refine ⟨?_, ?_, ?_, ?_, ?_⟩
    · intro p
      dsimp only
      rw [buf_setLinfo, recAt_discardLoop]
    · rw [DupState.entries, linfo_setLinfo]
      rfl
    · intro l' hne
      rw [linfo_setLinfo_ne _ hne]
      cases l' <;> rfl
    · intro _
      rw [linfo_setLinfo]
    · intro l' c
      have hacc := discardLoop_account l (fun _ => true) l' c es s.buf
      rw [pendingFor_of_countSum (countSum_discardLoop_all l es s.buf), ite_self,
        Nat.zero_add] at hacc
      dsimp only
      rw [hacc]
      split_ifs with hl
      · subst hl
        rw [DupState.pending, hes]
      · rfl

/-- After dumping both logs nothing is pending, and everything that was
has been reported. -/
theorem dumpBoth_spec (h : DupInv s) : (∀ l, (dumpBoth s).1.linfo l = zeroLog)
      ∧ ∀ l c, accountedFor l c (dumpBoth s).2 = s.pending l c := by
  obtain ⟨hrec1, -, hother1, hzero1, hacc1⟩ := dumpDuplicatesBuffer_spec s .evlLog
  obtain ⟨-, -, hother2, hzero2, hacc2⟩ :=
    dumpDuplicatesBuffer_spec (dumpDuplicatesBuffer s .evlLog).1 .pvtLog
  have hpvt : (dumpDuplicatesBuffer s .evlLog).1.linfo .pvtLog = s.linfo .pvtLog :=
    hother1 .pvtLog (by decide)
  have hentries : (dumpDuplicatesBuffer s .evlLog).1.entries .pvtLog = s.entries .pvtLog := by
    rw [DupState.entries, hpvt, DupState.entries]
  constructor
  · intro l
    cases l with
    | evlLog => exact (hother2 .evlLog (by decide)).trans (hzero1 (h.count_eq .evlLog))
    | pvtLog =>
      refine hzero2 ?_
      rw [hpvt, hentries, h.count_eq .pvtLog]
  · intro l c
    simp only [dumpBoth, accountedFor_append]
    rw [hacc1, hacc2]
    cases l with
    | evlLog => rfl
    | pvtLog =>
      rw [if_neg (by decide), if_pos rfl, Nat.zero_add, DupState.pending, hentries,
        DupState.pending]
      exact pendingFor_congr fun e _ => hrec1 e.recPtr

/-! ## Reconfiguration -/

theorem flags_replicate_zeroSlot (n : Nat) :
    flags (List.replicate n zeroSlot) = List.replicate n false := by
  simp [flags, zeroSlot]

theorem dupInv_of_zeroLog (hlinfo : ∀ l, s.linfo l = zeroLog) (hsize : 0 < s.dupArraySize)
    (hindex : -1 ≤ s.equalityIndex)
    (hbuf : s.buf = List.replicate (if s.disDupRecs then 2 * s.dupArraySize + 1 else 1) zeroSlot) :
    DupInv s := by
  have hentries : ∀ l, s.entries l = [] := by
    intro l
    rw [DupState.entries, hlinfo]
    rfl
  refine ⟨hsize, by rw [hbuf, List.length_replicate], fun _ l => by rw [hlinfo]; rfl, ?_, ?_, ?_,
    ?_, hindex⟩
  · intro l es hes
    rw [hlinfo] at hes
    cases hes
  · intro l e he
    rw [hentries] at he
    cases he
  · intro l
    rw [hentries, hlinfo]
    rfl
  · rw [hentries, hentries, hbuf, flags_replicate_zeroSlot]
    exact Owns.clear _

theorem pending_of_zeroLog (hlinfo : ∀ l, s.linfo l = zeroLog) (l : LogId) (c : LogRecord) :
    s.pending l c = 0 := by
  rw [DupState.pending, DupState.entries, hlinfo]
  rfl

theorem initDup_inv (c : DupConfig) : DupInv (initDup c) :=
  dupInv_of_zeroLog (fun l => by cases l <;> rfl) c.size_pos le_rfl rfl

theorem linfo_of_off (h : DupInv s) (hoff : s.disDupRecs = false) (l : LogId) :
    s.linfo l = zeroLog := by
  have hnone := h.off_none hoff l
  have hzero : (s.linfo l).dupCount = 0 := by
    rw [h.count_eq l, DupState.entries, hnone]
    rfl
  rw [zeroLog, ← hnone, ← hzero]

/-- Dumping leaves the configuration and the round-robin index alone. -/
theorem dumpBoth_frame (s : DupState) : (dumpBoth s).1.equalityIndex = s.equalityIndex
      ∧ (dumpBoth s).1.disDupRecs = s.disDupRecs := by
  have hone : ∀ (s : DupState) (l : LogId),
      (dumpDuplicatesBuffer s l).1.equalityIndex = s.equalityIndex
        ∧ (dumpDuplicatesBuffer s l).1.disDupRecs = s.disDupRecs := by
    intro s l
    unfold dumpDuplicatesBuffer
    split
    · exact ⟨rfl, rfl⟩
    · cases l <;> exact ⟨rfl, rfl⟩
  obtain ⟨hindex1, hon1⟩ := hone s .evlLog
  obtain ⟨hindex2, hon2⟩ := hone (dumpDuplicatesBuffer s .evlLog).1 .pvtLog
  exact ⟨hindex2.trans hindex1, hon2.trans hon1⟩

theorem disDupRecs_reallocBuffer (s : DupState) (newsize : Nat) (prevOn curOn : Bool) :
    (reallocBuffer s newsize prevOn curOn).1.disDupRecs = s.disDupRecs := by
  unfold reallocBuffer
  cases prevOn with
  | true => exact (dumpBoth_frame s).2
  | false => rfl

/-- `reallocBuffer`, called as it is: `prev_on` tells whether discarding
was on, and `disDupRecs` is set to `cur_on` afterwards. -/
theorem reallocBuffer_spec (h : DupInv s) {newsize : Nat} (hsize : 0 < newsize) (curOn : Bool) :
    DupInv { (reallocBuffer s newsize s.disDupRecs curOn).1 with disDupRecs := curOn }
      ∧ ∀ l c, (reallocBuffer s newsize s.disDupRecs curOn).1.pending l c
          + accountedFor l c (reallocBuffer s newsize s.disDupRecs curOn).2
        = s.pending l c := by
  unfold reallocBuffer
  cases hon : s.disDupRecs with
  | true =>
    obtain ⟨hzero, hacc⟩ := dumpBoth_spec h
    rw [if_pos rfl]
    constructor
    · refine dupInv_of_zeroLog (fun l => ?_) hsize ?_ rfl
      · have := hzero l
        cases l <;> exact this
      · exact (dumpBoth_frame s).1.symm ▸ h.equalityIndex_ge
    · intro l c
      rw [pending_of_zeroLog (fun l => ?_), Nat.zero_add, hacc]
      have := hzero l
      cases l <;> exact this
  | false =>
    rw [if_neg (by decide)]
    have hzero := linfo_of_off h hon
    constructor
    · refine dupInv_of_zeroLog (fun l => ?_) hsize h.equalityIndex_ge rfl
      have := hzero l
      cases l <;> exact this
    · intro l c
      rw [pending_of_zeroLog hzero, pending_of_zeroLog (fun l => ?_), accountedFor_nil]
      have := hzero l
      cases l <;> exact this

theorem updateConfvalue_spec (h : DupInv s) (value : ConfValue) : DupInv (updateConfvalue s value).1
      ∧ ∀ l c, (updateConfvalue s value).1.pending l c
          + accountedFor l c (updateConfvalue s value).2
        = s.pending l c := by
  cases value with
  | DIS_COUNT value =>
    refine ⟨h.congr (fun l => by cases l <;> rfl) rfl rfl rfl h.equalityIndex_ge, ?_⟩
    intro l c
    cases l <;> rfl
  | DIS_INTERVAL value =>
    refine ⟨h.congr (fun l => by cases l <;> rfl) rfl rfl rfl h.equalityIndex_ge, ?_⟩
    intro l c
    cases l <;> rfl
  | DIS_DUPS cbuf =>
    rw [updateConfvalue]
    by_cases hturnOn : s.disDupRecs = false ∧ cbuf = "on"
    · rw [if_pos hturnOn]
      obtain ⟨hinv, hcons⟩ := reallocBuffer_spec h h.size_pos true
      rw [hturnOn.1] at hinv hcons
      refine ⟨hinv, ?_⟩
      intro l c
      rw [← hcons l c]
      cases l <;> rfl
    · rw [if_neg hturnOn]
      by_cases hturnOff : s.disDupRecs = true ∧ cbuf = "off"
      · rw [if_pos hturnOff]
        obtain ⟨hinv, hcons⟩ := reallocBuffer_spec h h.size_pos false
        rw [hturnOff.1] at hinv hcons
        refine ⟨hinv, ?_⟩
        intro l c
        rw [← hcons l c]
        cases l <;> rfl
      · rw [if_neg hturnOff]
        exact ⟨h, fun _ _ => rfl⟩
  | DIS_SIZE value =>
    rw [updateConfvalue]
    by_cases hsame : s.dupArraySize ≠ value
    · rw [if_pos hsame]
      have hpos : 0 < if value = 0 then 5 else value := by
        split_ifs <;> omega
      obtain ⟨hinv, hcons⟩ := reallocBuffer_spec h hpos s.disDupRecs
      refine ⟨?_, hcons⟩
      exact hinv.congr (fun l => by cases l <;> rfl) rfl (disDupRecs_reallocBuffer ..) rfl
        hinv.equalityIndex_ge
    · rw [if_neg hsame]
      exact ⟨h, fun _ _ => rfl⟩

/-! ## Runs -/

/-- The events of the class of `c` for log `l` among the actions. -/
def receivedFor (l : LogId) (c : LogRecord) (actions : List DupAction) : Nat :=
  (actions.map fun
    | .event l' rhdr _ => oneEvent l' rhdr l c
    | _ => 0).sum

def dupRunStep (p : DupState × List DupOutput) (a : DupAction) : DupState × List DupOutput :=
  ((dupStep p.1 a).1, p.2 ++ (dupStep p.1 a).2)

theorem dupStep_spec (h : DupInv s) (a : DupAction) : DupInv (dupStep s a).1
      ∧ ∀ l c, (dupStep s a).1.pending l c + accountedFor l c (dupStep s a).2
        = s.pending l c + receivedFor l c [a] := by
  cases a with
  | event l' rhdr curTime =>
    obtain ⟨hinv, hcons⟩ := processEvent_spec h l' rhdr curTime
    refine ⟨hinv, ?_⟩
    intro l c
    rw [dupStep, hcons l c, receivedFor, List.map_singleton, List.sum_singleton]
  | rejected rhdr =>
    refine ⟨h.readEvent rhdr, ?_⟩
    intro l c
    rw [dupStep, pending_readEvent h]
    rfl
  | timeout evlNow pvtNow => exact checkDupEventTimeout_spec h evlNow pvtNow
  | config value => exact updateConfvalue_spec h value

theorem dupRun_inv (cfg : DupConfig) (actions : List DupAction) :
    DupInv (run dupRunStep (initDup cfg, []) actions).1 := by
  have hstep : ∀ (p : DupState × List DupOutput) (a : DupAction),
      DupInv p.1 → DupInv (dupRunStep p a).1 := fun _ a h => (dupStep_spec h a).1
  exact run_invariant (fun p : DupState × List DupOutput => DupInv p.1) hstep (initDup_inv cfg)
    actions

theorem dupRun_account (l : LogId) (c : LogRecord) (actions : List DupAction) :
    ∀ p : DupState × List DupOutput, DupInv p.1 →
      (run dupRunStep p actions).1.pending l c + accountedFor l c (run dupRunStep p actions).2
        = p.1.pending l c + accountedFor l c p.2 + receivedFor l c actions := by
  induction actions with
  | nil =>
    intro _ _
    rfl
  | cons a actions ih =>
    intro p h
    obtain ⟨hinv, hcons⟩ := dupStep_spec h a
    have hstep := hcons l c
    have hreceived : receivedFor l c (a :: actions)
        = receivedFor l c [a] + receivedFor l c actions := by
      simp [receivedFor]
    rw [run_cons, ih (dupRunStep p a) hinv, hreceived]
    simp only [dupRunStep, accountedFor_append]
    omega

/-- Discarding duplicates loses nothing. In every run, for every log
and every class of equal events: the events received are those written,
those reported in discard events under the facility and event type of the
class, and those counted in the log's entries; the log's `dup_count` is
the sum of its entries' counts; and after `dumpDuplicatesBuffer` nothing
is pending, all of it having been reported. -/
theorem dup_loses_nothing (cfg : DupConfig) (actions : List DupAction) (l : LogId) (c : LogRecord) :
    let p := run dupRunStep (initDup cfg, []) actions
    receivedFor l c actions
        = writtenFor l c p.2 + discardedFor l c p.2 + p.1.pending l c
      ∧ (p.1.linfo l).dupCount = countSum (p.1.entries l)
      ∧ (dumpDuplicatesBuffer p.1 l).1.linfo l = zeroLog
      ∧ (dumpBoth p.1).1.linfo l = zeroLog
      ∧ receivedFor l c actions
        = writtenFor l c (p.2 ++ (dumpBoth p.1).2)
          + discardedFor l c (p.2 ++ (dumpBoth p.1).2) := by
  intro p
  have hinv : DupInv p.1 := dupRun_inv cfg actions
  have hrun : p.1.pending l c + accountedFor l c p.2 = receivedFor l c actions := by
    have hstart : (initDup cfg).pending l c = 0 :=
      pending_of_zeroLog (fun l => by cases l <;> rfl) l c
    have hall := dupRun_account l c actions (initDup cfg, []) (initDup_inv cfg)
    rw [hstart, accountedFor_nil, Nat.zero_add] at hall
    exact hall
  obtain ⟨hzero, hacc⟩ := dumpBoth_spec hinv
  refine ⟨?_, hinv.count_eq l, (dumpDuplicatesBuffer_spec p.1 l).2.2.2.1 (hinv.count_eq l),
    hzero l, ?_⟩
  · rw [← hrun, accountedFor]
    omega
  · show receivedFor l c actions = accountedFor l c (p.2 ++ (dumpBoth p.1).2)
    rw [accountedFor_append, hacc, ← hrun]
    omega

def liveEntries (s : DupState) : List DupBuffer :=
  (s.entries .evlLog ++ s.entries .pvtLog).filter fun e => e.recPtr.isSome

theorem map_bufIndex_live {es : List DupBuffer} (hok : ∀ e ∈ es, EntryOk e) :
    (es.filter fun e => e.recPtr.isSome).map DupBuffer.bufIndex = owned es := by
  induction es with
  | nil => rfl
  | cons e es ih =>
    have ih' := ih fun e he => hok e (by simp [he])
    rw [owned_cons]
    cases hptr : e.recPtr with
    | none => rw [List.filter_cons_of_neg (by simp [hptr]), ih']; rfl
    | some i =>
      rw [List.filter_cons_of_pos (by simp [hptr]), List.map_cons, ih',
        (hok e (by simp)).index_eq i hptr]
      rfl

/-- The condition on an action: no event runs over its slot, and one that is
logged has its `log_size` data bytes, which `_evlReadEx` sees to up to
`POSIX_LOG_ENTRY_MAXLEN`. -/
def SlotAction.Fits : SlotAction → Prop
  | .event _ e _ => e.Inside ∧ e.entry.logSize.toNat = e.stored.length
  | .rejected e => e.Inside
  | .timeout .. => True
  | .config _ => True

instance : DecidablePred SlotAction.Fits
  | .event .. => inferInstanceAs (Decidable (_ ∧ _))
  | .rejected _ => inferInstanceAs (Decidable (_ ≤ _))
  | .timeout .. => isTrue trivial
  | .config _ => isTrue trivial

/-- The live entries of both logs have distinct slots, each pointing into
its own, which is in use; no other slot is in use, so at most
`2 * dup_array_size` are; the search for the next slot finds a free one,
and reading the event `next` into it stores nothing in the slot of a
remembered event, which stays what it was. -/
structure SlotsApart (s : DupState) (next : ClientEvent) : Prop where
  nodup : ((liveEntries s).map DupBuffer.bufIndex).Nodup
  own : ∀ e ∈ liveEntries s, e.bufIndex < s.buf.length ∧ e.recPtr = some e.bufIndex
    ∧ (flags s.buf)[e.bufIndex]? = some true
  used : ∀ i, (flags s.buf)[i]? = some true → ∃ e ∈ liveEntries s, e.bufIndex = i
  count_le : (flags s.buf).count true ≤ 2 * s.dupArraySize
  buf_length : s.buf.length = 2 * s.dupArraySize + 1
  free : nextSlot s < s.buf.length ∧ (flags s.buf)[nextSlot s]? = some false
  stores : ∀ e ∈ liveEntries s,
    storeEnd s next ≤ e.bufIndex * slotSize ∨ (e.bufIndex + 1) * slotSize ≤ nextSlot s * slotSize
  remembered : ∀ (hnext : next.Inside), ∀ e ∈ liveEntries s,
    recAt (readEvent s (next.record hnext)).buf e.recPtr = recAt s.buf e.recPtr

theorem DupInv.slotsApart (h : DupInv s) (hon : s.disDupRecs = true) {next : ClientEvent}
    (hnext : next.Inside) : SlotsApart s next := by
  have hok : ∀ e ∈ s.entries .evlLog ++ s.entries .pvtLog, EntryOk e := by
    intro e he
    rcases List.mem_append.mp he with he | he
    · exact h.entries_ok .evlLog e he
    · exact h.entries_ok .pvtLog e he
  have hslots : (liveEntries s).map DupBuffer.bufIndex
      = owned (s.entries .evlLog) ++ owned (s.entries .pvtLog) := by
    rw [← owned_append]
    exact map_bufIndex_live hok
  have howns := h.owns
  rw [← hslots] at howns
  have hfree := nextSlot_free h hon
  have hown : ∀ e ∈ liveEntries s, e.bufIndex < s.buf.length ∧ e.recPtr = some e.bufIndex
      ∧ (flags s.buf)[e.bufIndex]? = some true := by
    intro e he
    have hmem : e.bufIndex ∈ (liveEntries s).map DupBuffer.bufIndex := List.mem_map_of_mem he
    obtain ⟨hin, hlive⟩ := List.mem_filter.mp he
    obtain ⟨i, hptr⟩ := Option.isSome_iff_exists.mp hlive
    refine ⟨?_, ?_, (howns.set_iff _).mpr hmem⟩
    · have := howns.lt_length hmem
      rwa [flags_length] at this
    · rw [hptr, (hok e hin).index_eq i hptr]
  refine ⟨howns.nodup, hown, ?_, ?_, ?_, hfree, ?_, ?_⟩
  · intro i hi
    exact List.mem_map.mp ((howns.set_iff i).mp hi)
  · have hcount := howns.count_true_le
    rw [hslots] at hcount
    exact hcount.trans h.owned_length_le
  · rw [h.buf_length, if_pos hon]
  · intro e he
    have hne : e.bufIndex ≠ nextSlot s := by
      intro heq
      have hused := (hown e he).2.2
      rw [heq, hfree.2] at hused
      cases hused
    -- the event ends before the next slot begins
    have hend : storeEnd s next ≤ (nextSlot s + 1) * slotSize := by
      simp only [ClientEvent.Inside] at hnext
      simp only [storeEnd, slotSize, Nat.add_mul, Nat.one_mul]
      omega
    rcases Nat.lt_or_gt_of_ne hne with hlt | hgt
    · exact .inr (Nat.mul_le_mul_right _ hlt)
    · exact .inl (hend.trans (Nat.mul_le_mul_right _ hgt))
  · intro hnext e he
    rcases List.mem_append.mp (List.mem_filter.mp he).1 with he | he
    · exact recAt_readEvent h _ he
    · exact recAt_readEvent h _ he

theorem slotStep_inv {r : SlotRun} {a : SlotAction} (h : r.overrun = false ∧ DupInv r.dup)
    (ha : a.Fits) : (slotStep r a).overrun = false ∧ DupInv (slotStep r a).dup := by
  obtain ⟨dup, overrun⟩ := r
  obtain ⟨rfl, hinv⟩ := h
  cases a with
  | event l e curTime =>
    have hfits : e.Inside ∧ e.entry.logSize.toNat = e.stored.length := ha
    simp only [slotStep, Bool.false_eq_true, if_false, dif_pos hfits]
    exact ⟨trivial, (dupStep_spec hinv _).1⟩
  | rejected e =>
    have hfits : e.Inside := ha
    simp only [slotStep, Bool.false_eq_true, if_false, dif_pos hfits]
    exact ⟨trivial, (dupStep_spec hinv _).1⟩
  | timeout evlNow pvtNow => exact ⟨rfl, (dupStep_spec hinv (.timeout evlNow pvtNow)).1⟩
  | config value => exact ⟨rfl, (dupStep_spec hinv (.config value)).1⟩

def defaultDup : DupConfig := ⟨10, 60, 5, true, Nat.succ_pos 4⟩

/-- An event of the given bytes, sent under its right size. -/
def clientEvent (stored : List UInt8) : ClientEvent :=
  ⟨{ PosixLogEntry.ofBytes [] with logSize := .ofNat stored.length }, stored⟩

end Evlog.Evlogd
