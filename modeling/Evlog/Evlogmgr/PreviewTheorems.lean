/-
Evlog.Evlogmgr.PreviewTheorems — a preview says what a compaction deletes,
except where the buffer says otherwise.

On a well-formed log both walks meet its records, one after the other. The
compaction asks about a record's own string, the preview about the one in its buffer
(`countRecsForDeletion_wellFormed`). So the two counts, and the two
numbers of bytes, agree just when the records that only one of them takes
balance (`preview_agrees_iff`). These are of two kinds
(`doubtful_of_ne`): records whose data has no NUL, in particular those
without data, and, when no message has been logged, records whose data
begins with one.
-/
import Evlog.Evlogmgr.Preview

namespace Evlog.Evlogmgr

open Evlog.Lib Evlog.Lib.Machine Evlog.Posix

/-! ## What the preview asks -/

def FileRecord.buffered (r : FileRecord) (varbuf : List UInt8) : List UInt8 :=
  r.data ++ varbuf.drop r.data.length

def bufferStrings : List UInt8 → List FileRecord → List (FileRecord × List UInt8)
  | _, [] => []
  | varbuf, r :: rs => (r, cBytesAt (r.buffered varbuf)) :: bufferStrings (r.buffered varbuf) rs

theorem map_fst_bufferStrings (varbuf : List UInt8) (rs : List FileRecord) :
    (bufferStrings varbuf rs).map Prod.fst = rs := by
  induction rs generalizing varbuf with
  | nil => rfl
  | cons r rs ih => rw [bufferStrings, List.map_cons, ih]

section Preview

variable (query : StringQuery) (logmgmtMsg : List UInt8)

def counted (p : FileRecord × List UInt8) : Bool :=
  query p.1.entry p.2 && (logmgmtMsg.isEmpty || p.2 != logmgmtMsg)

def deleted (p : FileRecord × List UInt8) : Bool :=
  query p.1.entry p.1.dataString && p.1.dataString != logmgmtMsg

theorem toBytes_length_toInt (r : FileRecord) :
    (recHdrSize + r.entry.logSize.toInt64.toInt + sizeSize : Int) = r.toBytes.length := by
  have hle : r.entry.logSize.toNat ≤ posixLogEntryMaxlen := r.size_le
  have hsize : r.entry.logSize.toInt64.toInt = (r.entry.logSize.toNat : Int) := by
    show r.entry.logSize.toInt64.toBitVec.toInt = _
    rw [BitVec.toInt_eq_toNat_of_lt]
    · rfl
    · show 2 * r.entry.logSize.toNat < 2 ^ 64
      simp only [posixLogEntryMaxlen] at hle
      omega
  rw [hsize, r.toBytes_length]
  push_cast
  ring

theorem reads_at (r : FileRecord) (pre post : List UInt8) {content : List UInt8}
    (hcontent : content = pre ++ (r.toBytes ++ post)) :
    OpenFile.read ⟨content, pre.length⟩ recHdrSize = (r.rechdr, ⟨content, pre.length + recHdrSize⟩) ∧
      OpenFile.read ⟨content, pre.length + recHdrSize⟩ r.entry.logSize.toNat
        = (r.data, ⟨content, pre.length + recHdrSize + r.data.length⟩) ∧
      (OpenFile.read ⟨content, pre.length + recHdrSize + r.data.length⟩ sizeSize).1 = r.sizeBytes := by
  have hsizeLen : r.sizeBytes.length = sizeSize := by rw [FileRecord.sizeBytes, leBytes_length]
  have hbytes : content = pre ++ (r.rechdr ++ (r.data ++ (r.sizeBytes ++ post))) := by
    simp [hcontent, FileRecord.toBytes]
  have hhdr := OpenFile.read_at pre r.rechdr (r.data ++ (r.sizeBytes ++ post))
  have hdata := OpenFile.read_at (pre ++ r.rechdr) r.data (r.sizeBytes ++ post)
  have hsize := OpenFile.read_at (pre ++ r.rechdr ++ r.data) r.sizeBytes post
  simp only [List.append_assoc, List.length_append, ← hbytes, r.rechdr_length, hsizeLen, r.size_eq,
    ← Nat.add_assoc] at hhdr hdata hsize
  rw [r.size_eq]
  exact ⟨hhdr, hdata, congrArg Prod.fst hsize⟩

/-- The preview reads a well-formed record as it lies there, its data into
the buffer. -/
theorem readForCount_at (r : FileRecord) (pre post varbuf : List UInt8) :
    readForCount (pre ++ (r.toBytes ++ post)) pre.length varbuf
      = some (r.entry, r.buffered varbuf, ((recHdrSize + r.data.length : Nat) : Int)) := by
  obtain ⟨content, hcontent⟩ : ∃ content, content = pre ++ (r.toBytes ++ post) := ⟨_, rfl⟩
  obtain ⟨hhdr, hdata, hsize⟩ := reads_at r pre post hcontent
  have hle : r.entry.logSize.toNat ≤ posixLogEntryMaxlen := r.size_le
  have hseek : OpenFile.lseek ⟨content, 0⟩ pre.length .SEEK_SET = some ⟨content, pre.length⟩ :=
    OpenFile.lseek_set ⟨_, 0⟩ pre.length
  have hdatalen : r.data.length = r.entry.logSize.toNat := r.size_eq
  have hsizelen : r.sizeBytes.length = sizeSize := by rw [FileRecord.sizeBytes, leBytes_length]
  have hnat : leInt r.sizeBytes = ((recHdrSize + r.data.length : Nat) : Int) := by
    refine leInt_leBytes ?_
    simp only [posixLogEntryMaxlen] at hle
    simp only [recHdrSize, sizeSize]
    omega
  have hsum : (Int64.ofInt ((recHdrSize + r.data.length : Nat) : Int)).toUInt64
      = UInt64.ofNat recHdrSize + r.entry.logSize := by
    have hlog : r.entry.logSize = UInt64.ofNat r.data.length := by
      rw [r.size_eq]
      exact (UInt64.ofNat_toNat).symm
    rw [hlog, ← UInt64.ofNat_add]
    rfl
  have hentry : PosixLogEntry.ofBytes r.rechdr = r.entry := rfl
  rw [← hdatalen] at hdata hle
  rw [← hcontent]
  by_cases hpos : 0 < r.data.length
  · simp only [readForCount, hseek, Option.bind_eq_bind, Option.bind_some, hhdr, r.rechdr_length, hentry,
      ← hdatalen, hpos, hle, hdata, hsize, hsizelen, hnat, hsum, ne_eq, not_true_eq_false, if_false,
      and_self, if_true, FileRecord.buffered]
  · have hnil : r.data = [] := List.length_eq_zero_iff.1 (by omega)
    rw [hnil, List.length_nil, Nat.add_zero] at hsize hnat hsum
    simp only [readForCount, hseek, Option.bind_eq_bind, Option.bind_some, hhdr, r.rechdr_length, hentry,
      ← hdatalen, lt_self_iff_false, false_and, hsize, hsizelen, hnat, hsum, ne_eq, not_true_eq_false, if_false,
      FileRecord.buffered, hnil, List.length_nil, List.nil_append, List.drop_zero, Nat.add_zero]

theorem countStep_at (r : FileRecord) (pre post : List UInt8) (bytesToProcess : Int) (varbuf : List UInt8)
    (delcnt : Nat) (nbytes : Int) (hpos : bytesToProcess ≠ 0) :
    countStep query logmgmtMsg (pre ++ (r.toBytes ++ post)) ⟨pre.length, bytesToProcess, varbuf, delcnt, nbytes⟩
      = .inl ⟨(pre ++ r.toBytes).length, bytesToProcess - r.toBytes.length, r.buffered varbuf,
          if counted query logmgmtMsg (r, cBytesAt (r.buffered varbuf)) then delcnt + 1 else delcnt,
          if counted query logmgmtMsg (r, cBytesAt (r.buffered varbuf)) then nbytes + r.toBytes.length
          else nbytes⟩ := by
  have hlen : ((recHdrSize + r.data.length : Nat) : Int) + sizeSize = r.toBytes.length := by
    have hsize : r.data.length = r.entry.logSize.toNat := r.size_eq
    rw [r.toBytes_length, ← hsize]
    push_cast
    ring
  have hoff : ((pre ++ r.toBytes).length : Int) = pre.length + r.toBytes.length := by simp
  simp only [countStep, if_neg hpos, readForCount_at, hlen, toBytes_length_toInt, hoff]
  rfl

/-- On a well-formed log the preview returns: the records it counts, and
their bytes. -/
theorem countLoop_returns (rs : List FileRecord) (pre varbuf : List UInt8) (delcnt : Nat) (nbytes : Int) :
    Returns (countStep query logmgmtMsg (pre ++ recordBytes rs))
      ⟨pre.length, (recordBytes rs).length, varbuf, delcnt, nbytes⟩
      (.ok (delcnt + ((bufferStrings varbuf rs).filter (counted query logmgmtMsg)).length,
        nbytes + (recordBytes (((bufferStrings varbuf rs).filter (counted query logmgmtMsg)).map
          Prod.fst)).length)) := by
  induction rs generalizing pre varbuf delcnt nbytes with
  | nil => exact returns_of_step (by simp [countStep, bufferStrings])
  | cons r rs ih =>
    have hrlen : 0 < r.toBytes.length := by
      rw [r.toBytes_length, recHdrSize]
      omega
    have hpos : ((recordBytes (r :: rs)).length : Int) ≠ 0 := by
      rw [recordBytes_cons, List.length_append]
      omega
    have hstep := countStep_at query logmgmtMsg r pre (recordBytes rs) _ varbuf delcnt nbytes hpos
    rw [← recordBytes_cons] at hstep
    have hrest : ((recordBytes (r :: rs)).length : Int) - r.toBytes.length = (recordBytes rs).length := by
      rw [recordBytes_cons, List.length_append]
      omega
    rw [hrest] at hstep
    refine (returns_iff_of_next hstep).2 ?_
    have hnext := ih (pre ++ r.toBytes) (r.buffered varbuf)
    rw [List.append_assoc, ← recordBytes_cons] at hnext
    rw [bufferStrings, List.filter_cons]
    cases counted query logmgmtMsg (r, cBytesAt (r.buffered varbuf)) with
    | true =>
      have h := hnext (delcnt + 1) (nbytes + r.toBytes.length)
      simp only [if_true, List.length_cons, List.map_cons, recordBytes_cons, List.length_append,
        Nat.cast_add] at h ⊢
      rwa [Nat.add_right_comm, Nat.add_assoc, Int.add_assoc] at h
    | false => exact hnext delcnt nbytes

theorem countRecsForDeletion_wellFormed {hdr : List UInt8} (hhdr : hdr.length = logHeaderSize)
    (rs : List FileRecord) (varbuf : List UInt8) (ret : Except Errno (Nat × Int)) :
    CountRecsForDeletion query logmgmtMsg varbuf (hdr ++ recordBytes rs) ret ↔
      ret = .ok (((bufferStrings varbuf rs).filter (counted query logmgmtMsg)).length,
        (recordBytes (((bufferStrings varbuf rs).filter (counted query logmgmtMsg)).map Prod.fst)).length) := by
  have hne : (hdr ++ recordBytes rs).length ≠ 0 := by
    rw [List.length_append, hhdr, logHeaderSize]
    omega
  have hloop := countLoop_returns query logmgmtMsg rs hdr varbuf 0 0
  have hbytes : ((hdr ++ recordBytes rs).length : Int) - logHeaderSize = (recordBytes rs).length := by
    rw [List.length_append, hhdr]
    omega
  rw [Nat.zero_add, Int.zero_add, hhdr, ← hbytes] at hloop
  constructor
  · intro hret
    cases hret with
    | empty h => exact absurd h hne
    | walked _ _ hrun => exact hrun.unique hloop
  · rintro rfl
    exact .walked _ hne hloop

end Preview

/-! ## Where the two differ -/

section Differences

variable {α : Type}

/-- The total weight of those taken, by whether the other side takes them
too. -/
theorem sum_filter_split (w : α → Nat) (c d : α → Bool) (l : List α) : ((l.filter c).map w).sum
      = ((l.filter fun x => c x && !d x).map w).sum + ((l.filter fun x => c x && d x).map w).sum := by
  induction l with
  | nil => rfl
  | cons x l ih =>
    simp only [List.filter_cons]
    cases c x <;> cases d x <;> simp [ih, Nat.add_assoc, Nat.add_left_comm]

/-- Two totals are equal when what only one side takes balances. -/
theorem sum_filter_eq_iff (w : α → Nat) (c d : α → Bool) (l : List α) :
    ((l.filter c).map w).sum = ((l.filter d).map w).sum ↔
      ((l.filter fun x => c x && !d x).map w).sum = ((l.filter fun x => d x && !c x).map w).sum := by
  have hboth : (l.filter fun x => d x && c x) = l.filter fun x => c x && d x :=
    List.filter_congr fun x _ => Bool.and_comm ..
  rw [sum_filter_split w c d, sum_filter_split w d c, hboth]
  omega

end Differences

variable (query : StringQuery) (logmgmtMsg : List UInt8)

/-- A record of a kind that the two may take differently: its data has no
NUL, so that its string runs on into what is behind the data, or begins
with one when no message has been logged. -/
def FileRecord.doubtful (r : FileRecord) : Bool :=
  decide (0 ∉ r.data) || (logmgmtMsg.isEmpty && r.data.head? == some 0)

/-- The doubtful records that the preview counts and the compaction keeps,
with the string that was in the preview's buffer. -/
def countedOnly (varbuf : List UInt8) (rs : List FileRecord) : List (FileRecord × List UInt8) :=
  (bufferStrings varbuf rs).filter fun p =>
    p.1.doubtful logmgmtMsg && (counted query logmgmtMsg p && !deleted query logmgmtMsg p)

/-- The doubtful records that the compaction deletes and the preview does
not count. -/
def deletedOnly (varbuf : List UInt8) (rs : List FileRecord) : List (FileRecord × List UInt8) :=
  (bufferStrings varbuf rs).filter fun p =>
    p.1.doubtful logmgmtMsg && (deleted query logmgmtMsg p && !counted query logmgmtMsg p)

def bytesOf (ps : List (FileRecord × List UInt8)) : Nat := (ps.map fun p => p.1.toBytes.length).sum

theorem recordBytes_length (ps : List (FileRecord × List UInt8)) :
    (recordBytes (ps.map Prod.fst)).length = bytesOf ps := by
  induction ps with
  | nil => rfl
  | cons p ps ih => rw [List.map_cons, recordBytes_cons, List.length_append, ih, bytesOf, bytesOf, List.map_cons, List.sum_cons]

theorem length_eq_sum (ps : List (FileRecord × List UInt8)) : ps.length = (ps.map fun _ => 1).sum := by
  simp

/-- What a compaction deletes and by how much the file shrinks, said of the
preview's records. -/
theorem compactLog_deleted {hdr : List UInt8} (hhdr : hdr.length = logHeaderSize) (rs : List FileRecord)
    (varbuf varbuf' : List UInt8) :
    (compactLog query.onRecord logmgmtMsg varbuf' (hdr ++ recordBytes rs)).numDelrec
        = ((bufferStrings varbuf rs).filter (deleted query logmgmtMsg)).length ∧
      ((hdr ++ recordBytes rs).length : Int)
          - (compactLog query.onRecord logmgmtMsg varbuf' (hdr ++ recordBytes rs)).content.length
        = bytesOf ((bufferStrings varbuf rs).filter (deleted query logmgmtMsg)) := by
  obtain ⟨-, hcontent, hnum⟩ := compactLog_of_records query.onRecord logmgmtMsg varbuf' hdr hhdr rs
  have hfst := map_fst_bufferStrings varbuf rs
  generalize bufferStrings varbuf rs = ps at hfst
  subst hfst
  refine ⟨?_, ?_⟩
  · rw [hnum, List.countP_map, List.countP_eq_length_filter]
    rfl
  · rw [hcontent, List.length_append, List.length_append, List.filter_map, recordBytes_length,
      recordBytes_length]
    have hall : bytesOf ps = bytesOf (ps.filter fun p => !deleted query logmgmtMsg p)
        + bytesOf (ps.filter (deleted query logmgmtMsg)) := by
      have hsplit := sum_filter_split (fun p : FileRecord × List UInt8 => p.1.toBytes.length)
        (fun _ => true) (deleted query logmgmtMsg) ps
      simp only [List.filter_true, Bool.true_and] at hsplit
      exact hsplit
    have hkept : (ps.filter ((fun r => !(query.onRecord r.entry r.data && r.dataString != logmgmtMsg))
        ∘ Prod.fst)) = ps.filter fun p => !deleted query logmgmtMsg p := rfl
    rw [hkept]
    omega

theorem doubtful_of_ne {varbuf : List UInt8} {rs : List FileRecord} {p : FileRecord × List UInt8}
    (hp : p ∈ bufferStrings varbuf rs) (hdiff : counted query logmgmtMsg p ≠ deleted query logmgmtMsg p) :
    p.1.doubtful logmgmtMsg = true := by
  suffices hkinds : 0 ∉ p.1.data ∨ (logmgmtMsg = [] ∧ p.1.data.head? = some 0) by
    simpa [FileRecord.doubtful] using hkinds
  by_cases hnul : 0 ∈ p.1.data
  swap
  · exact .inl hnul
  -- both strings end within the data
  have hends : ∀ rest, cBytesAt (p.1.data ++ rest) = cBytesAt p.1.data := by
    intro rest
    rw [cBytesAt, List.takeWhile_append, if_neg, cBytesAt]
    intro hall
    have hwhile : ∀ b ∈ p.1.data, decide (b ≠ 0) = true := by
      rw [← List.takeWhile_eq_self_iff]
      exact (List.takeWhile_prefix _).eq_of_length hall
    simpa using hwhile 0 hnul
  have hseen : p.2 = cBytesAt p.1.data := by
    clear hdiff
    induction rs generalizing varbuf with
    | nil => simp [bufferStrings] at hp
    | cons r rs ih =>
      rcases List.mem_cons.1 hp with rfl | hp
      · exact hends _
      · exact ih hp
  have hown : p.1.dataString = cBytesAt p.1.data := hends _
  right
  simp only [counted, deleted, hseen, hown] at hdiff
  cases hmsg : logmgmtMsg with
  | cons b bs => simp [hmsg] at hdiff
  | nil =>
    refine ⟨rfl, ?_⟩
    cases hdata : p.1.data with
    | nil => simp [hdata] at hnul
    | cons b bs =>
      by_cases hb : b = 0
      · simp [hb]
      · have hne : cBytesAt p.1.data ≠ [] := by simp [cBytesAt, hdata, hb]
        simp [hmsg, hne] at hdiff

/-- Those that only one of the two takes are doubtful, all of them. -/
theorem filter_doubtful {varbuf : List UInt8} {rs : List FileRecord} {c d : FileRecord × List UInt8 → Bool}
    (hdoubtful : ∀ p ∈ bufferStrings varbuf rs, c p ≠ d p → p.1.doubtful logmgmtMsg = true) :
    ((bufferStrings varbuf rs).filter fun p => c p && !d p)
      = (bufferStrings varbuf rs).filter fun p => p.1.doubtful logmgmtMsg && (c p && !d p) := by
  refine List.filter_congr fun p hp => ?_
  by_cases hdiff : c p = d p
  · rw [hdiff]
    cases d p <;> simp
  · rw [hdoubtful p hp hdiff, Bool.true_and]

/-- On a well-formed log the preview returns the number of records that a
compaction with the same query and message removes, and the number of
bytes by which it shrinks the file, if and only if the doubtful records
that the preview counts and the compaction keeps are as many as those the
compaction deletes and the preview does not count, and have as many
bytes. -/
theorem preview_agrees_iff {hdr : List UInt8} (hhdr : hdr.length = logHeaderSize) (rs : List FileRecord)
    (varbuf varbuf' : List UInt8) :
    (∃ delcnt nbytes, CountRecsForDeletion query logmgmtMsg varbuf (hdr ++ recordBytes rs)
        (.ok (delcnt, nbytes)) ∧
      delcnt = (compactLog query.onRecord logmgmtMsg varbuf' (hdr ++ recordBytes rs)).numDelrec ∧
      nbytes = ((hdr ++ recordBytes rs).length : Int)
        - (compactLog query.onRecord logmgmtMsg varbuf' (hdr ++ recordBytes rs)).content.length) ↔
      (countedOnly query logmgmtMsg varbuf rs).length = (deletedOnly query logmgmtMsg varbuf rs).length ∧
        bytesOf (countedOnly query logmgmtMsg varbuf rs) = bytesOf (deletedOnly query logmgmtMsg varbuf rs) := by
  obtain ⟨hnum, hshrink⟩ := compactLog_deleted query logmgmtMsg hhdr rs varbuf varbuf'
  rw [hnum, hshrink]
  simp only [countRecsForDeletion_wellFormed query logmgmtMsg hhdr, Except.ok.injEq, Prod.mk.injEq,
    recordBytes_length]
  have hcount := sum_filter_eq_iff (fun _ => 1) (counted query logmgmtMsg) (deleted query logmgmtMsg)
    (bufferStrings varbuf rs)
  have hbytes := sum_filter_eq_iff (fun p : FileRecord × List UInt8 => p.1.toBytes.length)
    (counted query logmgmtMsg) (deleted query logmgmtMsg) (bufferStrings varbuf rs)
  simp only [← length_eq_sum] at hcount
  rw [filter_doubtful logmgmtMsg fun p hp => doubtful_of_ne query logmgmtMsg hp,
    filter_doubtful logmgmtMsg fun p hp hdiff => doubtful_of_ne query logmgmtMsg hp hdiff.symm] at hcount hbytes
  constructor
  · rintro ⟨delcnt, nbytes, ⟨rfl, rfl⟩, hcnt, hbyt⟩
    exact ⟨hcount.1 hcnt, hbytes.1 (Int.ofNat.inj hbyt)⟩
  · rintro ⟨hcnt, hbyt⟩
    exact ⟨_, _, ⟨rfl, rfl⟩, hcount.2 hcnt, congrArg Int.ofNat (hbytes.2 hbyt)⟩

/-- A record with a letter and a NUL. -/
def letterRecord (letter : UInt8) : FileRecord :=
  .ofLogRecord ⟨{ bareEntry 0 with logSize := 2, logFormat := posixLogString }, [letter, 0], rfl,
    Nat.le_of_ble_eq_true rfl⟩ magic_hiword

/-- Of the message and another record, the preview counts the other one and
the compaction deletes it. -/
theorem preview_agrees_iff_message :
    ∃ nbytes, CountRecsForDeletion (fun _ _ => true) [77] [] (freshLogHeader.toBytes
        ++ recordBytes [letterRecord 77, letterRecord 78]) (.ok (1, nbytes)) ∧
      1 = (compactLog (StringQuery.onRecord fun _ _ => true) [77] [] (freshLogHeader.toBytes
        ++ recordBytes [letterRecord 77, letterRecord 78])).numDelrec ∧
      nbytes = ((freshLogHeader.toBytes ++ recordBytes [letterRecord 77, letterRecord 78]).length : Int)
        - (compactLog (StringQuery.onRecord fun _ _ => true) [77] [] (freshLogHeader.toBytes
            ++ recordBytes [letterRecord 77, letterRecord 78])).content.length := by
  have hheader : freshLogHeader.toBytes.length = logHeaderSize := by simp
  obtain ⟨delcnt, nbytes, hret, hcnt, hbytes⟩ := (preview_agrees_iff (fun _ _ => true) [77] hheader
    [letterRecord 77, letterRecord 78] [] []).2 (by decide)
  have hdeleted := (compactLog_deleted (fun _ _ => true) [77] hheader [letterRecord 77, letterRecord 78]
    [] []).1
  have hone : ((bufferStrings [] [letterRecord 77, letterRecord 78]).filter
      (deleted (fun _ _ => true) [77])).length = 1 := by decide
  obtain rfl : delcnt = 1 := by rw [hcnt, hdeleted, hone]
  exact ⟨nbytes, hret, hcnt, hbytes⟩

/-- The message "M", and a record without data behind it. The compaction
deletes the record; in the preview's buffer the message is still there
when the record's turn comes, and it is not counted. -/
theorem preview_misses_record :
    ¬ ∃ delcnt nbytes, CountRecsForDeletion (fun _ _ => true) [77] [] (freshLogHeader.toBytes
        ++ recordBytes [letterRecord 77, bareRecord 0]) (.ok (delcnt, nbytes)) ∧
      delcnt = (compactLog (StringQuery.onRecord fun _ _ => true) [77] [] (freshLogHeader.toBytes
        ++ recordBytes [letterRecord 77, bareRecord 0])).numDelrec ∧
      nbytes = ((freshLogHeader.toBytes ++ recordBytes [letterRecord 77, bareRecord 0]).length : Int)
        - (compactLog (StringQuery.onRecord fun _ _ => true) [77] [] (freshLogHeader.toBytes
            ++ recordBytes [letterRecord 77, bareRecord 0])).content.length := by
  rintro ⟨delcnt, nbytes, hret, hcnt, -⟩
  have hheader : freshLogHeader.toBytes.length = logHeaderSize := by simp
  have hcounted := (countRecsForDeletion_wellFormed (fun _ _ => true) [77] hheader
    [letterRecord 77, bareRecord 0] [] (.ok (delcnt, nbytes))).1 hret
  have hdeleted := (compactLog_deleted (fun _ _ => true) [77] hheader [letterRecord 77, bareRecord 0] [] []).1
  have hzero : ((bufferStrings [] [letterRecord 77, bareRecord 0]).filter
      (counted (fun _ _ => true) [77])).length = 0 := by decide
  have hone : ((bufferStrings [] [letterRecord 77, bareRecord 0]).filter
      (deleted (fun _ _ => true) [77])).length = 1 := by decide
  rw [hzero] at hcounted
  rw [hdeleted, hone] at hcnt
  obtain ⟨rfl, -⟩ := Prod.mk.inj (Except.ok.inj hcounted)
  exact absurd hcnt (by decide)

end Evlog.Evlogmgr
