/-
Evlog.Evlogd.FramingTheorems — the stream between evlogrmtd and evlogd.

Sender and receiver agree on the framing only through `log_size`: one
`REC_HDR_SIZE` header, then as many bytes as it announces. `ArrivesAs`
says how a record's writes reach the reading side: the header was one
write and is not torn, the rest comes in any pieces. A record sent so is
read back and nothing behind it is touched (`receiveRecord_arrived`); by
induction over the stream, all of them are (`receiveRecords_delivered`).

Two kinds of record break the framing (`framing_kept_iff`): a truncated
string, which `writeToEvlogd` sends twice for want of a `return`, and a header
whose magic is the bare code of a 32-bit machine.
-/
import Evlog.Evlogd.RemoteTheorems

namespace Evlog.Evlogd.Socket

open Evlog.Lib Evlog.Posix

/-! ## The reading side -/

theorem finishEvent_used (d : Daemon) (c : EventCall) (stores : List Store) (sizes : List UInt64)
    (rhdr : PosixLogEntry) (varbuf : List UInt8) (s : ByteStream) :
    (finishEvent d c stores sizes rhdr varbuf s).used = some (rhdr, varbuf)
      ∧ (finishEvent d c stores sizes rhdr varbuf s).rest = s := by
  rw [finishEvent]
  split_ifs <;> exact ⟨rfl, rfl⟩

/-- The pieces in which the writes of one record are read: all the bytes,
no empty piece, the header whole in the first. -/
def ArrivesAs (writes : List (List UInt8)) (ps : ByteStream) : Prop :=
  ps.flatten = writes.flatten ∧ (∀ p ∈ ps, p ≠ []) ∧ ∃ p ∈ ps.head?, recHdrSize ≤ p.length

/-- A stream that delivers the writes record by record. evlogrmtd waits
for an answer after each record, so no piece holds bytes of two. -/
def Delivered (sent : List (List (List UInt8))) (s : ByteStream) : Prop :=
  ∃ pss, List.Forall₂ ArrivesAs sent pss ∧ s = pss.flatten

/-- One record that arrives as it was framed is read back, and the stream
is left at the next one. -/
theorem receiveRecord_arrived {e : PosixLogEntry} (he : e.logMagic ≠ logrecArchI386)
    {data : List UInt8} (hlen : data.length = e.logSize.toNat)
    (hle : e.logSize.toNat ≤ posixLogEntryMaxlen) {writes : List (List UInt8)}
    (hw : writes.flatten = e.toBytes ++ data) {ps : ByteStream} (hps : ArrivesAs writes ps)
    (slot : PosixLogEntry) (s : ByteStream) :
    receiveRecord (ps ++ s) slot = some ((e, data), s) := by
  obtain ⟨hflat, hne, p, hhead, hp⟩ := hps
  obtain ⟨ps', rfl⟩ : ∃ ps', ps = p :: ps' := by
    cases ps with
    | nil => simp at hhead
    | cons q ps' => exact ⟨ps', by simpa using hhead⟩
  rw [hw, List.flatten_cons] at hflat
  -- the first piece is the header and a first part of the data
  have hpre : p.take recHdrSize = e.toBytes := by
    have := congrArg (List.take recHdrSize) hflat
    rwa [List.take_append_of_le_length hp, List.take_left' (by simp)] at this
  have hdata : p.drop recHdrSize ++ ps'.flatten = data := by
    have := congrArg (List.drop recHdrSize) hflat
    rwa [List.drop_append_of_le_length hp, List.drop_left' (by simp)] at this
  have hstream : p :: ps' ++ s = ByteStream.ahead (e.toBytes ++ p.drop recHdrSize) (ps' ++ s) := by
    rw [← hpre, List.take_append_drop, ByteStream.ahead, if_neg (hne p (by simp)), List.cons_append]
  obtain ⟨hentry, hrest⟩ := populateRecHdr_native he slot (p.drop recHdrSize) (ps' ++ s)
  rw [← hstream] at hentry hrest
  -- what is left to read of the record, in nonempty pieces
  obtain ⟨qs, hqs⟩ : ∃ qs, qs = (if p.drop recHdrSize = [] then [] else [p.drop recHdrSize]) ++ ps' :=
    ⟨_, rfl⟩
  have hrest' : (populateRecHdr (p :: ps' ++ s) slot).rest = qs ++ s := by
    rw [hrest, ByteStream.ahead_eq_append, hqs, List.append_assoc]
  have hqne : ∀ q ∈ qs, q ≠ [] := by
    intro q hq
    rw [hqs, List.mem_append] at hq
    rcases hq with hq | hq
    · split at hq
      · simp at hq
      · rw [List.mem_singleton.1 hq]
        assumption
    · exact hne q (by simp [hq])
  have hqflat : qs.flatten = data := by
    rw [← hdata, hqs, List.flatten_append]
    split
    · simp [*]
    · simp
  simp only [receiveRecord, hentry, hrest']
  by_cases hzero : e.logSize = 0
  · have hnil : qs = [] := by
      cases qs with
      | nil => rfl
      | cons q qs =>
        have hq := List.length_pos_iff.2 (hqne q (by simp))
        have := congrArg List.length hqflat
        simp only [List.flatten_cons, List.length_append, hlen, hzero, UInt64.toNat_zero] at this
        omega
    have hdnil : data = [] := by
      rw [← hqflat, hnil]
      rfl
    simp [hzero, hnil, hdnil]
  · have hsmall : e.logSize.toNat < 2 ^ 31 := by
      simp only [posixLogEntryMaxlen] at hle
      omega
    have hloop := ByteStream.readLoop_flatten qs hqne s
    rw [hqflat, hlen] at hloop
    have hpos : ¬ e.logSize.toUInt32.toInt32 < 0 := by
      rw [Int32.lt_iff_toInt_lt, toInt_narrow hsmall]
      simp
    rw [if_neg (by simpa using hzero), evlReadEx_small _ hsmall, hloop, if_pos rfl]
    simp only [if_neg hpos]

/-- A whole stream of such records is read back, and nothing else is. -/
theorem receiveRecords_delivered {records : List (PosixLogEntry × List UInt8)}
    {sent : List (List (List UInt8))}
    (hsent : List.Forall₂ (fun r writes => writes.flatten = r.1.toBytes ++ r.2) records sent)
    (hok : ∀ r ∈ records, r.1.logMagic ≠ logrecArchI386 ∧ r.2.length = r.1.logSize.toNat
      ∧ r.1.logSize.toNat ≤ posixLogEntryMaxlen)
    {s : ByteStream} (hs : Delivered sent s) {slots : List PosixLogEntry}
    (hslots : records.length ≤ slots.length) :
    receiveRecords slots s = records := by
  obtain ⟨pss, harr, rfl⟩ := hs
  induction hsent generalizing pss slots with
  | nil =>
    cases harr
    cases slots with
    | nil => rfl
    | cons slot slots => simp [receiveRecords, receiveRecord, populateRecHdr, ByteStream.read,
        logMagicSize]
  | cons hw hrest ih =>
    rename_i r writes records sent
    cases harr with
    | cons hps harr' =>
      rename_i ps pss
      cases slots with
      | nil => simp at hslots
      | cons slot slots =>
        obtain ⟨hmagic, hlen, hle⟩ := hok r (by simp)
        rw [List.flatten_cons, receiveRecords, receiveRecord_arrived hmagic hlen hle hw hps]
        simp only
        rw [ih (fun r hr => hok r (by simp [hr])) (by simpa using hslots) _ harr']

variable {r : PosixLogEntry × List UInt8}

/-- A header that evlogd has taken over never shows the magic of a 32-bit
machine: such a header is read as a 32-bit one. -/
theorem receiveRecord_magic_ne {s s' : ByteStream} {slot : PosixLogEntry}
    (h : receiveRecord s slot = some (r, s')) : r.1.logMagic ≠ logrecArchI386 := by
  have hentry : (populateRecHdr s slot).entry = some r.1 := by
    simp only [receiveRecord] at h
    split at h
    · simp at h
    · rename_i rhdr hhdr
      split_ifs at h
      all_goals
        simp only [Option.some.injEq, Prod.mk.injEq] at h
        rw [hhdr, ← h.1]
  rw [populateRecHdr_some_iff] at hentry
  generalize r.1 = rhdr at hentry
  cases hentry with
  | native arch tail s₁ s₂ hread h4 harch hread' htail =>
    have : (PosixLogEntry.ofBytes (arch ++ tail)).logMagic = UInt32.ofNat (leNat arch) := by
      simp only [PosixLogEntry.ofBytes, takeLE]
      rw [List.take_left' (show arch.length = 4 from h4)]
    rwa [this]
  | i386 arch tail s₁ s₂ hread h4 harch hread' htail =>
    show logrecArchX8632 ≠ logrecArchI386
    decide

theorem receiveRecords_magic_ne (slots : List PosixLogEntry) (s : ByteStream) :
    ∀ r ∈ receiveRecords slots s, r.1.logMagic ≠ logrecArchI386 := by
  induction slots generalizing s with
  | nil => simp [receiveRecords]
  | cons slot slots ih =>
    rw [receiveRecords]
    split
    · simp
    · rename_i r s' hr
      rw [List.forall_mem_cons]
      exact ⟨receiveRecord_magic_ne hr, ih s'⟩

/-! ## The sending side -/

theorem sendAll_connected (ws : List (List UInt8)) : sendAll connected ws = (ws, true) := by
  induction ws with
  | nil => rfl
  | cons w ws ih =>
    rw [sendAll, ih]
    rfl

/-- While evlogd is there, the header goes out and then the bodies. -/
theorem writeToEvlogd_connected (rhdr : PosixLogEntry) (varbuf : List UInt8) :
    (writeToEvlogd (some connected) rhdr varbuf).writes
      = rhdr.toBytes :: evlogdBodies rhdr varbuf := by
  simp only [writeToEvlogd, sendAll_connected]
  split_ifs <;> rfl

/-- An arrival is forwarded with the writes of `writeToEvlogd`, or not at
all. -/
theorem forward_writes (hostArray : List HostEntry) (a : Arrival) :
    (forward hostArray a).writes = match (forward hostArray a).forwarded with
      | none => []
      | some r => r.1.toBytes :: evlogdBodies r.1 r.2 := by
  cases a with
  | tcp nodeId s =>
    simp only [forward, fwdClientEvent]
    split_ifs
    · rfl
    · rfl
    · exact writeToEvlogd_connected _ _
    · exact writeToEvlogd_connected _ _
  | udp addr datagram =>
    simp only [forward, recvUDP, fwdUDPEvent]
    split
    · rfl
    · split_ifs
      · rfl
      · exact writeToEvlogd_connected _ _

/-- The data of a forwarded record has the announced size. -/
theorem forward_data_length {hostArray : List HostEntry} {a : Arrival}
    (h : (forward hostArray a).forwarded = some r) (hle : r.1.logSize.toNat ≤ posixLogEntryMaxlen) :
    r.2.length = r.1.logSize.toNat := by
  cases a with
  | tcp nodeId s =>
    have hsafe : (fwdClientEvent (some connected) nodeId s).Safe := by
      rw [fwdClientEvent_safe_iff]
      intro _
      have hhdr : r.1 = _ := fwdClientEvent_forwarded h
      rw [hhdr] at hle
      exact hle
    exact hsafe.read_whole r h
  | udp addr datagram =>
    simp only [forward, recvUDP, fwdUDPEvent] at h
    split at h
    · simp at h
    · split_ifs at h with hsize
      obtain rfl := Option.some.inj h
      simp only [squeezeNodeId_logSize] at hle ⊢
      simp only [List.length_take, List.length_drop, List.length_append, List.length_replicate,
        maxBufreadLen, netRecHdrSize, recHdrSize, posixLogEntryMaxlen] at hle ⊢
      omega

/-- So the writes are those of the forwarded records, in order. -/
theorem sentWrites_eq (hostArray : List HostEntry) (arrivals : List Arrival) :
    sentWrites hostArray arrivals = (forwardedRecords hostArray arrivals).map
      fun r => r.1.toBytes :: evlogdBodies r.1 r.2 := by
  induction arrivals with
  | nil => rfl
  | cons a arrivals ih =>
    have hw := forward_writes hostArray a
    rw [sentWrites, forwardedRecords] at ih ⊢
    rw [List.map_cons, List.filter_cons, List.filterMap_cons, ih, hw]
    cases (forward hostArray a).forwarded with
    | none => rfl
    | some r => rfl

/-! ## Both sides -/

def SentTwice (r : PosixLogEntry × List UInt8) : Prop :=
  truncatedString r.1 = true ∧ 0 < r.1.logSize

theorem evlogdBodies_length (hlen : r.2.length = r.1.logSize.toNat) :
    (evlogdBodies r.1 r.2).flatten.length
      = r.2.length + if truncatedString r.1 then r.2.length else 0 := by
  have hzero : ¬ 0 < r.1.logSize → r.2.length = 0 := by
    intro h
    rw [UInt64.lt_iff_toNat_lt] at h
    simp only [UInt64.toNat_zero, not_lt] at h
    omega
  rw [evlogdBodies, List.flatten_append, List.length_append, Nat.add_comm]
  congr 1
  · split
    · simp [hlen]
    · rename_i h
      simp [hzero h]
  · split
    · simp [truncatedCopy, hlen]
    · rfl

/-- A record that is not sent twice goes out as header and data. -/
theorem evlogdBodies_framed (hlen : r.2.length = r.1.logSize.toNat) (h : ¬ SentTwice r) :
    (evlogdBodies r.1 r.2).flatten = r.2 := by
  have htake : r.2.take r.1.logSize.toNat = r.2 := by rw [← hlen, List.take_length]
  by_cases hpos : 0 < r.1.logSize
  · have hnot : truncatedString r.1 ≠ true := fun ht => h ⟨ht, hpos⟩
    simp [evlogdBodies, hnot, hpos, htake]
  · have hnil : r.2 = [] := by
      rw [UInt64.lt_iff_toNat_lt] at hpos
      simp only [UInt64.toNat_zero, not_lt] at hpos
      exact List.eq_nil_of_length_eq_zero (by omega)
    simp [evlogdBodies, hpos, hnil, truncatedCopy]

section Stream

variable {records : List (PosixLogEntry × List UInt8)}

theorem sent_length (hdata : ∀ r ∈ records, r.2.length = r.1.logSize.toNat) :
    (records.map fun r => r.1.toBytes :: evlogdBodies r.1 r.2).flatten.flatten.length
      = (records.flatMap fun r => r.1.toBytes ++ r.2).length
        + (records.map fun r => if truncatedString r.1 then r.2.length else 0).sum := by
  induction records with
  | nil => rfl
  | cons r records ih =>
    have hr := evlogdBodies_length (hdata r (by simp))
    have hrest := ih fun q hq => hdata q (by simp [hq])
    simp only [List.map_cons, List.flatten_cons, List.flatten_append, List.length_append,
      List.flatMap_cons, List.sum_cons] at hrest ⊢
    omega

/-- Records that are framed one by one make a framed stream. -/
theorem sent_framed (hframed : ∀ r ∈ records,
      (r.1.toBytes :: evlogdBodies r.1 r.2).flatten = r.1.toBytes ++ r.2) :
    (records.map fun r => r.1.toBytes :: evlogdBodies r.1 r.2).flatten.flatten
      = records.flatMap fun r => r.1.toBytes ++ r.2 := by
  induction records with
  | nil => rfl
  | cons r records ih =>
    rw [List.map_cons, List.flatten_cons, List.flatten_append, hframed r (by simp),
      ih fun q hq => hframed q (by simp [hq]), List.flatMap_cons]

theorem delivered_whole (records : List (PosixLogEntry × List UInt8)) :
    Delivered (records.map fun r => r.1.toBytes :: evlogdBodies r.1 r.2)
      (records.map fun r => (r.1.toBytes :: evlogdBodies r.1 r.2).flatten) := by
  refine ⟨records.map fun r => [(r.1.toBytes :: evlogdBodies r.1 r.2).flatten], ?_, ?_⟩
  · rw [List.forall₂_map_left_iff, List.forall₂_map_right_iff, List.forall₂_same]
    intro r _
    have hlen : recHdrSize ≤ (r.1.toBytes :: evlogdBodies r.1 r.2).flatten.length := by
      simp
    refine ⟨by simp, ?_, _, rfl, hlen⟩
    intro p hp
    rw [List.mem_singleton.1 hp]
    exact List.ne_nil_of_length_pos (lt_of_lt_of_le (by decide) hlen)
  · induction records with
    | nil => rfl
    | cons r records ih =>
      rw [List.map_cons, ih]
      rfl

end Stream

/-- The stream to evlogd is one header and the announced data for each
record, and evlogd's parsing recovers exactly these records from it,
whatever slots it reads into. -/
structure FramingKept (hostArray : List HostEntry) (arrivals : List Arrival) : Prop where
  concatenated : (sentWrites hostArray arrivals).flatten.flatten
    = (forwardedRecords hostArray arrivals).flatMap fun r => r.1.toBytes ++ r.2
  announced : ∀ r ∈ forwardedRecords hostArray arrivals, r.2.length = r.1.logSize.toNat
  recovered : ∀ s slots, Delivered (sentWrites hostArray arrivals) s →
    (forwardedRecords hostArray arrivals).length ≤ slots.length →
    receiveRecords slots s = forwardedRecords hostArray arrivals

/-- Framing is kept exactly when no forwarded record is a truncated string
with data and none carries the bare code of a 32-bit machine for a
magic. -/
theorem framing_kept_iff (hostArray : List HostEntry) (arrivals : List Arrival)
    (hle : ∀ r ∈ forwardedRecords hostArray arrivals, r.1.logSize.toNat ≤ posixLogEntryMaxlen) :
    FramingKept hostArray arrivals
      ↔ ∀ r ∈ forwardedRecords hostArray arrivals,
          ¬ SentTwice r ∧ r.1.logMagic ≠ logrecArchI386 := by
  have hdata : ∀ r ∈ forwardedRecords hostArray arrivals, r.2.length = r.1.logSize.toNat := by
    intro r hr
    obtain ⟨a, -, ha⟩ := List.mem_filterMap.1 hr
    exact forward_data_length ha (hle r hr)
  constructor
  · intro hkept
    have hconc := hkept.concatenated
    have hrec := hkept.recovered
    rw [sentWrites_eq] at hconc hrec
    generalize forwardedRecords hostArray arrivals = records at *
    intro r hr
    constructor
    · rintro ⟨htrunc, hpos⟩
      -- the surplus bytes of all records add up to nothing
      have hsum : (records.map fun r => if truncatedString r.1 then r.2.length else 0).sum = 0 := by
        have hlens := sent_length hdata
        rw [hconc] at hlens
        omega
      have := List.sum_eq_zero_iff.1 hsum (if truncatedString r.1 then r.2.length else 0)
        (List.mem_map.2 ⟨r, hr, rfl⟩)
      rw [if_pos htrunc, hdata r hr] at this
      rw [UInt64.lt_iff_toNat_lt, this] at hpos
      simp at hpos
    · have := hrec _ (records.map fun r => r.1) (delivered_whole records) (by simp)
      rw [← this] at hr
      exact receiveRecords_magic_ne _ _ r hr
  · intro hok
    have hframed : ∀ r ∈ forwardedRecords hostArray arrivals,
        (r.1.toBytes :: evlogdBodies r.1 r.2).flatten = r.1.toBytes ++ r.2 := by
      intro r hr
      rw [List.flatten_cons, evlogdBodies_framed (hdata r hr) (hok r hr).1]
    refine ⟨?_, hdata, ?_⟩
    · rw [sentWrites_eq, sent_framed hframed]
    · intro s slots hs hslots
      refine receiveRecords_delivered ?_ (fun r hr => ⟨(hok r hr).2, hdata r hr, hle r hr⟩) hs hslots
      rw [sentWrites_eq, List.forall₂_map_right_iff, List.forall₂_same]
      exact hframed

/-- The string "A" logged on another host with the given flags, as it
arrives on a connection. -/
def stringArrival (flags : UInt8) : Arrival :=
  .tcp 0 [[0xfe, 0xef, 0x00, 0x07] ++ List.replicate 4 0 ++ [0, 0, 0, 2] ++ List.replicate 28 0
    ++ [0, 0, 0, flags] ++ List.replicate 4 0 ++ [0, 0, 0, 0, 0, 0, 0, 1] ++ List.replicate 24 0
    ++ [0x41]]

/-- With `POSIX_LOG_TRUNCATE` its one byte of data is sent twice. -/
theorem framing_broken :
    (∀ r ∈ forwardedRecords [] [stringArrival 1], r.1.logSize.toNat ≤ posixLogEntryMaxlen)
      ∧ ¬ FramingKept [] [stringArrival 1] := by
  refine ⟨by decide, fun hkept => ?_⟩
  have hlens := congrArg List.length hkept.concatenated
  exact absurd hlens (by decide)

/-- Without it the framing is kept. -/
theorem framing_kept_string : FramingKept [] [stringArrival 0] := by
  refine (framing_kept_iff [] [stringArrival 0] (by decide)).2 ?_
  rintro r hr
  obtain rfl := List.mem_singleton.1 hr
  exact ⟨fun h => absurd h.1 (by decide), by decide⟩

end Evlog.Evlogd.Socket
