/-
Evlog.Evlogd.KernelTheorems — what evlogd makes of a buffer full of kernel
records.

`KernRecord` is a record as the kernel writes it, with a header of any of
the versions or a plain one. `getRecHeader_header` says that the header is
read back and its size found, for every version but 2, and from it
`processKernelEvents_forwards` follows by induction over the records in the
buffer.
-/
import Evlog.Evlogd.KernelRecords

namespace Evlog.Evlogd.Kernel

open Evlog.Lib Evlog.Posix

/-! ## Records of the kernel -/

/-- The fields up to the facility, which version 1 and 2 start with. -/
def KernLogEntry.headBytes (k : KernLogEntry UInt32) : List UInt8 :=
  leBytes 2 k.logSize.toNat ++ (leBytes 1 k.logFormat.toUInt8.toNat ++
  (leBytes 1 k.logSeverity.toUInt8.toNat ++ (leBytes 4 k.logEventType.toUInt32.toNat ++
  (leBytes 4 k.logFacility.toNat ++ (leBytes 4 k.logUid.toNat ++ (leBytes 4 k.logGid.toNat ++
  (leBytes 4 k.logPid.toUInt32.toNat ++ leBytes 4 k.logPgrp.toUInt32.toNat)))))))

def KernLogEntry.toBytesV1 (k : KernLogEntry UInt32) : List UInt8 :=
  k.headBytes ++ (leBytes 8 k.logTimeSec.toUInt64.toNat ++ (leBytes 4 k.logTimeNsec.toUInt32.toNat ++
  (leBytes 4 k.logFlags.toNat ++ leBytes 4 k.logProcessor.toUInt32.toNat)))

def KernLogEntry.toBytesV2 (k : KernLogEntry UInt32) : List UInt8 :=
  k.headBytes ++ (leBytes 4 k.logFlags.toNat ++ (leBytes 4 k.logProcessor.toUInt32.toNat ++
  (leBytes 8 k.logTimeSec.toUInt64.toNat ++ leBytes 4 k.logTimeNsec.toUInt32.toNat)))

def KernLogEntry.toBytesV3 (k : KernLogEntry (List UInt8)) (pad : List UInt8) : List UInt8 :=
  leBytes 2 k.logSize.toNat ++ (leBytes 1 k.logFormat.toUInt8.toNat ++
  (leBytes 1 k.logSeverity.toUInt8.toNat ++ (leBytes 4 k.logEventType.toUInt32.toNat ++
  (leBytes 4 k.logFlags.toNat ++ (leBytes 4 k.logProcessor.toUInt32.toNat ++ (pad ++
  (leBytes 8 k.logTimeSec.toUInt64.toNat ++ (leBytes 4 k.logTimeNsec.toUInt32.toNat ++
  (leBytes 4 k.logUid.toNat ++ (leBytes 4 k.logGid.toNat ++ (leBytes 4 k.logPid.toUInt32.toNat ++
  (leBytes 4 k.logPgrp.toUInt32.toNat ++ k.logFacility))))))))))))

/-- The first four bytes of a `struct kern_log_entry`. -/
def kernelMark (version : Nat) : List UInt8 := leBytes 2 logrecKmagic ++ leBytes 2 version

/-- A header in the buffer. What the kernel leaves as padding can be
anything. The name of a facility ends with a NUL, and a plain header does
not start like another one. -/
inductive KernHeader where
  | v1 (k : KernLogEntry UInt32) (pad : List UInt8) (hpad : pad.length = 4)
  | v2 (k : KernLogEntry UInt32) (pad : List UInt8) (hpad : pad.length = 4)
  | v3 (k : KernLogEntry (List UInt8)) (pad pad' : List UInt8) (hpad : pad.length = 4)
      (hpad' : pad'.length = 4) (hfacility : k.logFacility.length = facilityNameSize)
      (hname : 0 ∈ k.logFacility)
  | plain (e : PosixLogEntry)
      (hplain : e.logMagic.toNat % 65536 ≠ logrecKmagic ∨
        e.logMagic.toNat / 65536 ∉ [1, 2, 3])

def KernHeader.bytes : KernHeader → List UInt8
  | .v1 k pad _ => kernelMark 1 ++ (k.toBytesV1 ++ pad)
  | .v2 k pad _ => kernelMark 2 ++ (k.toBytesV2 ++ pad)
  | .v3 k pad pad' _ _ _ _ => kernelMark 3 ++ (k.toBytesV3 pad ++ pad')
  | .plain e _ => e.toBytes

def KernHeader.logSize : KernHeader → Nat
  | .v1 k _ _ => k.logSize.toNat
  | .v2 k _ _ => k.logSize.toNat
  | .v3 k _ _ _ _ _ _ => k.logSize.toNat
  | .plain e _ => e.logSize.toNat

def KernHeader.size : KernHeader → Nat
  | .v1 _ _ _ => kernLogEntryV1Size
  | .v2 _ _ _ => kernLogEntryV2Size
  | .v3 _ _ _ _ _ _ _ => kernLogEntryV3Size
  | .plain _ _ => recHdrSize

def KernHeader.IsV2 : KernHeader → Prop
  | .v2 _ _ _ => True
  | _ => False

/-- The kernel's fields as a `struct posix_log_entry`. Those that the kernel
does not have are 0. -/
def KernLogEntry.entry {φ : Type} (k : KernLogEntry φ) (facility : UInt32) : PosixLogEntry where
  logMagic := 0
  logRecid := 0
  logSize := k.logSize.toUInt64
  logFormat := k.logFormat.toInt32
  logEventType := k.logEventType
  logFacility := facility
  logSeverity := k.logSeverity.toInt32
  logUid := k.logUid
  logGid := k.logGid
  logPid := k.logPid
  logPgrp := k.logPgrp
  logTimeSec := k.logTimeSec
  logTimeNsec := k.logTimeNsec.toInt64
  logFlags := k.logFlags
  logThread := 0
  logProcessor := k.logProcessor

def KernHeader.entry (env : KernEnv) : KernHeader → PosixLogEntry
  | .v1 k _ _ => k.entry k.logFacility
  | .v2 k _ _ => k.entry k.logFacility
  | .v3 k _ _ _ _ _ _ => k.entry (env.facilityCode k.logFacility)
  | .plain e _ => e

structure KernRecord where
  header : KernHeader
  data : List UInt8
  whole : data.length = header.logSize

def KernRecord.bytes (r : KernRecord) : List UInt8 := r.header.bytes ++ r.data

/-! ## Headers are read back -/

section Header

variable (env : KernEnv) (entry : PosixLogEntry) (rest : List UInt8)

theorem uint16_ofNat_mod (x : UInt16) : UInt16.ofNat (x.toNat % 256 ^ 2) = x := by
  rw [Nat.mod_eq_of_lt (by simpa using x.toNat_lt), UInt16.ofNat_toNat]

theorem uint8_ofNat_mod (x : UInt8) : UInt8.ofNat (x.toNat % 256 ^ 1) = x := by
  rw [Nat.mod_eq_of_lt (by simpa using x.toNat_lt), UInt8.ofNat_toNat]

theorem ofBytesV1_toBytesV1 (k : KernLogEntry UInt32) :
    KernLogEntry.ofBytesV1 (k.toBytesV1 ++ rest) = k := by
  simp only [KernLogEntry.toBytesV1, KernLogEntry.headBytes, KernLogEntry.ofBytesV1,
    List.append_assoc, takeLE_leBytes_append, uint16_ofNat_mod, uint8_ofNat_mod, uint32_ofNat_mod,
    uint64_ofNat_mod, Int8.toInt8_toUInt8, Int32.toInt32_toUInt32, Int64.toInt64_toUInt64]

theorem ofBytesV3_toBytesV3 {k : KernLogEntry (List UInt8)} {pad : List UInt8} (hpad : pad.length = 4)
    (hfacility : k.logFacility.length = facilityNameSize) :
    KernLogEntry.ofBytesV3 (k.toBytesV3 pad ++ rest) = k := by
  have htake : ∀ bs, takeLE 4 (pad ++ bs) = (leNat pad, bs) := by
    intro bs
    rw [takeLE, List.take_left' hpad, List.drop_left' hpad]
  simp only [KernLogEntry.toBytesV3, KernLogEntry.ofBytesV3, List.append_assoc,
    takeLE_leBytes_append, htake, uint16_ofNat_mod, uint8_ofNat_mod, uint32_ofNat_mod,
    uint64_ofNat_mod, Int8.toInt8_toUInt8, Int32.toInt32_toUInt32, Int64.toInt64_toUInt64,
    List.take_left' hfacility]

theorem kernelVersion_mark {version : Nat} (h : version < 256 ^ 2) :
    kernelVersion (kernelMark version ++ rest) = some version := by
  rw [kernelMark, kernelVersion, List.append_assoc]
  simp only [takeLE_leBytes_append]
  rw [if_pos (by decide), Nat.mod_eq_of_lt h]

/-- A plain header does not start with the mark of a version. -/
theorem kernelVersion_toBytes (e : PosixLogEntry) : kernelVersion (e.toBytes ++ rest) =
      if e.logMagic.toNat % 65536 = logrecKmagic then some (e.logMagic.toNat / 65536) else none := by
  have hmagic : leBytes 4 e.logMagic.toNat =
      leBytes 2 e.logMagic.toNat ++ leBytes 2 (e.logMagic.toNat / 65536) := leBytes_add 2 2 _
  have hlt : e.logMagic.toNat / 65536 < 256 ^ 2 := by
    have := e.logMagic.toNat_lt
    omega
  rw [PosixLogEntry.toBytes, hmagic, kernelVersion]
  simp only [List.append_assoc, takeLE_leBytes_append, Nat.mod_eq_of_lt hlt]
  rfl

@[simp] theorem KernLogEntry.copyTo_eq {φ : Type} (k : KernLogEntry φ) (facility : UInt32) :
    k.copyTo facility entry = k.entry facility := rfl

theorem drop_kernelMark (version : Nat) (bs : List UInt8) :
    (kernelMark version ++ bs).drop 4 = bs :=
  List.drop_left' (by simp [kernelMark])

/-- A header that is not of version 2 is read back, and its size is its own. -/
theorem getRecHeader_header {h : KernHeader} (hv2 : ¬ h.IsV2) :
    getRecHeader env (h.bytes ++ rest) entry = (h.entry env, h.size) := by
  cases h with
  | v1 k pad hpad =>
    have hversion := kernelVersion_mark (k.toBytesV1 ++ pad ++ rest) (by decide : 1 < 256 ^ 2)
    rw [KernHeader.bytes, List.append_assoc, getRecHeader, copyKernelHeader, hversion]
    simp only [drop_kernelMark, List.append_assoc, ofBytesV1_toBytesV1, KernLogEntry.copyTo_eq,
      KernHeader.entry, KernHeader.size]
  | v2 k pad hpad => exact absurd trivial hv2
  | v3 k pad pad' hpad hpad' hfacility hname =>
    have hversion := kernelVersion_mark (k.toBytesV3 pad ++ pad' ++ rest) (by decide : 3 < 256 ^ 2)
    rw [KernHeader.bytes, List.append_assoc, getRecHeader, copyKernelHeader, hversion]
    simp only [drop_kernelMark, List.append_assoc, ofBytesV3_toBytesV3 _ hpad hfacility,
      KernLogEntry.copyTo_eq, KernHeader.entry, KernHeader.size]
  | plain e hplain =>
    have hcopy : copyKernelHeader env (e.toBytes ++ rest) entry = none := by
      rw [copyKernelHeader, kernelVersion_toBytes]
      by_cases hmagic : e.logMagic.toNat % 65536 = logrecKmagic
      · have hversion := hplain.resolve_left (not_not_intro hmagic)
        rw [if_pos hmagic]
        generalize e.logMagic.toNat / 65536 = version at hversion
        match version, hversion with
        | 0, _ => rfl
        | 1, hversion => simp at hversion
        | 2, hversion => simp at hversion
        | 3, hversion => simp at hversion
        | n + 4, _ => rfl
      · rw [if_neg hmagic]
    rw [KernHeader.bytes, getRecHeader, hcopy, PosixLogEntry.ofBytes_toBytes_append]
    rfl

end Header

theorem KernHeader.bytes_length (h : KernHeader) : h.bytes.length = h.size := by
  cases h with
  | v1 k pad hpad => simp [bytes, size, kernelMark, KernLogEntry.toBytesV1, KernLogEntry.headBytes,
      hpad, kernLogEntryV1Size]
  | v2 k pad hpad => simp [bytes, size, kernelMark, KernLogEntry.toBytesV2, KernLogEntry.headBytes,
      hpad, kernLogEntryV2Size]
  | v3 k pad pad' hpad hpad' hfacility _ => simp [bytes, size, kernelMark, KernLogEntry.toBytesV3,
      hpad, hpad', hfacility, facilityNameSize, kernLogEntryV3Size]
  | plain e _ => simp [bytes, size]

theorem KernHeader.entry_logSize (h : KernHeader) (env : KernEnv) :
    (h.entry env).logSize.toNat = h.logSize := by
  cases h <;> simp [entry, logSize, KernLogEntry.entry]

theorem KernRecord.bytes_length (r : KernRecord) :
    r.bytes.length = r.header.size + r.header.logSize := by
  rw [bytes, List.length_append, r.header.bytes_length, r.whole]

/-! ## What is passed on -/

/-- How a header that is passed on differs from the one with the kernel's
fields. The event type may come from the text behind the header. -/
structure Adjusted (env : KernEnv) (text : List UInt8) (kentry rhdr : PosixLogEntry) : Prop where
  others : rhdr = { kentry with
    logTimeSec := rhdr.logTimeSec
    logTimeNsec := rhdr.logTimeNsec
    logFlags := rhdr.logFlags
    logEventType := rhdr.logEventType }
  flags : rhdr.logFlags = kentry.logFlags &&& ~~~(evlInitialBootEvent ||| evlKerntimeLocal)
  bootTime : kentry.logFlags &&& evlInitialBootEvent ≠ 0 →
    rhdr.logTimeSec = env.now - env.uptime ∧ rhdr.logTimeNsec = 0
  localTime : kentry.logFlags &&& evlInitialBootEvent = 0 →
    kentry.logFlags &&& evlKerntimeLocal ≠ 0 → env.rtcIsLocal →
    rhdr.logTimeSec = kentry.logTimeSec + (env.tzMinuteswest * 60).toInt64 ∧
      rhdr.logTimeNsec = kentry.logTimeNsec
  time : kentry.logFlags &&& evlInitialBootEvent = 0 →
    kentry.logFlags &&& evlKerntimeLocal = 0 ∨ env.rtcIsLocal = false →
    rhdr.logTimeSec = kentry.logTimeSec ∧ rhdr.logTimeNsec = kentry.logTimeNsec
  typeOfText : typeFromString kentry →
    rhdr.logEventType = evlGenEventTypeV2 (text.takeWhile (· ≠ 0))
  eventType : ¬ typeFromString kentry → rhdr.logEventType = kentry.logEventType

/-- The time is all that `adjustTime` changes. -/
theorem adjustTime_eq (env : KernEnv) (kentry : PosixLogEntry) :
    adjustTime env kentry = { kentry with
      logTimeSec := (adjustTime env kentry).logTimeSec
      logTimeNsec := (adjustTime env kentry).logTimeNsec } := by
  unfold adjustTime
  split
  · rfl
  · split <;> rfl

/-- The flags that are masked off do not matter to the event type. -/
theorem typeFromString_mask (kentry : PosixLogEntry) : typeFromString { kentry with
      logFlags := kentry.logFlags &&& ~~~(evlInitialBootEvent ||| evlKerntimeLocal) } =
      typeFromString kentry := by
  have hmask : (kentry.logFlags &&& ~~~(evlInitialBootEvent ||| evlKerntimeLocal)) &&& evlEvtycrc =
      kentry.logFlags &&& evlEvtycrc := by
    rw [UInt32.and_assoc]
    rfl
  rw [typeFromString, hmask]
  rfl

/-- The event type is set or left by the flags and the format that the
kernel gave. -/
theorem adjust_eq (env : KernEnv) (kentry : PosixLogEntry) (text : List UInt8) :
    adjust env kentry text = { kentry with
      logTimeSec := (adjustTime env kentry).logTimeSec
      logTimeNsec := (adjustTime env kentry).logTimeNsec
      logFlags := kentry.logFlags &&& ~~~(evlInitialBootEvent ||| evlKerntimeLocal)
      logEventType :=
        if typeFromString kentry then evlGenEventTypeV2 (text.takeWhile (· ≠ 0))
        else kentry.logEventType } := by
  have htext := typeFromString_mask (adjustTime env kentry)
  rw [adjustTime_eq] at htext
  rw [adjust, adjustTime_eq]
  cases hkentry : typeFromString kentry with
  | true =>
    rw [if_pos (htext.trans hkentry)]
    rfl
  | false =>
    rw [if_neg (by rw [htext.trans hkentry]; decide)]
    rfl

theorem adjust_adjusted (env : KernEnv) (kentry : PosixLogEntry) (text : List UInt8) :
    Adjusted env text kentry (adjust env kentry text) := by
  rw [adjust_eq]
  constructor
  · rfl
  · rfl
  · intro hboot
    simp [adjustTime, hboot]
  · intro hboot hlocal hrtc
    simp [adjustTime, hboot, hlocal, hrtc]
  · intro hboot hlocal
    have : ¬ (kentry.logFlags &&& evlKerntimeLocal ≠ 0 ∧ env.rtcIsLocal) := by
      rintro ⟨hne, hrtc⟩
      simp_all
    simp [adjustTime, hboot, this]
  · intro htext
    simp [htext]
  · intro htext
    simp [htext]

/-- `fwd` is what becomes of the records from the `i`-th on, with `rest`
behind them in the buffer: each is passed on in its turn, until
`writeKernEvt` fails. -/
inductive Forwards (env : Nat → KernEnv) (rest : List UInt8) :
    Nat → List KernRecord → List (PosixLogEntry × List UInt8) → Prop
  | done (i : Nat) : Forwards env rest i [] []
  | next {i : Nat} {r : KernRecord} {recs : List KernRecord} {rhdr : PosixLogEntry}
      {fwd : List (PosixLogEntry × List UInt8)}
      (hheader : Adjusted (env i) (r.data ++ (recs.flatMap KernRecord.bytes ++ rest))
        (r.header.entry (env i)) rhdr)
      (hwrite : (env i).writeOk) (hnext : Forwards env rest (i + 1) recs fwd) :
      Forwards env rest i (r :: recs) ((rhdr, r.data) :: fwd)
  | failed {i : Nat} {r : KernRecord} {recs : List KernRecord} {rhdr : PosixLogEntry}
      (hheader : Adjusted (env i) (r.data ++ (recs.flatMap KernRecord.bytes ++ rest))
        (r.header.entry (env i)) rhdr)
      (hwrite : ¬ (env i).writeOk) : Forwards env rest i (r :: recs) [(rhdr, r.data)]

theorem Forwards.length_eq {env : Nat → KernEnv} {rest : List UInt8} {i : Nat}
    {recs : List KernRecord} {fwd : List (PosixLogEntry × List UInt8)}
    (h : Forwards env rest i recs fwd) (hwrite : ∀ j, (env j).writeOk) :
    fwd.length = recs.length := by
  induction h with
  | done => rfl
  | next _ _ _ ih => rw [List.length_cons, List.length_cons, ih]
  | failed _ hfail => exact absurd (hwrite _) hfail

theorem KernHeader.size_pos (h : KernHeader) : 0 < h.size := by
  cases h <;> exact Nat.succ_pos _

/-- One round of the loop passes the next record on and gets to the one
behind it. -/
theorem processRecords_cons {env : Nat → KernEnv} {rest : List UInt8} {r : KernRecord}
    {fuel i j : Nat} {entry : PosixLogEntry} (hv2 : ¬ r.header.IsV2)
    (hj : r.bytes.length ≤ j) (hfits : j < 2 ^ 32) :
    processRecords env (fuel + 1) i entry (r.bytes ++ rest) j =
      (let rhdr := adjust (env i) (r.header.entry (env i)) (r.data ++ rest)
       if (env i).writeOk then
         (processRecords env fuel (i + 1) rhdr rest (j - r.bytes.length)).map ((rhdr, r.data) :: ·)
       else some [(rhdr, r.data)]) := by
  have hlength := r.bytes_length
  have hpos := r.header.size_pos
  have hlogSize := r.header.entry_logSize (env i)
  obtain ⟨j, rfl⟩ : ∃ k, j = k + 1 := ⟨j - 1, by omega⟩
  have hheader : getRecHeader (env i) (r.bytes ++ rest) entry = (r.header.entry (env i), r.header.size) := by
    rw [KernRecord.bytes, List.append_assoc]
    exact getRecHeader_header (env i) entry (r.data ++ rest) hv2
  have hrlen : ((r.header.entry (env i)).logSize + UInt64.ofNat r.header.size).toUInt32.toNat =
      r.bytes.length := by
    simp only [UInt64.toNat_toUInt32, UInt64.toNat_add, UInt64.toNat_ofNat', hlogSize]
    omega
  have hdata : (r.bytes ++ rest).drop r.header.size = r.data ++ rest := by
    rw [KernRecord.bytes, List.append_assoc, List.drop_left' r.header.bytes_length]
  have hsize : (adjust (env i) (r.header.entry (env i)) (r.data ++ rest)).logSize.toNat =
      r.data.length := by
    rw [adjust_eq, r.whole, hlogSize]
  rw [processRecords, hheader]
  simp only [hrlen, hdata, hsize, List.drop_left, List.take_left]
  rw [if_neg (by omega)]

/-- Every record is passed on in its turn, behind its own header. -/
theorem processRecords_forwards {env : Nat → KernEnv} {rest : List UInt8} {recs : List KernRecord}
    (hv2 : ∀ r ∈ recs, ¬ r.header.IsV2) (hfits : (recs.flatMap KernRecord.bytes).length < 2 ^ 32)
    {fuel i : Nat} {entry : PosixLogEntry} (hfuel : recs.length ≤ fuel) :
    ∃ fwd, processRecords env fuel i entry (recs.flatMap KernRecord.bytes ++ rest)
      (recs.flatMap KernRecord.bytes).length = some fwd ∧ Forwards env rest i recs fwd := by
  induction recs generalizing fuel i entry with
  | nil => exact ⟨[], by rw [List.flatMap_nil, List.length_nil, processRecords], .done i⟩
  | cons r recs ih =>
    obtain ⟨fuel, rfl⟩ : ∃ k, fuel = k + 1 := ⟨fuel - 1, by grind⟩
    rw [List.flatMap_cons, List.length_append] at hfits
    rw [List.flatMap_cons, List.append_assoc, processRecords_cons (hv2 r List.mem_cons_self)
      (by rw [List.length_append]; omega) (by rw [List.length_append]; omega)]
    have hheader := adjust_adjusted (env i) (r.header.entry (env i))
      (r.data ++ (recs.flatMap KernRecord.bytes ++ rest))
    by_cases hwrite : (env i).writeOk
    · obtain ⟨fwd, hfwd, hforwards⟩ := @ih (fun s hs => hv2 s (List.mem_cons_of_mem r hs))
        (by omega) fuel (i + 1) (adjust (env i) (r.header.entry (env i))
          (r.data ++ (recs.flatMap KernRecord.bytes ++ rest))) (Nat.le_of_succ_le_succ hfuel)
      simp only [if_pos hwrite]
      rw [List.length_append, Nat.add_sub_cancel_left, hfwd]
      exact ⟨_, rfl, .next hheader hwrite hforwards⟩
    · simp only [if_neg hwrite]
      exact ⟨_, rfl, .failed hheader hwrite⟩

/-- `MAX_RECSIZE`, the size of the buffer. -/
def maxRecsize : Nat := recHdrSize + posixLogEntryMaxlen

theorem length_le_bytes (recs : List KernRecord) :
    recs.length ≤ (recs.flatMap KernRecord.bytes).length := by
  induction recs with
  | nil => simp
  | cons r recs ih =>
    have hpos := r.header.size_pos
    have hlength := r.bytes_length
    rw [List.flatMap_cons, List.length_append, List.length_cons]
    omega

/-- A buffer of complete records without one of version 2: each record is
passed on once, in its turn, with the fields of its header and the bytes
behind it, until `writeKernEvt` fails. -/
theorem processKernelEvents_forwards (env : Nat → KernEnv) (entry : PosixLogEntry)
    (recs : List KernRecord) (rest : List UInt8)
    (hbuf : (recs.flatMap KernRecord.bytes).length ≤ maxRecsize)
    (hv2 : ∀ r ∈ recs, ¬ r.header.IsV2) :
    ∃ fwd, processKernelEvents env entry (recs.flatMap KernRecord.bytes ++ rest)
        (recs.flatMap KernRecord.bytes).length = some fwd ∧
      Forwards env rest 0 recs fwd ∧
      ((∀ i, (env i).writeOk) → fwd.length = recs.length) := by
  obtain ⟨fwd, hfwd, hforwards⟩ := @processRecords_forwards env rest recs hv2
    (hbuf.trans_lt (by decide)) _ 0 entry (length_le_bytes recs)
  exact ⟨fwd, hfwd, hforwards, hforwards.length_eq⟩

/-! ### On a version 1, a version 2 and a version 3 header -/

def bootMessage : KernLogEntry UInt32 where
  logSize := 2
  logFormat := 2
  logSeverity := 6
  logEventType := 11
  logFacility := 0
  logUid := 0
  logGid := 0
  logPid := 1
  logPgrp := 0
  logTimeSec := 0
  logTimeNsec := 5
  logFlags := evlKernelEvent ||| evlInitialBootEvent
  logProcessor := 0

def zeros (n : Nat) : List UInt8 := List.replicate n 0

def bootRecordV1 : KernRecord := ⟨.v1 bootMessage (zeros 4) rfl, [0x61, 0], rfl⟩

def bootRecordV2 : KernRecord := ⟨.v2 { bootMessage with logSize := 0 } (zeros 4) rfl, [], rfl⟩

/-- The same from version 3, where "kern" is the name of the facility. -/
def bootRecordV3 : KernRecord :=
  ⟨.v3 { bootMessage with logFacility := [0x6b, 0x65, 0x72, 0x6e] ++ zeros 12 } (zeros 4) (zeros 4)
    rfl rfl rfl (by decide), [0x61, 0], rfl⟩

/-- No registry, and the system has been up for 10 seconds. -/
def bootEnv : KernEnv where
  strtofac _ := none
  now := 1000
  uptime := 10
  rtcIsLocal := false
  tzMinuteswest := 0
  writeOk := true

set_option maxRecDepth 20000

theorem processKernelEvents_forwards_boot :
    ∃ fwd, processKernelEvents (fun _ => bootEnv) (bootMessage.entry 0)
        ([bootRecordV1, bootRecordV3].flatMap KernRecord.bytes ++ zeros 8)
        ([bootRecordV1, bootRecordV3].flatMap KernRecord.bytes).length = some fwd ∧
      Forwards (fun _ => bootEnv) (zeros 8) 0 [bootRecordV1, bootRecordV3] fwd ∧
      ((∀ _ : Nat, bootEnv.writeOk) → fwd.length = 2) :=
  processKernelEvents_forwards (fun _ => bootEnv) (bootMessage.entry 0)
    [bootRecordV1, bootRecordV3] (zeros 8) (by decide) (by
      intro r hr
      simp only [List.mem_cons, List.not_mem_nil, or_false] at hr
      rcases hr with rfl | rfl <;> exact id)

/-- The boot message is dated by the daemon and loses the flag, so its
fields are not the kernel's, and the message of version 2, whose header is
taken for one of version 3, is not passed on at all. -/
theorem boot_changed :
    ((processKernelEvents (fun _ => bootEnv) (bootMessage.entry 0) bootRecordV1.bytes
        bootRecordV1.bytes.length).map
        fun fwd => fwd.map fun f => (f.1.logTimeSec, f.1.logFlags, f.2)) =
      some [(990, evlKernelEvent, [0x61, 0])] ∧
    (bootRecordV1.header.entry bootEnv).logTimeSec = 0 ∧
    (bootRecordV1.header.entry bootEnv).logFlags = evlKernelEvent ||| evlInitialBootEvent ∧
    processKernelEvents (fun _ => bootEnv) (bootMessage.entry 0) bootRecordV2.bytes
      bootRecordV2.bytes.length = some [] := by
  refine ⟨by decide, rfl, rfl, by decide⟩

end Evlog.Evlogd.Kernel
