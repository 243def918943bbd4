/-
Evlog.Evlogd.ReceiveTheorems — what evlogd stores of a client's bytes.

Three facts about the parts come first: what `_evlReadEx` does with a
length that fits an `int` (`evlReadEx_small`), which headers
`populateRecHdr` takes a stream to start with (`HeaderOnWire`,
`populateRecHdr_some_iff`), and that the stores of everything but the
data are harmless.

`RecordSafe` is what a fixed buffer asks for: every store lies inside its
array, the announced size is within `POSIX_LOG_ENTRY_MAXLEN` wherever the
data is read or copied, and a record that is used has all its data. The
code never compares `log_size` with anything, so `RecordSafe` of a call is
a condition on the header the client sent (`HeaderFits`), and of a whole
connection the same condition on every header in it
(`serveClient_safe_iff`).
-/
import Evlog.Evlogd.Receive

namespace Evlog.Evlogd.Socket

open Evlog.Lib Evlog.Posix

/-! ## `_evlReadEx` -/

variable {len : UInt64}

/-- `_evlReadEx` with a length that fits: the loop for that many bytes,
and the length or -1. -/
theorem evlReadEx_small (s : ByteStream) (h : len.toNat < 2 ^ 31) : evlReadEx s len =
      if (s.readLoop len.toNat).2.1
      then ⟨(s.readLoop len.toNat).1, len.toUInt32.toInt32, (s.readLoop len.toNat).2.2⟩
      else ⟨(s.readLoop len.toNat).1, -1, (s.readLoop len.toNat).2.2⟩ := by
  have hInt := toInt_narrow h
  have hclamp : len.toUInt32.toInt32.toNatClampNeg = len.toNat := by
    rw [← Int32.toNat_toInt, hInt]
    simp
  rw [evlReadEx]
  split
  · rw [hclamp]
  · rename_i hpos
    have hzero : len.toNat = 0 := by
      rw [Int32.lt_iff_toInt_lt, hInt] at hpos
      simpa using hpos
    have hlen : len = 0 := UInt64.toNat_inj.1 (by simpa using hzero)
    subst hlen
    simp only [UInt64.toNat_zero, ByteStream.readLoop, if_true]
    rfl

theorem evlReadEx_whole {s : ByteStream} (h : len.toNat < 2 ^ 31)
    (hret : ¬ (evlReadEx s len).ret < 0) : (evlReadEx s len).stored.length = len.toNat := by
  rw [evlReadEx_small s h] at hret ⊢
  split
  · rename_i hw
    exact ByteStream.readLoop_length hw
  · rename_i hw
    rw [if_neg hw] at hret
    exact absurd (show (-1 : Int32) < 0 by decide) hret

/-- In every case no more bytes are stored than announced. -/
theorem evlReadEx_length_le {s : ByteStream} (h : len.toNat < 2 ^ 31) :
    (evlReadEx s len).stored.length ≤ len.toNat := by
  rw [evlReadEx_small s h]
  split
  · exact ByteStream.readLoop_length_le s _
  · exact ByteStream.readLoop_length_le s _

/-! ## `populateRecHdr` -/

/-- The stream starts with the header `rhdr`: the bytes of a native header
or of a 32-bit one arrive as the two reads ask for them. A 32-bit header
leaves the flags that were in the slot. -/
inductive HeaderOnWire (slot : PosixLogEntry) (s : ByteStream) : PosixLogEntry → Prop
  | native (arch tail : List UInt8) (s₁ s₂ : ByteStream) :
      s.read logMagicSize = (arch, s₁) → arch.length = logMagicSize →
      UInt32.ofNat (leNat arch) ≠ logrecArchI386 →
      s₁.read (recHdrSize - logMagicSize) = (tail, s₂) →
      tail.length = recHdrSize - logMagicSize →
      HeaderOnWire slot s (PosixLogEntry.ofBytes (arch ++ tail))
  | i386 (arch tail : List UInt8) (s₁ s₂ : ByteStream) :
      s.read logMagicSize = (arch, s₁) → arch.length = logMagicSize →
      UInt32.ofNat (leNat arch) = logrecArchI386 →
      s₁.read (recHdr32Size - logMagicSize) = (tail, s₂) →
      tail.length = recHdr32Size - logMagicSize →
      HeaderOnWire slot s (fromRecHdr32 slot tail)

/-- `populateRecHdr` gets through exactly on the headers the stream can
start with. -/
theorem populateRecHdr_some_iff (s : ByteStream) (slot rhdr : PosixLogEntry) :
    (populateRecHdr s slot).entry = some rhdr ↔ HeaderOnWire slot s rhdr := by
  simp only [populateRecHdr]
  constructor
  · intro h
    split_ifs at h with h4 harch htail htail
    · simp only [Option.some.injEq] at h
      subst h
      exact .i386 _ _ _ _ rfl (not_not.1 h4) harch rfl (not_not.1 htail)
    · simp only [Option.some.injEq] at h
      subst h
      exact .native _ _ _ _ rfl (not_not.1 h4) harch rfl (not_not.1 htail)
  · intro h
    cases h with
    | native arch tail s₁ s₂ hread h4 harch hread' htail => simp [hread, h4, harch, hread', htail]
    | i386 arch tail s₁ s₂ hread h4 harch hread' htail => simp [hread, h4, harch, hread', htail]

/-- The header's own stores lie in the slot, also when a read is short. -/
theorem populateRecHdr_stores (s : ByteStream) (slot : PosixLogEntry) :
    ∀ st ∈ (populateRecHdr s slot).stores, st.Inside := by
  have htail := (s.read logMagicSize).2.read_length_le (recHdrSize - logMagicSize)
  intro st hst
  simp only [populateRecHdr] at hst
  split_ifs at hst
  · simp at hst
  · simp at hst
  · obtain rfl := List.mem_singleton.1 hst
    decide
  all_goals
    simp only [List.cons_append, List.nil_append, List.mem_cons, List.not_mem_nil, or_false] at hst
    rcases hst with rfl | rfl
  all_goals
    simp only [Store.Inside, RecBuffer.size, maxRecsize, recHdrSize, logMagicSize,
      posixLogEntryMaxlen] at htail ⊢
    omega

theorem leNat_take_magic (e : PosixLogEntry) :
    UInt32.ofNat (leNat (e.toBytes.take logMagicSize)) = e.logMagic := by
  have htake : e.toBytes.take logMagicSize = leBytes 4 e.logMagic.toNat := by
    rw [PosixLogEntry.toBytes, logMagicSize, List.take_left' (leBytes_length 4 _)]
  rw [htake, leNat_leBytes, uint32_ofNat_mod]

/-- A native header that arrives in one piece is taken over as it was
sent, and the rest of the piece stays to be read. -/
theorem populateRecHdr_native {e : PosixLogEntry} (he : e.logMagic ≠ logrecArchI386)
    (slot : PosixLogEntry) (rest : List UInt8) (s : ByteStream) :
    (populateRecHdr (ByteStream.ahead (e.toBytes ++ rest) s) slot).entry = some e
      ∧ (populateRecHdr (ByteStream.ahead (e.toBytes ++ rest) s) slot).rest
        = ByteStream.ahead rest s := by
  have hlen : (e.toBytes.take logMagicSize).length = logMagicSize := by
    simp [logMagicSize, recHdrSize]
  have hlen' : (e.toBytes.drop logMagicSize).length = recHdrSize - logMagicSize := by
    simp
  have hread := ByteStream.read_ahead (List.ne_nil_of_length_pos (by rw [hlen]; decide))
    (e.toBytes.drop logMagicSize ++ rest) s (b := e.toBytes.take logMagicSize)
  have hread' := ByteStream.read_ahead (List.ne_nil_of_length_pos (by rw [hlen']; decide))
    rest s (b := e.toBytes.drop logMagicSize)
  rw [hlen, ← List.append_assoc, List.take_append_drop] at hread
  rw [hlen'] at hread'
  simp only [populateRecHdr, hread, hread', hlen, hlen', leNat_take_magic, he, ne_eq,
    not_true_eq_false, if_false, List.take_append_drop, PosixLogEntry.ofBytes_toBytes, and_self]

/-! ## Safety of one call -/

/-- What the fixed buffers ask of a call. -/
structure RecordSafe (stores : List Store) (bodySizes : List UInt64)
    (used : Option (PosixLogEntry × List UInt8)) : Prop where
  stores_inside : ∀ st ∈ stores, st.Inside
  sizes_le : ∀ n ∈ bodySizes, n.toNat ≤ posixLogEntryMaxlen
  read_whole : ∀ r ∈ used, r.2.length = r.1.logSize.toNat

def EventTrace.Safe (t : EventTrace) : Prop := RecordSafe t.stores t.bodySizes t.used

/-- A call that uses no record is safe when its stores and sizes are. -/
theorem RecordSafe.unused {stores : List Store} {sizes : List UInt64}
    (hst : ∀ st ∈ stores, st.Inside) (hsz : ∀ n ∈ sizes, n.toNat ≤ posixLogEntryMaxlen) :
    RecordSafe stores sizes none :=
  ⟨hst, hsz, by simp⟩

theorem logEvlRecStores_inside {logSize : UInt64} (h : logSize.toNat ≤ posixLogEntryMaxlen) :
    ∀ st ∈ logEvlRecStores logSize, st.Inside := by
  have hrec : (logSize + UInt64.ofNat recHdrSize).toUInt32.toNat = logSize.toNat + 88 := by
    simp only [posixLogEntryMaxlen] at h
    simp [recHdrSize]
    omega
  intro st hst
  simp only [logEvlRecStores, hrec, List.mem_cons, List.not_mem_nil, or_false] at hst
  simp only [posixLogEntryMaxlen] at h
  rcases hst with rfl | rfl
  all_goals
    simp only [Store.Inside, RecBuffer.size, recHdrSize, posixLogEntryMaxlen, sizeSize]
    omega

/-- The facility request is annotated in the slot, unless it came without
data: then `varbuf` is NULL. -/
theorem handleFacRegEventStores_inside_iff (rhdr : PosixLogEntry) (kernelFailed : Bool) :
    (∀ st ∈ handleFacRegEventStores rhdr kernelFailed, st.Inside)
      ↔ ¬ (rhdr.logSize = 0 ∧ facRegRequest rhdr = true) := by
  by_cases hreq : facRegRequest rhdr = true
  · by_cases hsize : rhdr.logSize = 0
    · have hout : ¬ Store.Inside ⟨.null, 0 + 4, 4⟩ := by decide
      simp [handleFacRegEventStores, hreq, hsize, hout]
    · have hin : Store.Inside ⟨.slot, recHdrSize + 4, 4⟩ := by decide
      have hin' : Store.Inside ⟨.slot, recHdrSize + 8, 4⟩ := by decide
      cases kernelFailed <;> simp [handleFacRegEventStores, hreq, hsize, hin, hin']
  · simp [handleFacRegEventStores, hreq]

section Finish

variable {d : Daemon} {ci : ClientInfo} {c : EventCall} {stores : List Store}
  {sizes : List UInt64} {rhdr : PosixLogEntry} {varbuf : List UInt8} {s : ByteStream}

/-- Behind the last byte read, the only store left that can go wrong is
the annotation of a facility request. -/
theorem finishEvent_safe_iff (hst : ∀ st ∈ stores, st.Inside)
    (hsz : ∀ n ∈ sizes, n.toNat ≤ posixLogEntryMaxlen)
    (hlen : varbuf.length = rhdr.logSize.toNat) (hle : rhdr.logSize.toNat ≤ posixLogEntryMaxlen) :
    (finishEvent d c stores sizes rhdr varbuf s).Safe
      ↔ (rhdr.logSize = 0 → facRegRequest rhdr = true →
          d.defaultPosixLog = true ∧ screened d rhdr varbuf = true) := by
  have hfac := handleFacRegEventStores_inside_iff rhdr c.kernelFailed
  have hwhole : ∀ r ∈ some (rhdr, varbuf), r.2.length = r.1.logSize.toNat := by
    rintro r ⟨⟩
    exact hlen
  rw [finishEvent]
  by_cases hscr : (d.defaultPosixLog && screened d rhdr varbuf) = true
  · rw [if_pos hscr]
    exact ⟨fun _ _ _ => Bool.and_eq_true_iff.1 hscr, fun _ => ⟨hst, hsz, hwhole⟩⟩
  · rw [if_neg hscr]
    have hcond : (rhdr.logSize = 0 → facRegRequest rhdr = true →
          d.defaultPosixLog = true ∧ screened d rhdr varbuf = true)
        ↔ ∀ st ∈ handleFacRegEventStores rhdr c.kernelFailed, st.Inside := by
      rw [hfac, not_and]
      exact ⟨fun h hs hr => hscr (Bool.and_eq_true_iff.2 (h hs hr)),
        fun h hs hr => absurd hr (h hs)⟩
    rw [hcond]
    constructor
    · intro h st hmem
      refine h.stores_inside st ?_
      split
      · simp [hmem]
      · simp [hmem]
    · intro h
      have hst' : ∀ st ∈ stores ++ handleFacRegEventStores rhdr c.kernelFailed, st.Inside := by
        intro st hmem
        rcases List.mem_append.1 hmem with hm | hm
        · exact hst st hm
        · exact h st hm
      split
      · refine ⟨fun st hmem => ?_, fun n hn => ?_, hwhole⟩
        · rcases List.mem_append.1 hmem with hm | hm
          · exact hst' st hm
          · exact logEvlRecStores_inside hle st hm
        · rcases List.mem_append.1 hn with hn | hn
          · exact hsz n hn
          · rw [List.mem_singleton.1 hn]
            exact hle
      · exact ⟨hst', hsz, hwhole⟩

theorem finishEvent_bodySizes {n : UInt64} (hn : n ∈ sizes) :
    n ∈ (finishEvent d c stores sizes rhdr varbuf s).bodySizes := by
  rw [finishEvent]
  split
  · exact hn
  · split
    · simp [hn]
    · exact hn

@[simp] theorem setArch_logSize : (setArch d ci rhdr).logSize = rhdr.logSize := by
  rw [setArch]
  split_ifs <;> rfl

@[simp] theorem setArch_facRegRequest : facRegRequest (setArch d ci rhdr) = facRegRequest rhdr := by
  rw [setArch]
  split_ifs <;> rfl

end Finish

/-- The header at the front of the stream, should it be accepted,
announces no more data than fits; and a facility request that is not
screened out has data. -/
def HeaderFits (d : Daemon) (ci : ClientInfo) (c : EventCall) (s : ByteStream) : Prop :=
  ∀ rhdr, HeaderOnWire c.rhdr s rhdr → credentialsOk d ci rhdr = true →
    rhdr.logSize.toNat ≤ posixLogEntryMaxlen
      ∧ (rhdr.logSize = 0 → facRegRequest rhdr = true →
          d.defaultPosixLog = true ∧ screened d (setArch d ci rhdr) [] = true)

/-- A call stays inside its buffers exactly on the headers that fit. -/
theorem processEvent_safe_iff (d : Daemon) (ci : ClientInfo) (c : EventCall) (s : ByteStream) :
    (processEvent d ci c s).Safe ↔ HeaderFits d ci c s := by
  have hst := populateRecHdr_stores s c.rhdr
  cases hentry : (populateRecHdr s c.rhdr).entry with
  | none =>
    have hfits : HeaderFits d ci c s := by
      intro rhdr hwire
      rw [← populateRecHdr_some_iff, hentry] at hwire
      simp at hwire
    simp only [processEvent, hentry, hfits, iff_true]
    exact RecordSafe.unused hst (by simp)
  | some rhdr =>
    have hone : ∀ r, HeaderOnWire c.rhdr s r ↔ r = rhdr := by
      intro r
      rw [← populateRecHdr_some_iff, hentry, Option.some.injEq, eq_comm]
    simp only [HeaderFits, hone, forall_eq]
    by_cases hcred : credentialsOk d ci rhdr = true
    · simp only [processEvent, hentry, hcred, if_true, forall_true_left]
      by_cases hzero : rhdr.logSize = 0
      · have hle : rhdr.logSize.toNat ≤ posixLogEntryMaxlen := by simp [hzero]
        rw [if_pos (by simp [hzero]), finishEvent_safe_iff hst (by simp) (by simp [hzero])
          (by simpa using hle)]
        simp [hle]
      · rw [if_neg (by simpa using hzero)]
        by_cases hle : rhdr.logSize.toNat ≤ posixLogEntryMaxlen
        · have hsmall : rhdr.logSize.toNat < 2 ^ 31 := by
            simp only [posixLogEntryMaxlen] at hle
            omega
          have hst' : ∀ st ∈ (populateRecHdr s c.rhdr).stores
              ++ [⟨.slot, recHdrSize,
                (evlReadEx (populateRecHdr s c.rhdr).rest rhdr.logSize).stored.length⟩],
              st.Inside := by
            have hlen := evlReadEx_length_le (s := (populateRecHdr s c.rhdr).rest) hsmall
            intro st hmem
            rcases List.mem_append.1 hmem with hm | hm
            · exact hst st hm
            · rw [List.mem_singleton.1 hm]
              simp only [Store.Inside, RecBuffer.size, maxRecsize]
              omega
          simp only [hle, hzero, false_imp_iff, and_true, iff_true, setArch_logSize]
          split
          · exact RecordSafe.unused hst' (by simpa using hle)
          · rename_i hret
            rw [finishEvent_safe_iff hst' (by simpa using hle)
              (by simpa using evlReadEx_whole hsmall hret) (by simpa using hle)]
            simp [hzero]
        · simp only [hle, false_and, iff_false, setArch_logSize]
          intro hsafe
          refine hle (hsafe.sizes_le _ ?_)
          split
          · simp
          · exact finishEvent_bodySizes (by simp)
    · have hrej : credentialsOk d ci rhdr = false := by simpa using hcred
      simp only [processEvent, hentry, hrej, Bool.false_eq_true, if_false, false_imp_iff, iff_true]
      exact RecordSafe.unused hst (by simp)

/-! ## Safety of a connection -/

/-- Every header of the connection fits, as far as it is read. -/
def ConnectionFits (d : Daemon) (ci : ClientInfo) : List EventCall → ByteStream → Prop
  | [], _ => True
  | c :: cs, s =>
    HeaderFits d ci c s ∧ ((processEvent d ci c s).closed = false →
      ConnectionFits d ci cs (processEvent d ci c s).rest)

/-- A connection stays inside the buffers exactly when all its headers
fit. -/
theorem serveClient_safe_iff (d : Daemon) (ci : ClientInfo) (cs : List EventCall) (s : ByteStream) :
    (∀ t ∈ serveClient d ci cs s, t.Safe) ↔ ConnectionFits d ci cs s := by
  induction cs generalizing s with
  | nil => simp [serveClient, ConnectionFits]
  | cons c cs ih =>
    simp only [serveClient, ConnectionFits, List.forall_mem_cons, processEvent_safe_iff]
    cases hclosed : (processEvent d ci c s).closed with
    | true => simp
    | false => simp [ih]

end Evlog.Evlogd.Socket
