/-
Evlog.Evlogd.RemoteTheorems — what evlogrmtd forwards.

Two properties of the records of other hosts. The first is who they are
attributed to: the upper half of `log_processor` is read as the sender's
host id all over the repository, and evlogrmtd or-s the id into a field
the sender has filled (`hostId_kept_iff`). The second is framing: evlogd
cuts its input into records by the sizes in the headers, so what
`writeToEvlogd` sends must be exactly header and announced data for each
record (`framing_kept_iff`).
-/
import Evlog.Lib.Words
import Evlog.Evlogd.ReceiveTheorems
import Evlog.Evlogd.Remote

namespace Evlog.Evlogd.Socket

open Evlog.Lib Evlog.Posix

/-! ## The two ways in -/

/-- The header a host transmits: the first bytes of its stream or of its
datagram, in host byte order. -/
def transmitted (bytes : List UInt8) : PosixLogEntry :=
  ntohRechdr (NetRechdr.ofBytes (bytes.take netRecHdrSize))

theorem netRecHdrSize_small : (UInt64.ofNat netRecHdrSize).toNat = netRecHdrSize := by
  decide

/-- The header is read in full, or the connection is closed. -/
theorem fwdClientEvent_header (s : ByteStream) :
    ((evlReadEx s (UInt64.ofNat netRecHdrSize)).ret.toInt64.toUInt64
        = UInt64.ofNat netRecHdrSize ↔ (s.readLoop netRecHdrSize).2.1 = true)
      ∧ (evlReadEx s (UInt64.ofNat netRecHdrSize)).stored = (s.readLoop netRecHdrSize).1
      ∧ (evlReadEx s (UInt64.ofNat netRecHdrSize)).rest = (s.readLoop netRecHdrSize).2.2 := by
  rw [evlReadEx_small s (by rw [netRecHdrSize_small]; decide), netRecHdrSize_small]
  have hlen : (UInt64.ofNat netRecHdrSize).toUInt32.toInt32.toInt64.toUInt64
      = UInt64.ofNat netRecHdrSize := by decide
  have herr : (-1 : Int32).toInt64.toUInt64 ≠ UInt64.ofNat netRecHdrSize := by decide
  cases (s.readLoop netRecHdrSize).2.1 with
  | true => exact ⟨iff_of_true hlen rfl, rfl, rfl⟩
  | false => exact ⟨iff_of_false herr Bool.false_ne_true, rfl, rfl⟩

variable {nodeId id : Int32} {rhdr : PosixLogEntry}

/-- What `fwdClientEvent` forwards is the transmitted header with the node
id squeezed in. -/
theorem fwdClientEvent_forwarded {peer : Option EvlogdPeer} {s : ByteStream} {data : List UInt8}
    (h : (fwdClientEvent peer nodeId s).forwarded = some (rhdr, data)) :
    rhdr = squeezeNodeId (transmitted s.flatten) (nodeId &&& 0x0000FFFF) := by
  obtain ⟨hret, hstored, -⟩ := fwdClientEvent_header s
  simp only [fwdClientEvent] at h
  split at h
  · simp at h
  · rename_i hhdr
    have hwhole := hret.1 (not_not.1 hhdr)
    rw [hstored, ByteStream.readLoop_stored hwhole] at h
    split_ifs at h
    all_goals
      simp only [Option.some.injEq, Prod.mk.injEq] at h
      exact h.1.symm

/-- The buffer `recvfrom` leaves. -/
def udpBuff (datagram : List UInt8) : List UInt8 :=
  datagram.take maxBufreadLen
    ++ List.replicate (maxBufreadLen - (datagram.take maxBufreadLen).length) 0

variable {hostArray : List HostEntry}

/-- The same for a datagram; the id is the one the table has for the
sender's address. -/
theorem recvUDP_forwarded {peer : Option EvlogdPeer} {addr : UInt32} {datagram : List UInt8}
    {data : List UInt8} (hlook : hostLookUp hostArray addr = some nodeId)
    (h : (recvUDP peer hostArray addr datagram).forwarded = some (rhdr, data)) :
    rhdr = squeezeNodeId (transmitted (udpBuff datagram)) nodeId := by
  simp only [recvUDP, fwdUDPEvent, hlook] at h
  split_ifs at h
  simp only [Option.some.injEq, Prod.mk.injEq] at h
  exact h.1.symm

/-! ## The host id -/

/-- The forwarded record carries the sender's id above the transmitted
lower half, as the C expressions `log_processor >> 16` and
`log_processor & 0x0000ffff` take them out. -/
def HostIdKept (id : Int32) (sent got : PosixLogEntry) : Prop :=
  got.logProcessor >>> 16 = id
    ∧ got.logProcessor &&& 0x0000ffff = sent.logProcessor &&& 0x0000ffff

instance (id : Int32) (sent got : PosixLogEntry) : Decidable (HostIdKept id sent got) :=
  inferInstanceAs (Decidable (_ ∧ _))

def UpperHalfWithin (id : Int32) (sent : PosixLogEntry) : Prop :=
  sent.logProcessor.toUInt32 >>> 16 ||| id.toUInt32 = id.toUInt32

def ValidIds (hostArray : List HostEntry) : Prop :=
  ∀ h ∈ hostArray, 0 ≤ h.id.toInt ∧ h.id.toInt ≤ 65535

theorem hostLookUp_valid (hids : ValidIds hostArray) {addr : UInt32}
    (h : hostLookUp hostArray addr = some id) : 0 ≤ id.toInt ∧ id.toInt ≤ 65535 := by
  rw [hostLookUp, Option.map_eq_some_iff] at h
  obtain ⟨entry, hfind, rfl⟩ := h
  exact hids entry (List.mem_of_find?_eq_some hfind)

theorem toNat_of_valid (h : 0 ≤ id.toInt ∧ id.toInt ≤ 65535) :
    id.toBitVec.toNat = id.toInt.toNat ∧ id.toBitVec.toNat < 2 ^ 16 := by
  have hnat : id.toBitVec.toNat = id.toInt.toNat := by
    rw [Int32.toNat_toBitVec_of_le (by rw [Int32.le_iff_toInt_le]; simpa using h.1),
      Int32.toNat_toInt]
  exact ⟨hnat, by omega⟩

theorem getLsbD_of_valid (h : 0 ≤ id.toInt ∧ id.toInt ≤ 65535) {i : Nat} (hi : 16 ≤ i) :
    id.toBitVec.getLsbD i = false := by
  rw [BitVec.getLsbD]
  apply Nat.testBit_lt_two_pow
  exact lt_of_lt_of_le (toNat_of_valid h).2 (Nat.pow_le_pow_right (by omega) hi)

theorem getLsbD_fifteen (h : 0 ≤ id.toInt ∧ id.toInt ≤ 65535) :
    id.toBitVec.getLsbD 15 = false ↔ id.toInt < 32768 := by
  obtain ⟨hnat, hlt⟩ := toNat_of_valid h
  rw [BitVec.getLsbD, Nat.testBit_eq_decide_div_mod_eq, decide_eq_false_iff_not]
  omega

/-- The mask `fwdClientEvent` puts on the id changes nothing. -/
theorem and_mask_of_valid (h : 0 ≤ id.toInt ∧ id.toInt ≤ 65535) : id &&& 0x0000FFFF = id := by
  apply Int32.toBitVec_inj.1
  rw [Int32.toBitVec_and]
  refine BitVec.eq_of_getLsbD_eq fun i hi => ?_
  have hmask : (0x0000FFFF : Int32).toBitVec = (BitVec.allOnes 16).setWidth 32 := by decide
  rw [hmask, BitVec.getLsbD_and, BitVec.getLsbD_setWidth, BitVec.getLsbD_allOnes]
  rcases Nat.lt_or_ge i 16 with hlt | hge
  · simp [hi, hlt]
  · rw [getLsbD_of_valid h hge, Bool.false_and]

/-- Squeezing the id in: the lower half is kept, and the id comes back out
exactly when it is below 32768 and the sender's upper half lies within it. -/
theorem squeezeNodeId_kept_iff (h : 0 ≤ id.toInt ∧ id.toInt ≤ 65535) (sent : PosixLogEntry) :
    HostIdKept id sent (squeezeNodeId sent id)
      ↔ id.toInt < 32768 ∧ UpperHalfWithin id sent := by
  have hlow : (squeezeNodeId sent id).logProcessor &&& 0x0000ffff
      = sent.logProcessor &&& 0x0000ffff := by
    apply Int32.toBitVec_inj.1
    have hmask : (0x0000FFFF : Int32).toBitVec = (BitVec.allOnes 16).setWidth 32 := by decide
    have hkeep := and_or_shift (k := 16) sent.logProcessor.toBitVec id.toBitVec
    simpa [squeezeNodeId, hmask] using hkeep
  have hup : (squeezeNodeId sent id).logProcessor >>> 16 = id
      ↔ (sent.logProcessor.toBitVec ||| id.toBitVec <<< 16).sshiftRight 16 = id.toBitVec := by
    rw [← Int32.toBitVec_inj]
    simp [squeezeNodeId]
  have hwithin : UpperHalfWithin id sent
      ↔ sent.logProcessor.toBitVec >>> 16 ||| id.toBitVec = id.toBitVec := by
    rw [UpperHalfWithin, ← UInt32.toBitVec_inj]
    simp
  rw [HostIdKept, hup, hwithin, ← getLsbD_fifteen h]
  simp only [hlow, and_true]
  exact sshiftRight_or_shift_eq_iff (k := 16) (by decide) _ _ fun i hi => getLsbD_of_valid h hi

/-- On either way in, a forwarded record carries its sender's host id
exactly when the id is below 32768 and the sender set no bit of the upper
half that the id lacks. -/
theorem hostId_kept_iff (hostArray : List HostEntry) (hids : ValidIds hostArray) (addr : UInt32)
    (id : Int32) (hlook : hostLookUp hostArray addr = some id) (peer : Option EvlogdPeer) :
    (∀ s got data, (fwdClientEvent peer id s).forwarded = some (got, data) →
      (HostIdKept id (transmitted s.flatten) got
        ↔ id.toInt < 32768 ∧ UpperHalfWithin id (transmitted s.flatten)))
    ∧ (∀ datagram got data, (recvUDP peer hostArray addr datagram).forwarded = some (got, data) →
      (HostIdKept id (transmitted (udpBuff datagram)) got
        ↔ id.toInt < 32768 ∧ UpperHalfWithin id (transmitted (udpBuff datagram)))) := by
  have hvalid := hostLookUp_valid hids hlook
  constructor
  · intro s got data h
    rw [fwdClientEvent_forwarded h, and_mask_of_valid hvalid]
    exact squeezeNodeId_kept_iff hvalid _
  · intro datagram got data h
    rw [recvUDP_forwarded hlook h]
    exact squeezeNodeId_kept_iff hvalid _

/-- A header with no data from a host that fills the upper half itself. -/
def forgedHeader : List UInt8 :=
  List.replicate 44 0 ++ [0x00, 0x02, 0x00, 0x00] ++ List.replicate 32 0

/-- Host 5 sends that header and its record is attributed to host 7. -/
theorem hostId_forged : ValidIds [⟨1, 5⟩, ⟨2, 7⟩] ∧ hostLookUp [⟨1, 5⟩, ⟨2, 7⟩] 1 = some 5
      ∧ ∃ got, (fwdClientEvent none 5 [forgedHeader]).forwarded = some (got, [])
        ∧ ¬ HostIdKept 5 (transmitted forgedHeader) got ∧ got.logProcessor >>> 16 = 7 := by
  refine ⟨by simp [ValidIds], by decide, ⟨_, rfl, ?_, ?_⟩⟩
  · decide
  · decide

/-- A table, a host and a header for which the id is kept. -/
theorem hostId_kept_example : ValidIds [⟨1, 5⟩] ∧ hostLookUp [⟨1, 5⟩] 1 = some 5
      ∧ ∃ got, (fwdClientEvent none 5 [List.replicate 80 0]).forwarded = some (got, [])
        ∧ (HostIdKept 5 (transmitted (List.replicate 80 0)) got ↔ (5 : Int32).toInt < 32768
          ∧ UpperHalfWithin 5 (transmitted (List.replicate 80 0))) := by
  have hids : ValidIds [⟨1, 5⟩] := by simp [ValidIds]
  have hlook : hostLookUp [⟨1, 5⟩] 1 = some 5 := by decide
  refine ⟨hids, hlook, _, rfl, ?_⟩
  exact (hostId_kept_iff _ hids 1 5 hlook none).1 [List.replicate 80 0] _ [] rfl

/-! ## The buffers of both daemons -/

@[simp] theorem squeezeNodeId_logSize (rhdr : PosixLogEntry) (nodeId : Int32) :
    (squeezeNodeId rhdr nodeId).logSize = rhdr.logSize := rfl

theorem writeToEvlogd_stores_inside (peer : Option EvlogdPeer)
    (h : rhdr.logSize.toNat ≤ posixLogEntryMaxlen) (varbuf : List UInt8) :
    ∀ st ∈ (writeToEvlogd peer rhdr varbuf).stores, st.Inside := by
  have hbuf : ∀ st ∈ writebufStores rhdr, st.Inside := by
    intro st hst
    rw [writebufStores] at hst
    split at hst
    · simp only [List.mem_cons, List.not_mem_nil, or_false] at hst
      rcases hst with rfl | rfl
      · exact Or.inr (by simpa [RecBuffer.size] using h)
      · decide
    · simp at hst
  intro st hst
  cases peer with
  | none => simp [writeToEvlogd] at hst
  | some peer =>
    refine hbuf st ?_
    simp only [writeToEvlogd] at hst
    split_ifs at hst
    all_goals first
      | exact hst
      | simp at hst

def ForwardTrace.Safe (t : ForwardTrace) : Prop := RecordSafe t.stores t.bodySizes t.forwarded

/-- The header at the front of the stream, once it has arrived, announces
no more data than fits. -/
def NetHeaderFits (s : ByteStream) : Prop :=
  (s.readLoop netRecHdrSize).2.1 = true →
    (transmitted s.flatten).logSize.toNat ≤ posixLogEntryMaxlen

/-- evlogrmtd's call stays inside its buffers exactly on the headers that
fit. -/
theorem fwdClientEvent_safe_iff (peer : Option EvlogdPeer) (nodeId : Int32) (s : ByteStream) :
    (fwdClientEvent peer nodeId s).Safe ↔ NetHeaderFits s := by
  obtain ⟨hret, hstored, -⟩ := fwdClientEvent_header s
  by_cases hwhole : (s.readLoop netRecHdrSize).2.1 = true
  · simp only [NetHeaderFits, hwhole, forall_true_left]
    simp only [fwdClientEvent, hret.2 hwhole, ne_eq, not_true_eq_false, if_false, hstored,
      ByteStream.readLoop_stored hwhole]
    rw [show ntohRechdr (NetRechdr.ofBytes (List.take netRecHdrSize s.flatten))
      = transmitted s.flatten from rfl]
    generalize transmitted s.flatten = rhdr
    generalize (evlReadEx s (UInt64.ofNat netRecHdrSize)).rest = s'
    have hhdr : Store.Inside ⟨.rmtbuf, 0, recHdrSize⟩ := by decide
    by_cases hle : rhdr.logSize.toNat ≤ posixLogEntryMaxlen
    · simp only [hle, iff_true]
      have hsmall : rhdr.logSize.toNat < 2 ^ 31 := by
        simp only [posixLogEntryMaxlen] at hle
        omega
      have hbody : Store.Inside ⟨.rmtbuf, recHdrSize,
          (evlReadEx s' rhdr.logSize).stored.length⟩ := by
        have hlen := evlReadEx_length_le (s := s') hsmall
        simp only [Store.Inside, RecBuffer.size]
        omega
      have hle' : (squeezeNodeId rhdr (nodeId &&& 0x0000FFFF)).logSize.toNat
          ≤ posixLogEntryMaxlen := hle
      have hw := fun varbuf => writeToEvlogd_stores_inside peer hle' varbuf
      by_cases hpos : 0 < rhdr.logSize
      · rw [if_pos hpos]
        split
        · exact RecordSafe.unused (by simp [hhdr, hbody]) (by simpa using hle)
        · rename_i hall
          refine ⟨?_, by simpa using hle, ?_⟩
          · simpa [hhdr, hbody] using hw _
          · rintro r ⟨⟩
            -- the value returned is the length itself, so the loop got through
            rw [evlReadEx_small s' hsmall] at hall ⊢
            split
            · rename_i hloop
              simpa using ByteStream.readLoop_length hloop
            · rename_i hloop
              rw [if_neg hloop, not_not] at hall
              exact absurd (congrArg UInt64.toNat hall) (by
                rw [show ((-1 : Int32).toInt64.toUInt64).toNat = 2 ^ 64 - 1 by decide]
                omega)
      · rw [if_neg hpos]
        refine ⟨by simpa [hhdr] using hw [], by simp, ?_⟩
        rintro r ⟨⟩
        have hzero : rhdr.logSize.toNat = 0 := by
          rw [UInt64.lt_iff_toNat_lt] at hpos
          simpa using hpos
        simpa using hzero.symm
    · simp only [hle, iff_false]
      intro hsafe
      have hpos : 0 < rhdr.logSize := by
        rw [UInt64.lt_iff_toNat_lt, UInt64.toNat_zero]
        omega
      refine hle (hsafe.sizes_le _ ?_)
      rw [if_pos hpos]
      split
      · simp
      · simp
  · refine iff_of_true ?_ fun h => absurd h hwhole
    simp only [fwdClientEvent, if_pos (mt hret.1 hwhole)]
    exact RecordSafe.unused (by simp) (by simp)

/-- Every header of the connection to evlogrmtd fits, as far as it is read. -/
def RemoteFits (nodeId : Int32) : List (Option EvlogdPeer) → ByteStream → Prop
  | [], _ => True
  | peer :: peers, s =>
    NetHeaderFits s ∧ ((fwdClientEvent peer nodeId s).closed = false →
      RemoteFits nodeId peers (fwdClientEvent peer nodeId s).rest)

theorem serveRemote_safe_iff (nodeId : Int32) (peers : List (Option EvlogdPeer)) (s : ByteStream) :
    (∀ t ∈ serveRemote nodeId peers s, t.Safe) ↔ RemoteFits nodeId peers s := by
  induction peers generalizing s with
  | nil => simp [serveRemote, RemoteFits]
  | cons peer peers ih =>
    simp only [serveRemote, RemoteFits, List.forall_mem_cons, fwdClientEvent_safe_iff]
    cases hclosed : (fwdClientEvent peer nodeId s).closed with
    | true => simp
    | false => simp [ih]

/-- Whatever a client sends and however it arrives, both daemons stay
inside their record buffers, and use complete records only, exactly when
every header they accept on the connection announces at most
`POSIX_LOG_ENTRY_MAXLEN` bytes (and, for evlogd, no facility request comes
without data). -/
theorem buffers_safe_iff (d : Daemon) (ci : ClientInfo) (cs : List EventCall) (s : ByteStream)
    (nodeId : Int32) (peers : List (Option EvlogdPeer)) (net : ByteStream) :
    ((∀ t ∈ serveClient d ci cs s, t.Safe) ↔ ConnectionFits d ci cs s) ∧
      ((∀ t ∈ serveRemote nodeId peers net, t.Safe) ↔ RemoteFits nodeId peers net) :=
  ⟨serveClient_safe_iff d ci cs s, serveRemote_safe_iff nodeId peers net⟩

/-- A header of an ordinary user's program that announces one byte more
than `POSIX_LOG_ENTRY_MAXLEN`. -/
def overlongEntry : PosixLogEntry :=
  { logMagic := 0, logRecid := 0, logSize := 8193, logFormat := posixLogBinary
    logEventType := 1, logFacility := 8, logSeverity := Evlogd.logInfo, logUid := 1000
    logGid := 1000, logPid := 100, logPgrp := 100, logTimeSec := 0, logTimeNsec := 0
    logFlags := 0, logThread := 0, logProcessor := 0 }

def plainDaemon : Daemon :=
  { kpid := 2, rmtdpid := 3, defaultPosixLog := true, disQuery := none
    facilityAccessQuery := fun _ => (none, 0) }

/-- The data of that record is stored one byte past the end of the slot. -/
theorem buffers_overrun :
    ∃ t ∈ serveClient plainDaemon ⟨100, 1000⟩ [⟨overlongEntry, false, fun _ _ => false⟩]
        [overlongEntry.toBytes, List.replicate 8193 0],
      ⟨.slot, recHdrSize, 8193⟩ ∈ t.stores ∧ ¬ Store.Inside ⟨.slot, recHdrSize, 8193⟩
        ∧ ¬ t.Safe := by
  have hout : ¬ Store.Inside ⟨.slot, recHdrSize, 8193⟩ := by decide
  have hlen : (List.replicate 8193 (0 : UInt8)).length = 8193 := List.length_replicate
  generalize List.replicate 8193 (0 : UInt8) = body at hlen
  have hne : body ≠ [] := List.ne_nil_of_length_pos (by omega)
  refine ⟨_, List.mem_cons_self, ?_⟩
  suffices hmem : _ from ⟨hmem, hout, fun hsafe => hout (hsafe.stores_inside _ hmem)⟩
  have hhdr := populateRecHdr_native (e := overlongEntry) (by decide) overlongEntry [] [body]
  have hs : ByteStream.ahead (overlongEntry.toBytes ++ []) [body]
      = [overlongEntry.toBytes, body] := rfl
  have hcred : credentialsOk plainDaemon ⟨100, 1000⟩ overlongEntry = true := by decide
  have hread : evlReadEx [body] 8193 = ⟨body, (8193 : UInt64).toUInt32.toInt32, []⟩ := by
    have hloop := ByteStream.readLoop_flatten [body] (by simpa using hne) []
    simp only [List.append_nil, List.flatten_cons, List.flatten_nil, hlen] at hloop
    rw [evlReadEx_small _ (by decide), show (8193 : UInt64).toNat = 8193 from rfl, hloop]
    rfl
  rw [hs] at hhdr
  simp only [processEvent, hhdr.1, hhdr.2, hcred, if_true, setArch_logSize,
    show overlongEntry.logSize = 8193 from rfl, ByteStream.ahead]
  rw [if_neg (by decide), hread,
    if_neg (show ¬ (8193 : UInt64).toUInt32.toInt32 < 0 by decide), finishEvent]
  split_ifs <;> simp [hlen]

end Evlog.Evlogd.Socket
