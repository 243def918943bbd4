/-
Evlog.Evlogd.DatagramTheorems — which datagrams are records?

`fwdUDPEvent` adds the size of the header to the `log_size` that it finds in
the datagram and forwards the record if the sum is the number of bytes that
came. The sum is one of 64 bits. A datagram shorter than a header whose
`log_size` is as much below 2^64 as it is too short passes as well, and bytes
behind its end are taken for its data (`Wraps`).
-/
import Evlog.Evlogd.NetHeader
import Evlog.Evlogd.RemoteTheorems

namespace Evlog.Evlogd.Socket

open Evlog.Lib Evlog.Posix

/-! ## What is meant -/

/-- `log_size` in the buffer that holds the datagram, most significant byte
first. -/
def announced (datagram : List UInt8) : Nat :=
  ByteOrder.big.nat (((udpBuff datagram).drop 48).take 8)

def Complete (datagram : List UInt8) : Prop :=
  netRecHdrSize ≤ datagram.length ∧ announced datagram = datagram.length - netRecHdrSize

/-- A record is forwarded if and only if all of it has come, and with no
other bytes than those of the datagram. -/
structure ForwardedWhenComplete (peer : Option EvlogdPeer) (hostArray : List HostEntry)
    (addr : UInt32) (datagram : List UInt8) : Prop where
  complete : (∃ rhdr data, (recvUDP peer hostArray addr datagram).forwarded = some (rhdr, data)) ↔
    Complete datagram
  inside : ∀ rhdr data, (recvUDP peer hostArray addr datagram).forwarded = some (rhdr, data) →
    netRecHdrSize + rhdr.logSize.toNat ≤ datagram.length ∧
      data = (datagram.drop netRecHdrSize).take rhdr.logSize.toNat

/-! ## The condition -/

/-- `log_size` is as far below 2^64 as the datagram is too short for a
header. -/
def Wraps (datagram : List UInt8) : Prop :=
  datagram.length < netRecHdrSize ∧ announced datagram + (netRecHdrSize - datagram.length) = 2 ^ 64

instance (datagram : List UInt8) : Decidable (Wraps datagram) := inferInstanceAs (Decidable (_ ∧ _))

/-! ## The header -/

theorem udpBuff_length (datagram : List UInt8) : (udpBuff datagram).length = maxBufreadLen := by
  simp only [udpBuff, List.length_append, List.length_take, List.length_replicate]
  omega

theorem maxBufreadLen_eq : maxBufreadLen = 8280 := by decide

theorem toNat_transmitted_logSize (datagram : List UInt8) :
    (transmitted (udpBuff datagram)).logSize.toNat = announced datagram := by
  have hlen := udpBuff_length datagram
  rw [maxBufreadLen_eq] at hlen
  unfold announced
  generalize udpBuff datagram = buff at hlen ⊢
  have hfield : (transmitted buff).logSize
      = ntohlonglong (.ofNat (leNat (((buff.take netRecHdrSize).drop 48).take 8))) := by
    simp only [transmitted, ntohRechdr, NetRechdr.ofBytes, takeLE, List.drop_drop]
  have htake : ((buff.take netRecHdrSize).drop 48).take 8 = (buff.drop 48).take 8 := by
    rw [List.drop_take, List.take_take]
    rfl
  rw [hfield, htake]
  exact Net.toNat_ntohlonglong_leNat (by simp [hlen])

theorem announced_lt (datagram : List UInt8) : announced datagram < 2 ^ 64 := by
  rw [← toNat_transmitted_logSize]
  exact (transmitted (udpBuff datagram)).logSize.toNat_lt

/-! ## What is forwarded -/

/-- The number of bytes is compared with a sum modulo 2^64. -/
theorem recvUDP_forwarded_iff (peer : Option EvlogdPeer) {hostArray : List HostEntry} {addr : UInt32}
    {nodeId : Int32} {datagram : List UInt8} (hlook : hostLookUp hostArray addr = some nodeId)
    (hlen : datagram.length ≤ maxBufreadLen) {rhdr : PosixLogEntry} {data : List UInt8} :
    (recvUDP peer hostArray addr datagram).forwarded = some (rhdr, data) ↔
      (announced datagram + netRecHdrSize) % 2 ^ 64 = datagram.length ∧
        rhdr = squeezeNodeId (transmitted (udpBuff datagram)) nodeId ∧
        data = ((udpBuff datagram).drop netRecHdrSize).take (announced datagram) := by
  have hsum : ((transmitted (udpBuff datagram)).logSize + UInt64.ofNat netRecHdrSize
        = (UInt32.ofNat (datagram.take maxBufreadLen).length).toUInt64) ↔
      (announced datagram + netRecHdrSize) % 2 ^ 64 = datagram.length := by
    rw [← UInt64.toNat_inj, UInt64.toNat_add, toNat_transmitted_logSize, netRecHdrSize_small,
      List.take_of_length_le hlen, UInt32.toNat_toUInt64, UInt32.toNat_ofNat_of_lt']
    rw [maxBufreadLen_eq] at hlen
    exact lt_of_le_of_lt hlen (by decide)
  have hsize : (squeezeNodeId (transmitted (udpBuff datagram)) nodeId).logSize.toNat
      = announced datagram := toNat_transmitted_logSize datagram
  have htrace : (recvUDP peer hostArray addr datagram).forwarded =
      if (transmitted (udpBuff datagram)).logSize + UInt64.ofNat netRecHdrSize
          ≠ (UInt32.ofNat (datagram.take maxBufreadLen).length).toUInt64 then none
      else some (squeezeNodeId (transmitted (udpBuff datagram)) nodeId,
        ((udpBuff datagram).drop netRecHdrSize).take
          (squeezeNodeId (transmitted (udpBuff datagram)) nodeId).logSize.toNat) := by
    simp only [recvUDP, fwdUDPEvent, hlook]
    split <;> rename_i h <;> simp only [transmitted, udpBuff, h, ne_eq,
      not_false_eq_true, if_true, if_false]
  rw [htrace, hsize]
  by_cases h : (announced datagram + netRecHdrSize) % 2 ^ 64 = datagram.length
  · rw [if_neg (not_not.2 (hsum.2 h))]
    simp only [Option.some.injEq, Prod.mk.injEq, h, true_and]
    exact and_congr eq_comm eq_comm
  · rw [if_pos (mt hsum.1 h)]
    exact iff_of_false (by simp) fun hall => h hall.1

/-- The sum is right for whole records and where it wraps around. -/
theorem sum_iff {datagram : List UInt8} (hlen : datagram.length ≤ maxBufreadLen) :
    (announced datagram + netRecHdrSize) % 2 ^ 64 = datagram.length ↔
      Complete datagram ∨ Wraps datagram := by
  have hlt := announced_lt datagram
  rw [maxBufreadLen_eq] at hlen
  unfold Complete Wraps netRecHdrSize
  omega

/-- A datagram from a host in the table is forwarded as it should be if and
only if its size does not wrap around. -/
theorem datagram_forwarded_iff (peer : Option EvlogdPeer) (hostArray : List HostEntry)
    (addr : UInt32) (nodeId : Int32) (hlook : hostLookUp hostArray addr = some nodeId)
    (datagram : List UInt8) (hlen : datagram.length ≤ maxBufreadLen) :
    ForwardedWhenComplete peer hostArray addr datagram ↔ ¬Wraps datagram := by
  constructor
  · intro h hwraps
    have hforwarded := (recvUDP_forwarded_iff peer hlook hlen).2
      ⟨(sum_iff hlen).2 (.inr hwraps), rfl, rfl⟩
    exact absurd (h.complete.1 ⟨_, _, hforwarded⟩).1 (Nat.not_le.2 hwraps.1)
  · intro hwraps
    have hsum : (announced datagram + netRecHdrSize) % 2 ^ 64 = datagram.length ↔
        Complete datagram := by
      rw [sum_iff hlen]
      exact or_iff_left hwraps
    refine ⟨?_, ?_⟩
    · constructor
      · rintro ⟨rhdr, data, h⟩
        exact hsum.1 ((recvUDP_forwarded_iff peer hlook hlen).1 h).1
      · intro h
        exact ⟨_, _, (recvUDP_forwarded_iff peer hlook hlen).2 ⟨hsum.2 h, rfl, rfl⟩⟩
    · intro rhdr data h
      obtain ⟨heq, rfl, rfl⟩ := (recvUDP_forwarded_iff peer hlook hlen).1 h
      obtain ⟨hle, hsize⟩ := hsum.1 heq
      rw [squeezeNodeId_logSize, toNat_transmitted_logSize]
      refine ⟨by omega, ?_⟩
      -- As many bytes as the datagram has behind the header.
      rw [udpBuff, List.take_of_length_le hlen, List.drop_append_of_le_length hle,
        List.take_append_of_le_length (by simp [hsize])]

def shortDatagram : List UInt8 := List.replicate 48 0 ++ List.replicate 7 0xff ++ [0xe8]

/-- They are forwarded as a record. -/
theorem shortDatagram_forwarded : shortDatagram.length = 56 ∧
      (∃ rhdr data, (recvUDP (some connected) [⟨1, 5⟩] 1 shortDatagram).forwarded = some (rhdr, data)) ∧
      ¬ForwardedWhenComplete (some connected) [⟨1, 5⟩] 1 shortDatagram := by
  have hlen : shortDatagram.length ≤ maxBufreadLen := by decide
  have hlook : hostLookUp [⟨1, 5⟩] 1 = some 5 := by decide
  have hforwarded := (recvUDP_forwarded_iff (some connected) hlook hlen).2
    ⟨(sum_iff hlen).2 (.inr (by decide)), rfl, rfl⟩
  refine ⟨by decide, ⟨_, _, hforwarded⟩, ?_⟩
  intro h
  exact absurd (h.complete.1 ⟨_, _, hforwarded⟩).1 (by decide)

/-- A header alone is a whole record. -/
theorem datagram_forwarded_iff_header :
    hostLookUp [⟨1, 5⟩] 1 = some 5 ∧ (List.replicate 80 (0 : UInt8)).length ≤ maxBufreadLen ∧
      ForwardedWhenComplete (some connected) [⟨1, 5⟩] 1 (List.replicate 80 0) := by
  have hlook : hostLookUp [⟨1, 5⟩] 1 = some 5 := by decide
  have hlen : (List.replicate 80 (0 : UInt8)).length ≤ maxBufreadLen := by decide
  exact ⟨hlook, hlen, (datagram_forwarded_iff _ _ _ _ hlook _ hlen).2 (by decide)⟩

end Evlog.Evlogd.Socket
