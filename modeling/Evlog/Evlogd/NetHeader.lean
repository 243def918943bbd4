/-
Evlog.Evlogd.NetHeader — `struct net_rechdr` between two machines.

`hton_rechdr` puts a record's header into a `struct net_rechdr` and
`ntoh_rechdr` takes it out (rmt_common.c). The struct is sent as it lies in
memory; each function asks for its own machine's byte order with
`htonl(1) == 1`. `long` has 64 bits.

Evlog.Evlogd.Remote has the receiving half for one byte order, as evlogrmtd
itself uses it. The 64-bit functions are written there in words without a
sign; here they are on `long long`, as in the source.

`htonl` and `htonlonglong` leave in memory the bytes of their argument most
significant byte first, whatever the order of the machine (`bytes_htonl`,
`bytes_htonlonglong`); and the same functions applied to what a machine reads
from such bytes give the number (`ntohl_wire`, `ntohlonglong_wire`). The
swaps are taken apart bit by bit for `ntohl`, and into halves for the 64-bit
functions.

evlogrmtd's own reading of a header is the receiving half on a machine that
is little-endian.
-/
import Evlog.Lib.ByteCodec
import Evlog.Evlogd.Remote
import Evlog.Lib.IntBytes

namespace Evlog.Evlogd.Net

open Evlog.Lib Evlog.Posix Evlog.Evlogd.Socket

/-! ## Integers -/

/-- `htonl` of the C library. -/
def htonl : ByteOrder → UInt32 → UInt32
  | .little, x => Socket.ntohl x
  | .big, x => x

/-- `ntohl` is the same function. -/
def ntohl (order : ByteOrder) (x : UInt32) : UInt32 := htonl order x

/-- A `long long` cut off to an `unsigned int`. -/
def toUnsignedInt (value : Int64) : UInt32 := value.toUInt64.toUInt32

/-- An `unsigned int` assigned to a `long long`. -/
def ofUnsignedInt (x : UInt32) : Int64 := x.toUInt64.toInt64

def htonlonglong (order : ByteOrder) (value : Int64) : Int64 :=
  if htonl order 1 = 1 then value
  else
    let lo := toUnsignedInt (value &&& 0xFFFFFFFF)
    let value := value >>> 32
    let hi := toUnsignedInt (value &&& 0xFFFFFFFF)
    let retvalue := ofUnsignedInt (htonl order lo)
    let retvalue := retvalue <<< 32
    retvalue ||| ofUnsignedInt (htonl order hi)

def ntohlonglong (order : ByteOrder) (value : Int64) : Int64 :=
  if htonl order 1 = 1 then value
  else
    let hi := toUnsignedInt (value &&& 0xFFFFFFFF)
    let value := value >>> 32
    let lo := toUnsignedInt (value &&& 0xFFFFFFFF)
    let retvalue := ofUnsignedInt (ntohl order hi)
    let retvalue := retvalue <<< 32
    retvalue ||| ofUnsignedInt (ntohl order lo)

/-! ## Headers -/

def htonRechdr (order : ByteOrder) (src : PosixLogEntry) : NetRechdr where
  logMagic := htonl order src.logMagic
  logRecid := htonl order src.logRecid.toUInt32
  logFormat := htonl order src.logFormat.toUInt32
  logEventType := htonl order src.logEventType.toUInt32
  logFacility := htonl order src.logFacility
  logSeverity := htonl order src.logSeverity.toUInt32
  logUid := htonl order src.logUid
  logGid := htonl order src.logGid
  logPid := htonl order src.logPid.toUInt32
  logPgrp := htonl order src.logPgrp.toUInt32
  logFlags := htonl order src.logFlags
  logProcessor := htonl order src.logProcessor.toUInt32
  logSize := (htonlonglong order src.logSize.toInt64).toUInt64
  logTimeTvSec := (htonlonglong order src.logTimeSec).toUInt64
  logTimeTvNsec := (htonlonglong order src.logTimeNsec).toUInt64
  logThread := (htonlonglong order src.logThread.toInt64).toUInt64

/-- `ntoh_rechdr`. `sizeof(long) == 64` is true nowhere, and the casts to
`long` of the other branch change nothing. -/
def ntohRechdr (order : ByteOrder) (src : NetRechdr) : PosixLogEntry where
  logMagic := ntohl order src.logMagic
  logRecid := (ntohl order src.logRecid).toInt32
  logSize := (ntohlonglong order src.logSize.toInt64).toUInt64
  logFormat := (ntohl order src.logFormat).toInt32
  logEventType := (ntohl order src.logEventType).toInt32
  logFacility := ntohl order src.logFacility
  logSeverity := (ntohl order src.logSeverity).toInt32
  logUid := ntohl order src.logUid
  logGid := ntohl order src.logGid
  logPid := (ntohl order src.logPid).toInt32
  logPgrp := (ntohl order src.logPgrp).toInt32
  logTimeSec := ntohlonglong order src.logTimeTvSec.toInt64
  logTimeNsec := ntohlonglong order src.logTimeTvNsec.toInt64
  logFlags := ntohl order src.logFlags
  logThread := (ntohlonglong order src.logThread.toInt64).toUInt64
  logProcessor := (ntohl order src.logProcessor).toInt32

/-! ## In memory -/

/-- The members of a `struct net_rechdr`, in the order in which they lie in
memory, each with its size. -/
def members (h : NetRechdr) : List (Nat × Nat) :=
  [(4, h.logMagic.toNat), (4, h.logRecid.toNat), (4, h.logFormat.toNat), (4, h.logEventType.toNat),
    (4, h.logFacility.toNat), (4, h.logSeverity.toNat), (4, h.logUid.toNat), (4, h.logGid.toNat),
    (4, h.logPid.toNat), (4, h.logPgrp.toNat), (4, h.logFlags.toNat), (4, h.logProcessor.toNat),
    (8, h.logSize.toNat), (8, h.logTimeTvSec.toNat), (8, h.logTimeTvNsec.toNat),
    (8, h.logThread.toNat)]

def toBytes (order : ByteOrder) (h : NetRechdr) : List UInt8 :=
  (members h).flatMap fun m => order.bytes m.1 m.2

def ofBytes (order : ByteOrder) (bs : List UInt8) : NetRechdr :=
  let (magic, bs) := order.take 4 bs
  let (recid, bs) := order.take 4 bs
  let (format, bs) := order.take 4 bs
  let (eventType, bs) := order.take 4 bs
  let (facility, bs) := order.take 4 bs
  let (severity, bs) := order.take 4 bs
  let (uid, bs) := order.take 4 bs
  let (gid, bs) := order.take 4 bs
  let (pid, bs) := order.take 4 bs
  let (pgrp, bs) := order.take 4 bs
  let (flags, bs) := order.take 4 bs
  let (processor, bs) := order.take 4 bs
  let (size, bs) := order.take 8 bs
  let (sec, bs) := order.take 8 bs
  let (nsec, bs) := order.take 8 bs
  let (thread, _) := order.take 8 bs
  { logMagic := .ofNat magic, logRecid := .ofNat recid, logFormat := .ofNat format
    logEventType := .ofNat eventType, logFacility := .ofNat facility
    logSeverity := .ofNat severity, logUid := .ofNat uid, logGid := .ofNat gid
    logPid := .ofNat pid, logPgrp := .ofNat pgrp, logFlags := .ofNat flags
    logProcessor := .ofNat processor, logSize := .ofNat size, logTimeTvSec := .ofNat sec
    logTimeTvNsec := .ofNat nsec, logThread := .ofNat thread }

/-! ## What is meant -/

/-- The fields of a record's header, in the order of `struct net_rechdr`,
each with its size and as a number without a sign. -/
def fields (e : PosixLogEntry) : List (Nat × Nat) :=
  [(4, e.logMagic.toNat), (4, e.logRecid.toUInt32.toNat), (4, e.logFormat.toUInt32.toNat),
    (4, e.logEventType.toUInt32.toNat), (4, e.logFacility.toNat), (4, e.logSeverity.toUInt32.toNat),
    (4, e.logUid.toNat), (4, e.logGid.toNat), (4, e.logPid.toUInt32.toNat),
    (4, e.logPgrp.toUInt32.toNat), (4, e.logFlags.toNat), (4, e.logProcessor.toUInt32.toNat),
    (8, e.logSize.toNat), (8, e.logTimeSec.toUInt64.toNat), (8, e.logTimeNsec.toUInt64.toNat),
    (8, e.logThread.toNat)]

/-- The header as it is to travel: every field most significant byte first. -/
def onTheWire (e : PosixLogEntry) : List UInt8 :=
  (fields e).flatMap fun f => beBytes f.1 f.2

/-! ## `ntohl` bit by bit -/

theorem getLsbD_byte (n i : Nat) {j : Nat} (hj : j < 8) :
    (UInt8.ofNat (n / 2 ^ i)).toBitVec.getLsbD j = n.testBit (i + j) := by
  rw [UInt8.toBitVec_ofNat', BitVec.getLsbD_ofNat, Nat.testBit_div_two_pow]
  simp [hj, Nat.add_comm]

theorem getLsbD_mask (i : Nat) : (0xff00#32).getLsbD i = (decide (8 ≤ i) && decide (i < 16)) := by
  rw [show (0xff00#32) = (BitVec.allOnes 8).setWidth 32 <<< 8 by decide]
  simp only [BitVec.getLsbD_shiftLeft, BitVec.getLsbD_setWidth, BitVec.getLsbD_allOnes]
  grind

theorem ntohl_toBitVec (x : UInt32) : (Socket.ntohl x).toBitVec =
      x.toBitVec <<< 24 ||| (x.toBitVec &&& 0xff00#32) <<< 8 ||| x.toBitVec >>> 8 &&& 0xff00#32 |||
        x.toBitVec >>> 24 := by
  rfl

theorem getLsbD_ntohl (x : UInt32) (i : Nat) : (Socket.ntohl x).toBitVec.getLsbD i =
      if i < 8 then x.toBitVec.getLsbD (i + 24)
      else if i < 16 then x.toBitVec.getLsbD (i + 8)
      else if i < 24 then x.toBitVec.getLsbD (i - 8)
      else if i < 32 then x.toBitVec.getLsbD (i - 24)
      else false := by
  rw [ntohl_toBitVec]
  simp only [BitVec.getLsbD_or, BitVec.getLsbD_and, BitVec.getLsbD_shiftLeft, BitVec.getLsbD_ushiftRight, getLsbD_mask]
  have hout : ∀ k, 32 ≤ k → x.toBitVec.getLsbD k = false := fun k hk => BitVec.getLsbD_of_ge _ _ hk
  grind

theorem leBytes_four (n : Nat) :
    leBytes 4 n = [.ofNat (n / 2 ^ 0), .ofNat (n / 2 ^ 8), .ofNat (n / 2 ^ 16), .ofNat (n / 2 ^ 24)] := by
  simp [leBytes, Nat.div_div_eq_div_mul]

/-- Byte `i` of the one is byte `3 - i` of the other. -/
theorem byte_ntohl (x : UInt32) {i k : Nat} (hi : i ∈ [0, 8, 16, 24]) (hk : k = 24 - i) :
    UInt8.ofNat ((Socket.ntohl x).toNat / 2 ^ i) = UInt8.ofNat (x.toNat / 2 ^ k) := by
  refine UInt8.toBitVec_inj.1 (BitVec.eq_of_getLsbD_eq fun j hj => ?_)
  have hswap := getLsbD_ntohl x (i + j)
  rw [getLsbD_byte _ _ hj, getLsbD_byte _ _ hj]
  simp only [BitVec.getLsbD, UInt32.toNat_toBitVec] at hswap
  rw [hswap]
  simp only [List.mem_cons, List.not_mem_nil, or_false] at hi
  rcases hi with rfl | rfl | rfl | rfl <;> subst hk <;> grind

theorem leBytes_ntohl (x : UInt32) : leBytes 4 (Socket.ntohl x).toNat = beBytes 4 x.toNat := by
  rw [beBytes, leBytes_four, leBytes_four, byte_ntohl x (k := 24) (by decide) rfl,
    byte_ntohl x (k := 16) (by decide) rfl, byte_ntohl x (k := 8) (by decide) rfl,
    byte_ntohl x (k := 0) (by decide) rfl]
  rfl

/-- `htonl` leaves the number in memory most significant byte first. -/
theorem bytes_htonl (order : ByteOrder) (x : UInt32) :
    order.bytes 4 (htonl order x).toNat = beBytes 4 x.toNat := by
  cases order with
  | little => exact leBytes_ntohl x
  | big => rfl

/-- The number that `htonl` returns is what the machine reads from the bytes
of its argument in network order. -/
theorem toNat_htonl (order : ByteOrder) (x : UInt32) :
    (htonl order x).toNat = order.nat (beBytes 4 x.toNat) := by
  rw [← bytes_htonl order x, ByteOrder.nat_bytes, Nat.mod_eq_of_lt (by simpa using (htonl order x).toNat_lt)]

/-- `ntohl` of what the receiver reads. -/
theorem ntohl_wire (order : ByteOrder) (x : UInt32) :
    ntohl order (.ofNat (order.nat (beBytes 4 x.toNat))) = x := by
  refine UInt32.toNat_inj.1 ?_
  have hlt := order.nat_lt (beBytes 4 x.toNat)
  rw [beBytes_length] at hlt
  rw [ntohl, toNat_htonl, UInt32.toNat_ofNat_of_lt' hlt, ByteOrder.nat_beBytes_nat,
    Nat.mod_eq_of_lt (by simpa using x.toNat_lt)]

/-! ## The halves of a `long long` -/

theorem toNat_toUnsignedInt (v : Int64) : (toUnsignedInt (v &&& 0xFFFFFFFF)).toNat = v.toUInt64.toNat % 2 ^ 32 := by
  have h : (v &&& 0xFFFFFFFF).toUInt64 = v.toUInt64 &&& 0xFFFFFFFF := rfl
  rw [toUnsignedInt, UInt64.toNat_toUInt32, h, UInt64.toNat_and]
  have h2 : (0xFFFFFFFF : UInt64).toNat = 2 ^ 32 - 1 := by decide
  rw [h2, Nat.and_two_pow_sub_one_eq_mod, Nat.mod_mod]

theorem toNat_shiftRight (v : Int64) : (v >>> 32).toUInt64.toNat % 2 ^ 32 = v.toUInt64.toNat / 2 ^ 32 := by
  have h : (v >>> 32).toUInt64.toBitVec = v.toUInt64.toBitVec.sshiftRight 32 := rfl
  refine Nat.eq_of_testBit_eq fun i => ?_
  have hb : (v >>> 32).toUInt64.toNat.testBit i = (v.toUInt64.toBitVec.sshiftRight 32).getLsbD i := by
    rw [← h, BitVec.getLsbD, UInt64.toNat_toBitVec]
  rw [Nat.testBit_mod_two_pow, Nat.testBit_div_two_pow, hb, BitVec.getLsbD_sshiftRight]
  have hout : ∀ k, 64 ≤ k → v.toUInt64.toNat.testBit k = false := fun k hk => by
    have := BitVec.getLsbD_of_ge v.toUInt64.toBitVec k hk
    rwa [BitVec.getLsbD, UInt64.toNat_toBitVec] at this
  simp only [BitVec.getLsbD, UInt64.toNat_toBitVec]
  grind

theorem toNat_halves (a b : UInt32) :
    (ofUnsignedInt a <<< 32 ||| ofUnsignedInt b).toUInt64.toNat = a.toNat * 2 ^ 32 + b.toNat := by
  have h : (ofUnsignedInt a <<< 32 ||| ofUnsignedInt b).toUInt64 = a.toUInt64 <<< 32 ||| b.toUInt64 := rfl
  have ha := a.toNat_lt
  rw [h, UInt64.toNat_or, UInt64.toNat_shiftLeft, UInt32.toNat_toUInt64, UInt32.toNat_toUInt64,
    show (32 : UInt64).toNat % 64 = 32 from rfl, Nat.shiftLeft_eq, Nat.mod_eq_of_lt (by omega), Nat.mul_comm,
    ← Nat.two_pow_add_eq_or_of_lt b.toNat_lt]

theorem htonl_one (order : ByteOrder) : htonl order 1 = 1 ↔ order = .big := by
  cases order <;> decide

theorem ntohlonglong_eq (order : ByteOrder) (v : Int64) :
    ntohlonglong order v = htonlonglong order v := rfl

theorem toNat_htonlonglong (order : ByteOrder) (v : Int64) :
    (htonlonglong order v).toUInt64.toNat = order.nat (beBytes 8 v.toUInt64.toNat) := by
  have hlt := v.toUInt64.toNat_lt
  cases order with
  | big =>
    rw [htonlonglong, if_pos ((htonl_one .big).2 rfl)]
    have h := ByteOrder.nat_bytes .big 8 v.toUInt64.toNat
    rw [Nat.mod_eq_of_lt (by omega)] at h
    exact h.symm
  | little =>
    rw [htonlonglong, if_neg (mt (htonl_one .little).1 (by decide)), toNat_halves]
    have hlo : (toUnsignedInt (v &&& 0xFFFFFFFF)).toNat = v.toUInt64.toNat % 256 ^ 4 :=
      toNat_toUnsignedInt v
    have hhi : (toUnsignedInt (v >>> 32 &&& 0xFFFFFFFF)).toNat = v.toUInt64.toNat / 256 ^ 4 := by
      rw [toNat_toUnsignedInt, toNat_shiftRight, show 256 ^ 4 = 2 ^ 32 from rfl]
    rw [toNat_htonl, toNat_htonl, hlo, hhi, beBytes_add 4 4, beBytes_mod]
    simp only [ByteOrder.nat]
    rw [leNat_append, beBytes_length]
    omega

/-- `htonlonglong` leaves the number in memory most significant byte first. -/
theorem bytes_htonlonglong (order : ByteOrder) (v : Int64) :
    order.bytes 8 (htonlonglong order v).toUInt64.toNat = beBytes 8 v.toUInt64.toNat := by
  have h := order.bytes_nat (beBytes 8 v.toUInt64.toNat)
  rw [beBytes_length] at h
  rw [toNat_htonlonglong, h]

/-- `ntohlonglong` of what the receiver reads. -/
theorem ntohlonglong_wire (order : ByteOrder) (u : UInt64) :
    ntohlonglong order (UInt64.ofNat (order.nat (beBytes 8 u.toNat))).toInt64 = u.toInt64 := by
  have hlt := order.nat_lt (beBytes 8 u.toNat)
  rw [beBytes_length] at hlt
  have h : (htonlonglong order (UInt64.ofNat (order.nat (beBytes 8 u.toNat))).toInt64).toUInt64 = u := by
    refine UInt64.toNat_inj.1 ?_
    rw [toNat_htonlonglong, UInt64.toUInt64_toInt64, UInt64.toNat_ofNat_of_lt' hlt,
      ByteOrder.nat_beBytes_nat, Nat.mod_eq_of_lt (by simpa using u.toNat_lt)]
  rw [ntohlonglong_eq, ← Int64.toInt64_toUInt64 (htonlonglong _ _), h]

/-! ## The header -/

/-- What `hton_rechdr` makes lies in memory as it is to travel. -/
theorem toBytes_htonRechdr (order : ByteOrder) (e : PosixLogEntry) :
    toBytes order (htonRechdr order e) = onTheWire e := by
  simp only [toBytes, members, htonRechdr, onTheWire, fields, List.flatMap_cons, List.flatMap_nil,
    bytes_htonl, bytes_htonlonglong, UInt64.toUInt64_toInt64]

/-- What `ntoh_rechdr` takes out of a header that has travelled. -/
theorem ntohRechdr_onTheWire (order : ByteOrder) (e : PosixLogEntry) :
    ntohRechdr order (ofBytes order (onTheWire e)) = e := by
  simp only [onTheWire, fields, List.flatMap_cons, List.flatMap_nil, ofBytes,
    ByteOrder.take_append order (beBytes_length _ _), ntohRechdr, ntohl_wire, ntohlonglong_wire,
    Int32.toInt32_toUInt32, Int64.toInt64_toUInt64, UInt64.toUInt64_toInt64]

/-! ### evlogrmtd's own reading -/

theorem ntohlonglong_little (u : UInt64) :
    (ntohlonglong .little u.toInt64).toUInt64 = Socket.ntohlonglong u := by
  have hlow : toUnsignedInt (u.toInt64 &&& 0xFFFFFFFF) = u.toUInt32 := by
    refine UInt32.toNat_inj.1 ?_
    rw [toNat_toUnsignedInt, UInt64.toUInt64_toInt64, UInt64.toNat_toUInt32]
  have hhigh : toUnsignedInt (u.toInt64 >>> 32 &&& 0xFFFFFFFF) = (u >>> 32).toUInt32 := by
    refine UInt32.toNat_inj.1 ?_
    rw [toNat_toUnsignedInt, toNat_shiftRight, UInt64.toUInt64_toInt64, UInt64.toNat_toUInt32,
      UInt64.toNat_shiftRight, show (32 : UInt64).toNat % 64 = 32 from rfl, Nat.shiftRight_eq_div_pow]
    have := u.toNat_lt
    omega
  rw [ntohlonglong, if_neg (mt (htonl_one .little).1 (by decide))]
  dsimp only
  rw [hlow, hhigh]
  rfl

/-- A field is read as the number it is in network order. -/
theorem toNat_ntohl_leNat {bs : List UInt8} (h : bs.length = 4) :
    (Socket.ntohl (.ofNat (leNat bs))).toNat = ByteOrder.big.nat bs := by
  have hlt : leNat bs < 256 ^ 4 := h ▸ ByteOrder.nat_lt .little bs
  have hbytes : leBytes 4 (leNat bs) = bs := h ▸ ByteOrder.bytes_nat .little bs
  calc (Socket.ntohl (.ofNat (leNat bs))).toNat
      = ByteOrder.little.nat (beBytes 4 (UInt32.ofNat (leNat bs)).toNat) := toNat_htonl .little _
    _ = leNat (leBytes 4 (leNat bs)).reverse := by
        rw [UInt32.toNat_ofNat_of_lt' hlt]
        rfl
    _ = ByteOrder.big.nat bs := congrArg (fun bs => leNat (List.reverse bs)) hbytes

theorem toNat_ntohlonglong_leNat {bs : List UInt8} (h : bs.length = 8) :
    (Socket.ntohlonglong (.ofNat (leNat bs))).toNat = ByteOrder.big.nat bs := by
  have hlt : leNat bs < 256 ^ 8 := h ▸ ByteOrder.nat_lt .little bs
  have hbytes : leBytes 8 (leNat bs) = bs := h ▸ ByteOrder.bytes_nat .little bs
  calc (Socket.ntohlonglong (.ofNat (leNat bs))).toNat
      = ByteOrder.little.nat (beBytes 8 (UInt64.ofNat (leNat bs)).toNat) := by
        rw [← ntohlonglong_little, ntohlonglong_eq, toNat_htonlonglong, UInt64.toUInt64_toInt64]
    _ = leNat (leBytes 8 (leNat bs)).reverse := by
        rw [UInt64.toNat_ofNat_of_lt' hlt]
        rfl
    _ = ByteOrder.big.nat bs := congrArg (fun bs => leNat (List.reverse bs)) hbytes

/-- A header that is sent as it lies in memory arrives with the same value in
every field, and travels with each field most significant byte first. -/
theorem netHeader_round_trip (sender receiver : ByteOrder) (e : PosixLogEntry) :
    toBytes sender (htonRechdr sender e) = onTheWire e ∧
      ntohRechdr receiver (ofBytes receiver (toBytes sender (htonRechdr sender e))) = e := by
  have h := toBytes_htonRechdr sender e
  exact ⟨h, by rw [h, ntohRechdr_onTheWire]⟩

end Evlog.Evlogd.Net
