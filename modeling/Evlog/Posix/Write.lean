/-
Evlog.Posix.Write — posix_log_write (posix1.c) and the end of it that
talks to the daemon (posix2.c).

A record is sent in two calls of `write`: the header, and the data. Whether
a string record ends with a NUL is decided in three places. `posix_log_write`
compares the length it is given with `strlen`, cuts what is too long and sets
`POSIX_LOG_TRUNCATE`, which a caller may also have set; `_evlWriteEx2` puts
a NUL at the end of its copy when it finds the flag.

The caller's buffer is what can be read from its address on, so a `strlen`
that finds no NUL and a copy that runs out of the buffer are `none`: nothing
is known of what happens then.
-/
import Evlog.Lib.CString
import Evlog.Posix.Entry

namespace Evlog.Posix

open Evlog.Lib

/-! ## The caller's buffer -/

/-- What can be read from an address on; a size is a `size_t`. -/
structure Readable where
  bytes : List UInt8
  fits : bytes.length < 2 ^ 64

def Readable.string (mem : Readable) : List UInt8 := (CString.ofBuf mem.bytes).bytes

def Readable.strlen (mem : Readable) : Option UInt64 :=
  if 0 ∈ mem.bytes then some (.ofNat mem.string.length) else none

/-- The first `n` bytes. -/
def Readable.read (mem : Readable) (n : Nat) : Option (List UInt8) :=
  if n ≤ mem.bytes.length then some (mem.bytes.take n) else none

/-! ## The connection -/

/-- What the calls return. -/
inductive WriteStatus where
  | success
  | einval
  | ebadmsg
  | enospc
  | econnrefused
  | eio
  deriving DecidableEq, Repr

/-- How the calls on the daemon's socket come out. -/
structure Socket where
  connected : Bool
  headerWritten : Bool
  bodyWritten : Bool
  ack : UInt8

/-- The two buffers given to `write`, as far as it came to that. -/
structure WriteResult where
  header : Option PosixLogEntry
  body : Option (List UInt8)
  status : WriteStatus

def Socket.bodyStatus (sock : Socket) : WriteStatus :=
  if sock.bodyWritten then .success else .eio

def evlWriteEx2 (sock : Socket) (entry : PosixLogEntry) (buf : Option Readable) :
    Option WriteResult :=
  if !sock.headerWritten then some ⟨some entry, none, .eio⟩
  else if entry.logFormat = posixLogString ∧ entry.logFlags &&& posixLogTruncate ≠ 0 then do
    let data ← (← buf).read entry.logSize.toNat
    -- `writebuf` has room for the longest record
    if posixLogEntryMaxlen < entry.logSize.toNat then none
    else some ⟨some entry, some (data.set (posixLogEntryMaxlen - 1) 0), sock.bodyStatus⟩
  else if 0 < entry.logSize then do
    let data ← (← buf).read entry.logSize.toNat
    some ⟨some entry, some data, sock.bodyStatus⟩
  else some ⟨some entry, none, .success⟩

def evlWriteEx (sock : Socket) (entry : PosixLogEntry) (buf : Option Readable) :
    Option WriteResult :=
  if !sock.connected then some ⟨none, none, .econnrefused⟩
  else do
    let ret ← evlWriteEx2 sock entry buf
    if ret.status = .eio then some ret
    -- the daemon says that it has read the record
    else if sock.ack ≠ 0xac then some { ret with status := .eio }
    else some ret

/-! ## `posix_log_write` -/

def logEmerg : Int32 := 0
def logDebug : Int32 := 7

/-- Is a string as long as the caller says? Asked only about a string. -/
def lengthMatches (buf : Option Readable) (len : UInt64) (format : Int32) : Option Bool :=
  if format = posixLogString then do
    let n ← (← buf).strlen
    some (n = len - 1)
  else some true

def cutToMaxlen (buf : Option Readable) (len : UInt64) (flags : UInt32) : UInt64 × UInt32 :=
  if buf.isNone then (0, flags)
  else if posixLogEntryMaxlen < len.toNat then
    (.ofNat posixLogEntryMaxlen, flags ||| posixLogTruncate)
  else (len, flags)

def WriteResult.refused (status : WriteStatus) : WriteResult := ⟨none, none, status⟩

/-- The header of a record; no data has the format of no data. -/
def writeEntry (own : PosixLogEntry) (facility : UInt32) (eventType severity : Int32)
    (format : Int32) (cut : UInt64 × UInt32) : PosixLogEntry :=
  { own with
    logFormat := if cut.1 = 0 then posixLogNodata else format
    logFlags := cut.2, logSize := cut.1, logEventType := eventType
    logFacility := facility, logSeverity := severity }

/-- `posix_log_write`. `registered` tells whether the facility is in the
registry; `own` are the fields of the header that the process and the clock
give, and the record id, which is not set here. -/
def posixLogWrite (sock : Socket) (own : PosixLogEntry) (registered : UInt32 → Bool)
    (facility : UInt32) (eventType severity : Int32) (buf : Option Readable) (len : UInt64)
    (format : Int32) (flags : UInt32) : Option WriteResult := do
  if !(← lengthMatches buf len format) then some (.refused .ebadmsg)
  else if severity < logEmerg ∨ logDebug < severity then some (.refused .einval)
  else if !registered facility then some (.refused .einval)
  else
    let cut := cutToMaxlen buf len flags
    if cut.1 ≠ 0 ∧ format ≠ posixLogBinary ∧ format ≠ posixLogString ∧ format ≠ posixLogPrintf then
      some (.refused .einval)
    else do
      let result ← evlWriteEx sock (writeEntry own facility eventType severity format cut) buf
      some { result with
        status :=
          if result.status = .enospc then .enospc
          else if result.status ≠ .success then .eio
          else .success }

/-- What `vsnprintf` leaves in a buffer of the longest record's size: the
number it returns, and the bytes, which end with a NUL where it says how
many there are before it. -/
structure Printed where
  slen : Int32
  buf : List UInt8
  size : buf.length = posixLogEntryMaxlen
  terminated : 0 ≤ slen.toInt → slen.toInt < posixLogEntryMaxlen → 0 ∈ buf

/-- What `posix_log_vprintf` hands on: the buffer and the flags. -/
def Printed.cut (p : Printed) (flags : UInt32) : List UInt8 × UInt32 :=
  if p.slen < 0 ∨ p.slen > .ofNat (posixLogEntryMaxlen - 1) then
    (p.buf.set (posixLogEntryMaxlen - 1) 0, flags ||| posixLogTruncate)
  else (p.buf, flags)

theorem Printed.cut_length (p : Printed) (flags : UInt32) : (p.cut flags).1.length < 2 ^ 64 := by
  have hmax : posixLogEntryMaxlen < 2 ^ 64 := by decide
  unfold Printed.cut
  split
  · rw [List.length_set, p.size]
    exact hmax
  · rw [p.size]
    exact hmax

def Printed.handed (p : Printed) (flags : UInt32) : Readable :=
  ⟨(p.cut flags).1, p.cut_length flags⟩

/-- `posix_log_vprintf`; no format is NULL. -/
def posixLogVprintf (sock : Socket) (own : PosixLogEntry) (registered : UInt32 → Bool)
    (facility : UInt32) (eventType severity : Int32) (flags : UInt32) (printed : Option Printed) :
    Option WriteResult :=
  match printed with
  | none => some (.refused .einval)
  | some p => do
    posixLogWrite sock own registered facility eventType severity (some (p.handed flags))
      ((← (p.handed flags).strlen) + 1) posixLogString (p.cut flags).2

/-! ## What a string record holds -/

theorem ofBuf_append_nul {s rest : List UInt8} (h : 0 ∉ s) :
    (CString.ofBuf (s ++ 0 :: rest)).bytes = s := by
  have hs : ∀ b ∈ s, (b != 0) = true := by
    intro b hb
    rw [bne_iff_ne]
    exact fun h0 => h (h0 ▸ hb)
  change (s ++ 0 :: rest).takeWhile (· != 0) = s
  rw [List.takeWhile_append_of_pos hs, List.takeWhile_cons_of_neg (by decide), List.append_nil]

theorem Readable.exists_rest {mem : Readable} (h : 0 ∈ mem.bytes) :
    ∃ rest, mem.bytes = mem.string ++ 0 :: rest := by
  obtain ⟨s, rest, hsplit, hs⟩ := List.eq_append_cons_of_mem h
  refine ⟨rest, ?_⟩
  rw [Readable.string, hsplit, ofBuf_append_nul hs]

/-- The length of a string is below every size, so that `len - 1` does not
wrap around. -/
theorem lengthMatches_string {buf : Option Readable} {len : UInt64}
    (h : lengthMatches buf len posixLogString = some true) :
    ∃ mem, buf = some mem ∧ 0 ∈ mem.bytes ∧ len.toNat = mem.string.length + 1 := by
  rw [lengthMatches, if_pos rfl] at h
  obtain ⟨mem, rfl, hmem⟩ := Option.bind_eq_some_iff.mp h
  refine ⟨mem, rfl, ?_⟩
  unfold Readable.strlen at hmem
  split at hmem
  · next hnul =>
    refine ⟨hnul, ?_⟩
    obtain ⟨rest, hsplit⟩ := Readable.exists_rest hnul
    have hfits := mem.fits
    rw [hsplit, List.length_append, List.length_cons] at hfits
    have heq : UInt64.ofNat mem.string.length = len - 1 := by simpa using hmem
    have hlen : len = UInt64.ofNat mem.string.length + 1 := by rw [heq, UInt64.sub_add_cancel]
    rw [hlen, UInt64.toNat_add, UInt64.toNat_ofNat']
    have hone : (1 : UInt64).toNat = 1 := rfl
    omega
  · cases hmem

/-- What is sent of a string: all of it that fits before a NUL. -/
def Readable.record (mem : Readable) : List UInt8 :=
  mem.string.take (posixLogEntryMaxlen - 1) ++ [0]

/-- A string that fits is sent as it is; the NUL that is put at the end of
the copy is there already, or behind what is sent. -/
theorem read_of_fits {mem : Readable} (h : 0 ∈ mem.bytes)
    (hfits : mem.string.length + 1 ≤ posixLogEntryMaxlen) :
    mem.read (mem.string.length + 1) = some mem.record ∧
      mem.record.set (posixLogEntryMaxlen - 1) 0 = mem.record := by
  obtain ⟨rest, hsplit⟩ := Readable.exists_rest h
  have hrecord : mem.record = mem.string ++ [0] := by
    rw [Readable.record, List.take_of_length_le (by omega)]
  constructor
  · have hroom : mem.string.length + 1 ≤ mem.bytes.length := by
      rw [hsplit, List.length_append, List.length_cons]
      omega
    rw [Readable.read, if_pos hroom, hrecord, hsplit, List.take_length_add_append]
    rfl
  · rw [hrecord]
    by_cases hlast : mem.string.length = posixLogEntryMaxlen - 1
    · rw [← hlast, List.set_append_right _ _ (Nat.le_refl _), Nat.sub_self]
      rfl
    · apply List.set_eq_of_length_le
      rw [List.length_append, List.length_singleton]
      omega

/-- Of a longer one, the last byte that is copied becomes the NUL. -/
theorem read_of_cut {mem : Readable} (h : 0 ∈ mem.bytes)
    (hlong : posixLogEntryMaxlen < mem.string.length + 1) :
    ∃ data, mem.read posixLogEntryMaxlen = some data ∧
      data.set (posixLogEntryMaxlen - 1) 0 = mem.record := by
  obtain ⟨rest, hsplit⟩ := Readable.exists_rest h
  have hmax : posixLogEntryMaxlen = posixLogEntryMaxlen - 1 + 1 := rfl
  have hroom : posixLogEntryMaxlen ≤ mem.bytes.length := by
    rw [hsplit, List.length_append, List.length_cons]
    omega
  have hlast : posixLogEntryMaxlen - 1 < mem.string.length := by omega
  have hlength : (mem.string.take (posixLogEntryMaxlen - 1)).length = posixLogEntryMaxlen - 1 := by
    rw [List.length_take]
    omega
  refine ⟨mem.bytes.take posixLogEntryMaxlen, if_pos hroom, ?_⟩
  calc (mem.bytes.take posixLogEntryMaxlen).set (posixLogEntryMaxlen - 1) 0
      = (mem.string.take (posixLogEntryMaxlen - 1 + 1)).set (posixLogEntryMaxlen - 1) 0 := by
        rw [hsplit, List.take_append_of_le_length (by omega), ← hmax]
    _ = mem.record := by
        rw [List.take_succ_eq_append_getElem hlast, List.set_append_right _ _ (by omega), hlength,
          Nat.sub_self]
        rfl

theorem Readable.record_length (mem : Readable) :
    mem.record.length = min (mem.string.length + 1) posixLogEntryMaxlen := by
  have hmax : 1 ≤ posixLogEntryMaxlen := by decide
  rw [Readable.record, List.length_append, List.length_take, List.length_singleton]
  omega

/-- The record is a string, and a prefix of the caller's. -/
theorem Readable.string_record (mem : Readable) :
    0 ∈ mem.record ∧ (CString.ofBuf mem.record).bytes <+: mem.string := by
  have hpart : 0 ∉ mem.string.take (posixLogEntryMaxlen - 1) :=
    fun hmem => (CString.ofBuf mem.bytes).noNul (List.mem_of_mem_take hmem)
  constructor
  · exact List.mem_append_right _ (List.mem_singleton_self 0)
  · rw [Readable.record, ofBuf_append_nul hpart]
    exact List.take_prefix _ _

/-! ## `_evlWriteEx2` sends a string -/

/-- A header that fits a string: the size counts the NUL, and the flag is
set on what is too long. -/
structure Announces (entry : PosixLogEntry) (mem : Readable) : Prop where
  nul : 0 ∈ mem.bytes
  size : entry.logSize.toNat = min (mem.string.length + 1) posixLogEntryMaxlen
  flag : posixLogEntryMaxlen < mem.string.length + 1 → entry.logFlags &&& posixLogTruncate ≠ 0

theorem Announces.size_pos {entry : PosixLogEntry} {mem : Readable} (h : Announces entry mem) :
    1 ≤ entry.logSize.toNat := by
  have hsize := h.size
  have hmax : 1 ≤ posixLogEntryMaxlen := by decide
  omega

variable {sock : Socket} {entry e : PosixLogEntry} {buf : Option Readable} {mem : Readable}
  {out : WriteResult}

theorem evlWriteEx2_header (h : evlWriteEx2 sock entry buf = some out) :
    out.header = some entry := by
  unfold evlWriteEx2 at h
  split at h
  · cases h
    rfl
  · split at h
    · obtain ⟨mem, -, hrest⟩ := Option.bind_eq_some_iff.mp h
      obtain ⟨data, -, hret⟩ := Option.bind_eq_some_iff.mp hrest
      split at hret
      · cases hret
      · cases hret
        rfl
    · split at h
      · obtain ⟨mem, -, hrest⟩ := Option.bind_eq_some_iff.mp h
        obtain ⟨data, -, hret⟩ := Option.bind_eq_some_iff.mp hrest
        cases hret
        rfl
      · cases h
        rfl

/-- On both ways through `_evlWriteEx2` the record is what is sent. -/
theorem evlWriteEx2_string (ha : Announces entry mem) (hfmt : entry.logFormat = posixLogString)
    (h : evlWriteEx2 sock entry (some mem) = some out) (hw : sock.headerWritten = true) :
    out.body = some mem.record := by
  have hpos := ha.size_pos
  have hsize := ha.size
  simp only [evlWriteEx2, hw, Bool.not_true, Bool.false_eq_true, if_false, Option.bind_eq_bind,
    Option.bind_some] at h
  split at h
  · by_cases hlong : posixLogEntryMaxlen < mem.string.length + 1
    · obtain ⟨data, hread, hset⟩ := read_of_cut ha.nul hlong
      have hmax : entry.logSize.toNat = posixLogEntryMaxlen := by omega
      simp only [hmax, hread, Option.bind_some, if_neg (Nat.lt_irrefl _), hset] at h
      cases h
      rfl
    · obtain ⟨hread, hset⟩ := read_of_fits ha.nul (by omega)
      have hlen : entry.logSize.toNat = mem.string.length + 1 := by omega
      simp only [hlen, hread, Option.bind_some, if_neg hlong, hset] at h
      cases h
      rfl
  · next hflag =>
    have hfits : ¬ posixLogEntryMaxlen < mem.string.length + 1 :=
      fun hlong => hflag ⟨hfmt, ha.flag hlong⟩
    obtain ⟨hread, -⟩ := read_of_fits ha.nul (by omega)
    have hlen : entry.logSize.toNat = mem.string.length + 1 := by omega
    have hdata : 0 < entry.logSize := UInt64.lt_iff_toNat_lt.mpr hpos
    rw [if_pos hdata, hlen, hread] at h
    cases h
    rfl

/-- What goes out goes through `_evlWriteEx2`. -/
theorem evlWriteEx_sent (h : evlWriteEx sock entry buf = some out) (hsent : out.header = some e) :
    ∃ ret, evlWriteEx2 sock entry buf = some ret ∧ out.header = ret.header ∧
      out.body = ret.body := by
  unfold evlWriteEx at h
  split at h
  · cases h
    cases hsent
  · obtain ⟨ret, hret, hrest⟩ := Option.bind_eq_some_iff.mp h
    refine ⟨ret, hret, ?_⟩
    split at hrest
    · cases hrest
      exact ⟨rfl, rfl⟩
    · split at hrest
      · cases hrest
        exact ⟨rfl, rfl⟩
      · cases hrest
        exact ⟨rfl, rfl⟩

/-! ## `posix_log_write` sends a string -/

theorem or_truncate_ne_zero (flags : UInt32) :
    (flags ||| posixLogTruncate) &&& posixLogTruncate ≠ 0 := by
  have habsorb : (flags ||| posixLogTruncate) &&& posixLogTruncate = posixLogTruncate := by
    apply UInt32.toBitVec_inj.mp
    ext i hi
    simp only [UInt32.toBitVec_and, UInt32.toBitVec_or, BitVec.getElem_and, BitVec.getElem_or]
    grind
  rw [habsorb]
  decide

/-- What `posix_log_write` makes of the length and the flags announces the
string. -/
theorem announces_cutToMaxlen {len : UInt64} {flags : UInt32} (hnul : 0 ∈ mem.bytes)
    (hlen : len.toNat = mem.string.length + 1)
    (hsize : entry.logSize = (cutToMaxlen (some mem) len flags).1)
    (hflags : entry.logFlags = (cutToMaxlen (some mem) len flags).2) : Announces entry mem := by
  simp only [cutToMaxlen, Option.isNone_some, Bool.false_eq_true, if_false] at hsize hflags
  by_cases hlong : posixLogEntryMaxlen < len.toNat
  · rw [if_pos hlong] at hsize hflags
    refine ⟨hnul, ?_, fun _ => ?_⟩
    · rw [hsize, UInt64.toNat_ofNat_of_lt' (by decide)]
      omega
    · rw [hflags]
      exact or_truncate_ne_zero flags
  · rw [if_neg hlong] at hsize hflags
    refine ⟨hnul, ?_, fun h => absurd h (by omega)⟩
    have hsize' : entry.logSize.toNat = len.toNat := by rw [hsize]
    omega

variable {own : PosixLogEntry} {registered : UInt32 → Bool} {facility : UInt32}
  {eventType severity : Int32} {len : UInt64} {format : Int32} {flags : UInt32}

/-- Past the checks, the record is handed to `_evlWriteEx`. -/
theorem posixLogWrite_checked
    (h : posixLogWrite sock own registered facility eventType severity buf len format flags
      = some out) (hsent : out.header = some e) :
    lengthMatches buf len format = some true ∧
      ∃ result,
        evlWriteEx sock
          (writeEntry own facility eventType severity format (cutToMaxlen buf len flags)) buf
            = some result ∧
        result.header = some e ∧ result.body = out.body := by
  obtain ⟨matched, hmatch, hrest⟩ := Option.bind_eq_some_iff.mp h
  cases matched with
  | false =>
    cases hrest
    cases hsent
  | true =>
    refine ⟨hmatch, ?_⟩
    simp only [Bool.not_true, Bool.false_eq_true, if_false] at hrest
    split at hrest
    · cases hrest
      cases hsent
    · split at hrest
      · cases hrest
        cases hsent
      · split at hrest
        · cases hrest
          cases hsent
        · obtain ⟨result, hwrite, hret⟩ := Option.bind_eq_some_iff.mp hrest
          cases hret
          exact ⟨result, hwrite, hsent, rfl⟩

/-- The header that goes out is the one put together here, and the data go
out behind it. -/
theorem posixLogWrite_sent
    (h : posixLogWrite sock own registered facility eventType severity buf len format flags
      = some out) (hsent : out.header = some e) :
    lengthMatches buf len format = some true ∧
      e = writeEntry own facility eventType severity format (cutToMaxlen buf len flags) ∧
      ∃ ret, evlWriteEx2 sock e buf = some ret ∧ out.body = ret.body := by
  obtain ⟨hmatch, result, hwrite, hheader, hbody⟩ := posixLogWrite_checked h hsent
  obtain ⟨ret, hret, hheader', hbody'⟩ := evlWriteEx_sent hwrite hheader
  have hentry := evlWriteEx2_header hret
  rw [← hheader', hheader, Option.some.injEq] at hentry
  rw [← hentry] at hret
  exact ⟨hmatch, hentry, ret, hret, hbody.symm.trans hbody'⟩

/-- A string record goes out only for a string of the length given, and the
string is in it. -/
theorem posixLogWrite_string
    (h : posixLogWrite sock own registered facility eventType severity buf len format flags
      = some out)
    (hsent : out.header = some e) (hs : e.logFormat = posixLogString) :
    ∃ mem, buf = some mem ∧ Announces e mem ∧
      (sock.headerWritten = true → out.body = some mem.record) := by
  obtain ⟨hmatch, hentry, ret, hret, hbody⟩ := posixLogWrite_sent h hsent
  have hformat : format = posixLogString := by
    rw [hentry] at hs
    change (if (cutToMaxlen buf len flags).1 = 0 then posixLogNodata else format) = _ at hs
    split at hs
    · cases hs
    · exact hs
  rw [hformat] at hmatch
  obtain ⟨mem, rfl, hnul, hlen⟩ := lengthMatches_string hmatch
  have ha : Announces e mem :=
    announces_cutToMaxlen hnul hlen (by rw [hentry]; rfl) (by rw [hentry]; rfl)
  exact ⟨mem, rfl, ha, fun hw => hbody.trans (evlWriteEx2_string ha hs hret hw)⟩

/-- A string record that goes out ends with a NUL: its size counts at
least that, and up to its first NUL the data are a prefix of the caller's
string. -/
theorem posixLogWrite_terminated
    (h : posixLogWrite sock own registered facility eventType severity buf len format flags
      = some out)
    (hsent : out.header = some e) (hs : e.logFormat = posixLogString) :
    1 ≤ e.logSize.toNat ∧
      (sock.headerWritten = true → ∃ mem data, buf = some mem ∧ out.body = some data ∧
        data.length = e.logSize.toNat ∧ 0 ∈ data ∧ (CString.ofBuf data).bytes <+: mem.string) := by
  obtain ⟨mem, hbuf, ha, hbody⟩ := posixLogWrite_string h hsent hs
  refine ⟨ha.size_pos, fun hw => ⟨mem, mem.record, hbuf, hbody hw, ?_, mem.string_record⟩⟩
  rw [mem.record_length, ha.size]

def Readable.hi : Readable := ⟨[0x68, 0x69, 0], by decide⟩

def PosixLogEntry.blank : PosixLogEntry where
  logMagic := logrecMagic
  logRecid := 0
  logSize := 0
  logFormat := 0
  logEventType := 0
  logFacility := 0
  logSeverity := 0
  logUid := 0
  logGid := 0
  logPid := 0
  logPgrp := 0
  logTimeSec := 0
  logTimeNsec := 0
  logFlags := 0
  logThread := 0
  logProcessor := 0

/-- "hi" goes out as three bytes, and the last is the NUL. -/
theorem posixLogWrite_terminated_hi : ∃ out e data,
      posixLogWrite ⟨true, true, true, 0xac⟩ .blank (fun _ => true) 8 1 6 (some .hi) 3
        posixLogString 0 = some out ∧
      out.header = some e ∧ e.logFormat = posixLogString ∧ e.logSize = 3 ∧
      out.body = some data ∧ 0 ∈ data := by
  have hcall : posixLogWrite ⟨true, true, true, 0xac⟩ .blank (fun _ => true) 8 1 6 (some .hi) 3
      posixLogString 0 = some ⟨some (writeEntry .blank 8 1 6 posixLogString (3, 0)),
        some [0x68, 0x69, 0], .success⟩ := rfl
  obtain ⟨-, hbody⟩ := posixLogWrite_terminated hcall rfl rfl
  obtain ⟨mem, data, -, hdata, -, hnul, -⟩ := hbody rfl
  exact ⟨_, _, data, hcall, rfl, rfl, rfl, hdata, hnul⟩

/-! ## `posix_log_vprintf` -/

/-- The record of `posix_log_vprintf` is a string: the text, cut to what
fits. -/
theorem posixLogVprintf_string {printed : Option Printed}
    (h : posixLogVprintf sock own registered facility eventType severity flags printed = some out)
    (hsent : out.header = some e) :
    e.logFormat = posixLogString ∧ ∃ p, printed = some p ∧
      (sock.headerWritten = true → out.body = some (p.handed flags).record) := by
  cases printed with
  | none =>
    cases h
    cases hsent
  | some p =>
    obtain ⟨n, hn, hwrite⟩ := Option.bind_eq_some_iff.mp h
    obtain ⟨hmatch, hentry, -⟩ := posixLogWrite_sent hwrite hsent
    obtain ⟨mem, hmem, hnul, hlen⟩ := lengthMatches_string hmatch
    have ha : Announces e mem := by
      rw [hmem] at hentry
      exact announces_cutToMaxlen hnul hlen (by rw [hentry]; rfl) (by rw [hentry]; rfl)
    have hpos := ha.size_pos
    have hformat : e.logFormat = posixLogString := by
      rw [hentry] at hpos ⊢
      refine if_neg fun h0 => ?_
      change 1 ≤ (cutToMaxlen _ _ _).1.toNat at hpos
      rw [h0] at hpos
      cases hpos
    refine ⟨hformat, p, rfl, fun hw => ?_⟩
    obtain ⟨mem', hmem', -, hbody⟩ := posixLogWrite_string hwrite hsent hformat
    cases hmem'
    exact hbody hw

/-- What `vsnprintf` makes of "hi". -/
def printedHi : Printed where
  slen := 2
  buf := 0x68 :: 0x69 :: List.replicate (posixLogEntryMaxlen - 2) 0
  size := by rw [List.length_cons, List.length_cons, List.length_replicate]; rfl
  terminated _ _ := List.mem_cons_of_mem _ (List.mem_cons_of_mem _ (List.mem_replicate.2 ⟨by decide, rfl⟩))

theorem posixLogVprintf_string_hi :
    ∃ out e, posixLogVprintf ⟨true, true, true, 0xac⟩ .blank (fun _ => true) 8 1 6 0 (some printedHi) =
        some out ∧ out.header = some e ∧ e.logFormat = posixLogString ∧
      out.body = some (printedHi.handed 0).record := by
  have hsent : ((posixLogVprintf ⟨true, true, true, 0xac⟩ .blank (fun _ => true) 8 1 6 0
      (some printedHi)).bind WriteResult.header).isSome = true := by decide +kernel
  obtain ⟨e, he⟩ := Option.isSome_iff_exists.1 hsent
  obtain ⟨out, hcall, hheader⟩ := Option.bind_eq_some_iff.1 he
  obtain ⟨hformat, p, hp, hbody⟩ := posixLogVprintf_string hcall hheader
  cases hp
  exact ⟨out, e, hcall, hheader, hformat, hbody rfl⟩

end Evlog.Posix
