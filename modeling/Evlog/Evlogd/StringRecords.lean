/-
Evlog.Evlogd.StringRecords — string records that are put together in the
code (evlogd.c, libevlsyslog.c).

`writeDiscardEvent` prints its text and hands it to `mk_evl_rec`, which
takes it for a format. `vwrite_evlog` puts "ident[pid]: message" into a
buffer; the size that it gives `vsnprintf` is not the room that is left.

Conversions that want an argument have none in `mk_evl_rec`; what they do is
not defined, and there is no record then. Of `evlbuf` the model keeps what is
stored behind the place of the header, as far as it goes.
-/
import Evlog.Lib.Numeral
import Evlog.Evlogd.LogWrite
import Evlog.Util.FmtBuf

namespace Evlog.Evlogd

open Evlog.Lib Evlog.Posix Evlog.Util

/-! ## `writeDiscardEvent` -/

structure FacilityName where
  bytes : List UInt8
  no_nul : 0 ∉ bytes
  short : bytes.length < posixLogMemstrMaxlen

def discardText (eventType count : Int32) : List UInt8 :=
  cBytes "Discarded " ++ CString.signedDecimal count.toInt ++
    cBytes " duplicate events, event_type = 0x" ++ hexText eventType.toUInt32.toNat ++
    cBytes ", facility = "

/-- What `writeDiscardEvent` leaves in `event`. -/
def discardEvent (facNum : UInt32) (eventType count : Int32) (fname : Option FacilityName) : List UInt8 :=
  (discardText eventType count ++
    match fname with
    | none => CString.signedDecimal facNum.toInt32.toInt
    | some name => name.bytes).take (posixLogMemstrMaxlen + 255 - 1)

/-- What `vsnprintf` makes of a format without arguments. -/
def formatNoArgs : List UInt8 → Option (List UInt8)
  | [] => some []
  | [c] => if c = 0x25 then none else some [c]
  | c :: d :: fmt =>
    if c = 0x25 then
      if d = 0x25 then (formatNoArgs fmt).map (0x25 :: ·) else none
    else (formatNoArgs (d :: fmt)).map (c :: ·)

/-- The record of `mk_evl_rec`: its header, and the text behind it. -/
def mkEvlRecOf (env : ProcInfo) (facility : UInt32) (eventType severity : Int32) (format : List UInt8) :
    Option (PosixLogEntry × List UInt8) :=
  (formatNoArgs format).map fun text =>
    ({ logMagic := logMagicArch, logRecid := 0, logSize := .ofNat (text.length + 1)
       logFormat := posixLogString, logEventType := eventType, logFacility := facility
       logSeverity := severity, logUid := env.euid, logGid := env.egid, logPid := env.pid
       logPgrp := env.pgrp, logTimeSec := env.time, logTimeNsec := 0, logFlags := 0
       logThread := 0, logProcessor := env.processor },
      text.take (posixLogEntryMaxlen - 1) ++ [0])

def writeDiscardEvent (env : ProcInfo) (facNum : UInt32) (eventType count : Int32)
    (fname : Option FacilityName) : Option (PosixLogEntry × List UInt8) :=
  mkEvlRecOf env logLogmgmt 1 logInfo (discardEvent facNum eventType count fname)

/-! ## `vwrite_evlog` -/

/-- `LogMask`, `LogFacility`, `LogOption`, `LogIdent` and `__progname`. -/
structure SyslogVars where
  logMask : Int32
  logFacility : Int32
  logOption : Int32
  logIdent : Option (List UInt8)
  progname : List UInt8

def logPrimask : Int32 := 0x07
def logFacmask : Int32 := 0x03f8
def logPidOption : Int32 := 0x01

def evlSyslogMessage : Int32 := 0x1

/-- `"[%d]"`. -/
def pidText (pid : Int32) : List UInt8 := 0x5b :: (CString.signedDecimal pid.toInt ++ [0x5d])

/-- "ident[pid]: ", with the process id if the option says so. -/
def SyslogVars.front (vars : SyslogVars) (env : ProcInfo) : List UInt8 :=
  vars.logIdent.getD vars.progname ++
    (if vars.logOption &&& logPidOption ≠ 0 then pidText env.pid else []) ++ [0x3a, 0x20]

/-- What `vsnprintf` returns for a message. -/
def vsnprintfLength (message : List UInt8) : Int :=
  if message.length < 2 ^ 31 then message.length else -1

/-- What one call does: the bytes it stores in `evlbuf` behind the place of
the header, the number it stores in `writebuf`, and what it sends. -/
structure SyslogWrite where
  stored : List UInt8
  writebuf : Nat
  sent : Option (PosixLogEntry × List UInt8)

/-- `_evlSysWriteEx`; `connected` tells whether there is a socket. -/
def evlSysWriteEx (connected : Bool) (entry : PosixLogEntry) (buf : List UInt8) : SyslogWrite :=
  if connected then
    let truncated := entry.logFormat = posixLogString ∧ entry.logFlags &&& posixLogTruncate ≠ 0
    ⟨buf, if truncated then entry.logSize.toNat else 0, some (entry, buf.take entry.logSize.toNat)⟩
  else ⟨buf, 0, none⟩

@[simp] theorem evlSysWriteEx_stored (connected : Bool) (entry : PosixLogEntry) (buf : List UInt8) :
    (evlSysWriteEx connected entry buf).stored = buf := by
  unfold evlSysWriteEx
  split
  · rfl
  · rfl

/-- `vwrite_evlog`. `stack` are the fields of the header that are not set. -/
def vwriteEvlog (vars : SyslogVars) (env : ProcInfo) (stack : PosixLogEntry) (connected : Bool)
    (pri : Int32) (message : List UInt8) : SyslogWrite :=
  let pri := pri &&& (logPrimask ||| logFacmask)
  if (1 <<< (pri &&& logPrimask)) &&& vars.logMask = 0 then ⟨[], 0, none⟩
  else
    let pri := if pri &&& logFacmask = 0 then pri ||| vars.logFacility else pri
    let front := vars.front env
    let stored := front ++ message.take (posixLogEntryMaxlen - 1) ++ [0]
    let dataSize := front.length + vsnprintfLength message
    let truncated := (posixLogEntryMaxlen : Int) < dataSize
    let dataSize := if truncated then (posixLogEntryMaxlen : Int) else dataSize
    evlSysWriteEx connected
      { stack with
        logSize := .ofInt (dataSize + 1)
        logFormat := if dataSize = 0 then posixLogNodata else posixLogString
        logFlags := if truncated then posixLogTruncate else 0
        logEventType := evlSyslogMessage
        logFacility := (pri &&& logFacmask).toUInt32
        logSeverity := pri &&& logPrimask
        logUid := env.euid, logGid := env.egid, logPid := env.pid, logPgrp := env.pgrp
        logTimeSec := env.time, logTimeNsec := 0
        logThread := 0, logProcessor := env.processor }
      stored

/-! ## A text taken for a format -/

theorem formatNoArgs_of_plain {fmt : List UInt8} (h : 0x25 ∉ fmt) : formatNoArgs fmt = some fmt := by
  fun_induction formatNoArgs fmt with
  | case1 => rfl
  | case2 => simp at h
  | case3 => rfl
  | case4 => simp at h
  | case5 => simp at h
  | case6 c d fmt hc ih =>
    rw [ih fun hmem => h (List.mem_cons_of_mem c hmem)]
    rfl

/-- A conversion leaves something out, or is not defined. -/
theorem length_formatNoArgs {fmt text : List UInt8} (h : formatNoArgs fmt = some text) :
    text.length ≤ fmt.length ∧ (0x25 ∈ fmt → text.length < fmt.length) := by
  fun_induction formatNoArgs fmt generalizing text with
  | case1 =>
    cases h
    simp
  | case2 => cases h
  | case3 c hc =>
    cases h
    simpa using Ne.symm hc
  | case4 fmt ih =>
    obtain ⟨rest, hrest, rfl⟩ := Option.map_eq_some_iff.1 h
    have hle := (ih hrest).1
    simp only [List.length_cons]
    omega
  | case5 => cases h
  | case6 c d fmt hc ih =>
    obtain ⟨rest, hrest, rfl⟩ := Option.map_eq_some_iff.1 h
    obtain ⟨hle, hlt⟩ := ih hrest
    refine ⟨Nat.succ_le_succ hle, fun hmem => Nat.succ_lt_succ (hlt ?_)⟩
    rcases List.mem_cons.1 hmem with heq | hmem
    · exact absurd heq.symm hc
    · exact hmem

/-- A text without a '%' makes the record it should make. -/
theorem mkEvlRecOf_of_plain (env : ProcInfo) (facility : UInt32) (eventType severity : Int32)
    {format : List UInt8} (hplain : 0x25 ∉ format) (hfits : format.length < posixLogEntryMaxlen) :
    mkEvlRecOf env facility eventType severity format =
      some ((msgRecord env 0 facility eventType severity ⟨format, hfits⟩).entry,
        (msgRecord env 0 facility eventType severity ⟨format, hfits⟩).data) := by
  rw [mkEvlRecOf, formatNoArgs_of_plain hplain, Option.map_some,
    List.take_of_length_le (Nat.le_sub_one_of_lt hfits)]
  rfl

def RecordOf (event : List UInt8) (record : Option (PosixLogEntry × List UInt8)) : Prop :=
  ∃ entry, record = some (entry, event ++ [0]) ∧ entry.logSize.toNat = event.length + 1 ∧
    entry.logSize.toNat ≤ posixLogEntryMaxlen

theorem recordOf_iff (env : ProcInfo) (facility : UInt32) (eventType severity : Int32) {event : List UInt8}
    (hfits : event.length < posixLogEntryMaxlen) :
    RecordOf event (mkEvlRecOf env facility eventType severity event) ↔ 0x25 ∉ event := by
  constructor
  · rintro ⟨entry, hrecord, hsize, -⟩ hmem
    obtain ⟨text, htext, heq⟩ := Option.map_eq_some_iff.1 hrecord
    have hlt := (length_formatNoArgs htext).2 hmem
    have hdata := congrArg List.length (congrArg Prod.snd heq)
    simp only [List.length_append, List.length_take] at hdata
    omega
  · intro hplain
    rw [mkEvlRecOf_of_plain env facility eventType severity hplain hfits]
    have hrec := (msgRecord env 0 facility eventType severity ⟨event, hfits⟩).size_eq
    refine ⟨_, rfl, ?_, (msgRecord env 0 facility eventType severity ⟨event, hfits⟩).size_le⟩
    rw [← hrec]
    exact List.length_append

/-! ## The text of `writeDiscardEvent` -/

theorem length_decimal_le {n k : Nat} (h : n < 10 ^ k) (hk : 0 < k) : (CString.decimal n).length ≤ k := by
  rw [CString.decimal, List.length_map]
  exact (Nat.length_toDigits_le_iff (by decide) hk).2 h

theorem length_signedDecimal_le (n : Int32) : (CString.signedDecimal n.toInt).length ≤ 11 := by
  have hlower := n.le_toInt
  have hupper := n.toInt_lt
  have hdigits : (CString.decimal n.toInt.natAbs).length ≤ 10 := length_decimal_le (by omega) (by decide)
  unfold CString.signedDecimal
  split
  · exact Nat.succ_le_succ hdigits
  · omega

theorem length_hexText_le (n : UInt32) : (hexText n.toNat).length ≤ 8 := by
  rw [hexText, List.length_map]
  exact (Nat.length_toDigits_le_iff (by decide) (by decide)).2 n.toNat_lt

theorem length_discardText_le (eventType count : Int32) : (discardText eventType count).length ≤ 78 := by
  have hcount := length_signedDecimal_le count
  have htype := length_hexText_le eventType.toUInt32
  have hfirst : (cBytes "Discarded ").length = 10 := rfl
  have hsecond : (cBytes " duplicate events, event_type = 0x").length = 34 := rfl
  have hthird : (cBytes ", facility = ").length = 13 := rfl
  simp only [discardText, List.length_append]
  omega

theorem percent_not_mem_signedDecimal (n : Int) : 0x25 ∉ CString.signedDecimal n := by
  have hdecimal : 0x25 ∉ CString.decimal n.natAbs := fun h => absurd (CString.isDigit_of_mem_decimal h) (by decide)
  unfold CString.signedDecimal
  split
  · intro hmem
    rcases List.mem_cons.1 hmem with hmem | hmem
    · cases hmem
    · exact hdecimal hmem
  · exact hdecimal

theorem percent_not_mem_hexText (n : Nat) : 0x25 ∉ hexText n := by
  rw [hexText]
  induction n using Nat.strong_induction_on with
  | _ n ih =>
    have hdigit : ∀ d < 16, (Nat.digitChar d).toNat.toUInt8 ≠ 0x25 := by decide
    rw [Nat.toDigits_eq_if (by decide)]
    split
    · next hn => simpa using (hdigit n hn).symm
    · next hn =>
      have hlast := hdigit (n % 16) (Nat.mod_lt _ (by decide))
      rw [List.map_append, List.mem_append, not_or]
      exact ⟨ih (n / 16) (by omega), by simpa using hlast.symm⟩

theorem percent_not_mem_discardText (eventType count : Int32) : 0x25 ∉ discardText eventType count := by
  have hfirst : 0x25 ∉ cBytes "Discarded " := by decide
  have hsecond : 0x25 ∉ cBytes " duplicate events, event_type = 0x" := by decide
  have hthird : 0x25 ∉ cBytes ", facility = " := by decide
  have hcount := percent_not_mem_signedDecimal count.toInt
  have htype := percent_not_mem_hexText eventType.toUInt32.toNat
  simp only [discardText, List.mem_append, not_or]
  exact ⟨⟨⟨⟨hfirst, hcount⟩, hsecond⟩, htype⟩, hthird⟩

theorem discardEvent_eq (facNum : UInt32) (eventType count : Int32) (fname : Option FacilityName) :
    discardEvent facNum eventType count fname = discardText eventType count ++
      match fname with
      | none => CString.signedDecimal facNum.toInt32.toInt
      | some name => name.bytes := by
  have hfront := length_discardText_le eventType count
  have hmax : posixLogMemstrMaxlen = 128 := rfl
  refine List.take_of_length_le ?_
  rw [List.length_append]
  cases fname with
  | none =>
    have hnum := length_signedDecimal_le facNum.toInt32
    dsimp only
    omega
  | some name =>
    have hname := name.short
    dsimp only
    omega

theorem percent_mem_discardEvent (facNum : UInt32) (eventType count : Int32) (fname : Option FacilityName) :
    0x25 ∈ discardEvent facNum eventType count fname ↔ ∃ name, fname = some name ∧ 0x25 ∈ name.bytes := by
  have hfront := percent_not_mem_discardText eventType count
  rw [discardEvent_eq, List.mem_append]
  cases fname with
  | none => simpa [hfront] using percent_not_mem_signedDecimal facNum.toInt32.toInt
  | some name => simp [hfront]

/-- The record that `writeDiscardEvent` logs has the text it composed. -/
theorem recordOf_discardEvent_iff (env : ProcInfo) (facNum : UInt32) (eventType count : Int32)
    (fname : Option FacilityName) :
    RecordOf (discardEvent facNum eventType count fname) (writeDiscardEvent env facNum eventType count fname) ↔
      ∀ name, fname = some name → 0x25 ∉ name.bytes := by
  have hfits : (discardEvent facNum eventType count fname).length < posixLogEntryMaxlen := by
    refine lt_of_le_of_lt (List.length_take_le _ _) ?_
    decide
  rw [writeDiscardEvent, recordOf_iff _ _ _ _ hfits, percent_mem_discardEvent]
  simp

/-! ## What `vwrite_evlog` sends -/

def SyslogVars.Masked (vars : SyslogVars) (pri : Int32) : Prop :=
  (1 <<< (pri &&& (logPrimask ||| logFacmask) &&& logPrimask)) &&& vars.logMask = 0

/-- The room that `evlbuf` has behind the header is enough, and so is
`writebuf`; what is sent, if anything, is a header and as many bytes as it
says, a prefix of the text and a NUL. -/
structure SendsPrefix (out : SyslogWrite) (text : List UInt8) : Prop where
  evlbuf : out.stored.length ≤ posixLogEntryMaxlen + 1
  writebuf : out.writebuf ≤ posixLogEntryMaxlen
  sent : ∀ entry body, out.sent = some (entry, body) →
    entry.logSize.toNat ≤ posixLogEntryMaxlen ∧ body.length = entry.logSize.toNat ∧
      ∃ front, front <+: text ∧ body = front ++ [0]

theorem vwriteEvlog_masked {vars : SyslogVars} {pri : Int32} (h : vars.Masked pri) (env : ProcInfo)
    (stack : PosixLogEntry) (connected : Bool) (message : List UInt8) :
    vwriteEvlog vars env stack connected pri message = ⟨[], 0, none⟩ := if_pos h

/-- What is not masked out is stored; the header of a text that is not cut
off says how long it is. -/
theorem vwriteEvlog_unmasked {vars : SyslogVars} {pri : Int32} (h : ¬vars.Masked pri) (env : ProcInfo)
    (stack : PosixLogEntry) (connected : Bool) (message : List UInt8) :
    ∃ entry, vwriteEvlog vars env stack connected pri message =
        evlSysWriteEx connected entry (vars.front env ++ message.take (posixLogEntryMaxlen - 1) ++ [0]) ∧
      ((vars.front env).length + message.length ≤ posixLogEntryMaxlen →
        entry.logSize.toNat = (vars.front env).length + message.length + 1 ∧ entry.logFlags = 0) := by
  refine ⟨_, if_neg h, fun hfits => ?_⟩
  have hmax : posixLogEntryMaxlen = 8192 := rfl
  have hlength : vsnprintfLength message = message.length := if_pos (by omega)
  have hcut : ¬(posixLogEntryMaxlen : Int) < (vars.front env).length + vsnprintfLength message := by omega
  dsimp only
  rw [if_neg hcut, if_neg hcut, hlength]
  refine ⟨?_, rfl⟩
  have hnat : ((vars.front env).length + message.length + 1 : Int) =
      ((vars.front env).length + message.length + 1 : Nat) := by push_cast; rfl
  rw [hnat, UInt64.ofInt, Int.emod_eq_of_lt (Int.natCast_nonneg _) (by omega), Int.toNat_natCast,
    UInt64.toNat_ofNat_of_lt' (by rw [UInt64.size]; omega)]

/-- `evlbuf` and what is sent, for a text of any length. -/
theorem sendsPrefix_iff (vars : SyslogVars) (env : ProcInfo) (stack : PosixLogEntry) (connected : Bool)
    (pri : Int32) (message : List UInt8) :
    SendsPrefix (vwriteEvlog vars env stack connected pri message) (vars.front env ++ message) ↔
      vars.Masked pri ∨ (vars.front env ++ message).length + 1 ≤ posixLogEntryMaxlen ∨
        (connected = false ∧ (vars.front env ++ message).length ≤ posixLogEntryMaxlen) := by
  have hfront : 2 ≤ (vars.front env).length := by
    simp only [SyslogVars.front, List.length_append, List.length_cons, List.length_nil]
    omega
  have hlength : (vars.front env ++ message).length = (vars.front env).length + message.length :=
    List.length_append
  by_cases hmask : vars.Masked pri
  · rw [vwriteEvlog_masked hmask]
    refine ⟨fun _ => .inl hmask, fun _ => ⟨Nat.zero_le _, Nat.zero_le _, ?_⟩⟩
    intro entry body hsent
    cases hsent
  · obtain ⟨entry, hcall, hentry⟩ := vwriteEvlog_unmasked hmask env stack connected message
    have hstored : (vars.front env ++ message.take (posixLogEntryMaxlen - 1) ++ [0]).length =
        (vars.front env).length + min (posixLogEntryMaxlen - 1) message.length + 1 := by
      rw [List.length_append, List.length_append, List.length_take, List.length_singleton]
    rw [hcall]
    constructor
    · intro hsends
      have hroom : (vars.front env ++ message).length ≤ posixLogEntryMaxlen := by
        have hevlbuf := hsends.evlbuf
        rw [evlSysWriteEx_stored, hstored] at hevlbuf
        omega
      cases connected with
      | false => exact .inr (.inr ⟨rfl, hroom⟩)
      | true =>
        have hsize := (hsends.sent entry _ rfl).1
        have hsaid := (hentry (hlength ▸ hroom)).1
        exact .inr (.inl (by omega))
    · intro hcond
      have hroom : (vars.front env).length + message.length ≤ posixLogEntryMaxlen := by
        rcases hcond with hcond | hcond | hcond
        · exact absurd hcond hmask
        · omega
        · omega
      obtain ⟨hsize, hflags⟩ := hentry hroom
      have hwhole : vars.front env ++ message.take (posixLogEntryMaxlen - 1) = vars.front env ++ message := by
        rw [List.take_of_length_le (by omega)]
      cases connected with
      | false =>
        refine ⟨?_, Nat.zero_le _, ?_⟩
        · rw [evlSysWriteEx_stored, hstored]
          omega
        · intro entry' body hsent
          cases hsent
      | true =>
        have hfits : (vars.front env).length + message.length + 1 ≤ posixLogEntryMaxlen := by
          rcases hcond with hcond | hcond | hcond
          · exact absurd hcond hmask
          · omega
          · cases hcond.1
        have hbody : (vars.front env ++ message ++ [0]).take entry.logSize.toNat = vars.front env ++ message ++ [0] := by
          refine List.take_of_length_le ?_
          rw [List.length_append, hlength, hsize]
          exact le_rfl
        refine ⟨?_, ?_, ?_⟩
        · rw [evlSysWriteEx_stored, hstored]
          omega
        · simp [evlSysWriteEx, hflags]
        · intro entry' body hsent
          rw [hwhole] at hsent
          cases hsent
          rw [hbody, hsize]
          refine ⟨hfits, ?_, vars.front env ++ message, List.prefix_rfl, rfl⟩
          rw [List.length_append, hlength]
          rfl

/-! ## Both -/

/-- Where the string records that the code puts together are as they were
composed: a facility's name has no '%', and the text with its NUL fits in a
record. -/
theorem stringRecords_iff (env : ProcInfo) (facNum : UInt32) (eventType count : Int32) (fname : Option FacilityName)
    (vars : SyslogVars) (stack : PosixLogEntry) (connected : Bool) (pri : Int32) (message : List UInt8) :
    (RecordOf (discardEvent facNum eventType count fname) (writeDiscardEvent env facNum eventType count fname) ↔
      ∀ name, fname = some name → 0x25 ∉ name.bytes) ∧
    (SendsPrefix (vwriteEvlog vars env stack connected pri message) (vars.front env ++ message) ↔
      vars.Masked pri ∨ (vars.front env ++ message).length + 1 ≤ posixLogEntryMaxlen ∨
        (connected = false ∧ (vars.front env ++ message).length ≤ posixLogEntryMaxlen)) :=
  ⟨recordOf_discardEvent_iff env facNum eventType count fname,
    sendsPrefix_iff vars env stack connected pri message⟩

def percentName : FacilityName := ⟨[0x61, 0x25, 0x25], by decide, by decide⟩

/-- `openlog("cron", 0, LOG_USER)`. -/
def cronVars : SyslogVars := ⟨0xff, 8, 0, some (cBytes "cron"), []⟩

def initProc : ProcInfo := ⟨0, 0, 0, 1, 1, 0⟩

/-- One '%' is lost; and a message of 8186 characters is sent with a size of
8193. -/
theorem percent_is_lost_and_long_is_sent :
    ¬RecordOf (discardEvent 200 5 3 (some percentName)) (writeDiscardEvent initProc 200 5 3 (some percentName)) ∧
      ¬SendsPrefix (vwriteEvlog cronVars initProc (PosixLogEntry.ofBytes []) true 6 (List.replicate 8186 0x78))
        (cronVars.front initProc ++ List.replicate 8186 0x78) := by
  constructor
  · rw [recordOf_discardEvent_iff]
    intro h
    exact absurd (h percentName rfl) (by decide)
  · have hlength : (cronVars.front initProc ++ List.replicate 8186 0x78).length = 8192 := by
      rw [List.length_append, List.length_replicate]
      rfl
    have hmask : ¬cronVars.Masked 6 := by
      unfold SyslogVars.Masked
      decide
    rw [sendsPrefix_iff, hlength]
    rintro (h | h | h)
    · exact hmask h
    · exact absurd h (by decide)
    · cases h.1

end Evlog.Evlogd
