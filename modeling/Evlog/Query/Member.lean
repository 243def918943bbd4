/-
Evlog.Query.Member — members of an event record as text.

The tables of posix_evlsup.c, `posix_log_memtostr` (posix1.c) and the
host names of tmplfmt.c: what a query uses to turn a name into a number
and a member of a record into a string.

`System` is what these functions learn from outside: the clock, the user,
group, facility and host data bases, the C library's `strftime`,
`regcomp` and `regexec`, and the CRC of crc32.c. The names of facilities and
what `strftime` gives come with the bound their source guarantees,
`POSIX_LOG_MEMSTR_MAXLEN`. A `char` is a `Char` below 256.
-/
import Evlog.Lib.OpenFile
import Evlog.Posix.Entry
import Evlog.Query.Tree

namespace Evlog.Query

open Evlog.Lib Evlog.Posix

/-! ## Surroundings -/

structure System where
  /-- `time(NULL)`. -/
  time : Int64
  /-- `_evlGetHostName()`. -/
  hostName : String
  /-- The contents of /etc/evlog.d/evlhosts, in file order. -/
  evlhosts : List (String × Int32)
  getpwnam : String → Option UInt32
  getgrnam : String → Option UInt32
  getpwuid : UInt32 → Option String
  getgrgid : UInt32 → Option String
  /-- `_evlGetFacilityCodeByCIName`. -/
  facilityCode : String → UInt32
  /-- `_evlGetFacilityName`. -/
  facilityName : UInt32 → Option String
  /-- `strftime` of a time stamp in the local time zone with
  `evl_time_format`. -/
  strftime : Int64 → String
  /-- `regcomp(REG_EXTENDED | REG_NOSUB)`; an error is `regerror`'s text. -/
  regcomp : String → Except String Unit
  /-- Does `regexec` find a match of the pattern in the text? -/
  regexec : String → String → Bool
  /-- `_evlCrc32`. -/
  evlCrc32 : String → UInt32
  /-- What the stack holds where `posix_log_memtostr` puts its buffer. -/
  uninitialized : String
  facilityName_length : ∀ f s, facilityName f = some s → s.length < posixLogMemstrMaxlen
  strftime_length : ∀ t, (strftime t).length < posixLogMemstrMaxlen

/-- A host without users, groups, named facilities or other hosts, on
which no pattern matches. -/
def System.bare : System where
  time := 0
  hostName := "localhost"
  evlhosts := []
  getpwnam := fun _ => none
  getgrnam := fun _ => none
  getpwuid := fun _ => none
  getgrgid := fun _ => none
  facilityCode := fun _ => 0xffffffff
  facilityName := fun _ => none
  strftime := fun _ => ""
  regcomp := fun _ => .ok ()
  regexec := fun _ _ => false
  evlCrc32 := fun _ => 0
  uninitialized := ""
  facilityName_length := by simp
  strftime_length := by simp [posixLogMemstrMaxlen]

/-! ## Name tables of posix_evlsup.c -/

/-- A table of `struct _evlNvPair`, up to its null entry. -/
abbrev NvTable := List (Int32 × String)

def evlSeverities : NvTable :=
  [(0, "EMERG"), (1, "ALERT"), (2, "CRIT"), (3, "ERR"), (4, "WARNING"), (5, "NOTICE"),
   (6, "INFO"), (7, "DEBUG")]

def evlFormats : NvTable :=
  [(posixLogNodata, "NODATA"), (posixLogBinary, "BINARY"), (posixLogString, "STRING"),
   (posixLogPrintf, "PRINTF")]

def evlMgmtEventTypes : NvTable :=
  [(1, "MGMT_TIMEMARK"), (2, "MGMT_STARTMAINT"), (3, "MGMT_ENDMAINT"), (4, "MGMT_STOPLOGGING"),
   (5, "MGMT_STARTLOGGING")]

/-- `_evlAttributes`, with the selectors themselves in place of their
numbers. -/
def evlAttributes : List (Selector × String) :=
  [(.recid, "recid"), (.size, "size"), (.format, "format"), (.eventType, "event_type"),
   (.facility, "facility"), (.severity, "severity"), (.uid, "uid"), (.gid, "gid"),
   (.pid, "pid"), (.pgrp, "pgrp"), (.time, "time"), (.flags, "flags"), (.thread, "thread"),
   (.processor, "processor")]

/-- `snprintf` of `%d`. -/
def decimal (n : Int) : String := if n < 0 then "-" ++ n.natAbs.repr else n.natAbs.repr

/-- `snprintf` of `0x%x`. -/
def hex (n : UInt32) : String := "0x" ++ String.ofList (Nat.toDigits 16 n.toNat)

/-- `_evlGetNameByValue` without a default: the number itself. -/
def evlGetNameByValue (table : NvTable) (value : Int32) : String :=
  match table.find? fun nv => nv.1 = value with
  | some nv => nv.2
  | none => decimal value.toInt

/-- `_evlGetValueByName(_evlAttributes, name, -1)`; `none` is -1. -/
def evlGetValueByName (name : String) : Option Selector :=
  (evlAttributes.find? fun nv => nv.2 = name).map (·.1)

/-- `_evlCIStrcmp(s1, s2) == 0`. -/
def evlCIStrEq (s1 s2 : String) : Bool :=
  s1.toList.map Char.toUpper = s2.toList.map Char.toUpper

/-- `_evlGetValueByCIName(table, name, -1)`; `none` is -1, which is no
value of the tables. -/
def evlGetValueByCIName (table : NvTable) (name : String) : Option Int32 :=
  (table.find? fun nv => evlCIStrEq nv.2 name).map (·.1)

/-! ## Host names of tmplfmt.c -/

def lookUpEvlHostName (sys : System) (nodeId : Int32) : String :=
  match sys.evlhosts.find? fun host => host.2 = nodeId with
  | some host => host.1
  | none => hex nodeId.toUInt32

def evlGetHostNameEx (sys : System) (nodeId : Int32) : String :=
  let nodeId := nodeId &&& 0x0000FFFF
  if nodeId = 0 then sys.hostName else lookUpEvlHostName sys nodeId

/-- `_evlGetNodeId`; -1 if there is no such host. -/
def evlGetNodeId (sys : System) (name : String) : Int32 :=
  if name = sys.hostName then 0
  else
    match sys.evlhosts.find? fun host => host.1 = name with
    | some host => host.2
    | none => -1

/-! ## `posix_log_memtostr` -/

/-- One `addFlag` call; the `Bool` is `anyPrevFlags`. -/
def addFlag (flags flag : UInt32) (flagName : String) (s : String × Bool) : String × Bool :=
  if flags &&& flag ≠ 0 then (s.1 ++ (if s.2 then "|" else " (") ++ flagName, true) else s

/-- The text of the member `flags`. -/
def flagsText (flags : UInt32) : String :=
  let s := addFlag flags posixLogTruncate "TRUNCATE"
    (addFlag flags evlInterrupt "INTERRUPT" (addFlag flags evlPrintk "PRINTK"
      (addFlag flags evlKernelEvent "KERNEL" (hex flags, false))))
  if s.2 then s.1 ++ ")" else s.1

/-- What the `switch` of `posix_log_memtostr` leaves in `s`. -/
def memberText (sys : System) (e : PosixLogEntry) : Selector → Except Errno String
  | .recid => .ok (decimal e.logRecid.toInt)
  | .size => .ok (e.logSize.toUInt32.toNat.repr)
  | .format => .ok (evlGetNameByValue evlFormats e.logFormat)
  | .eventType => .ok (hex e.logEventType.toUInt32)
  | .facility =>
    match sys.facilityName e.logFacility with
    | some name => .ok name
    | none => .ok (hex e.logFacility)
  | .severity => .ok (evlGetNameByValue evlSeverities e.logSeverity)
  | .uid =>
    -- a remote host's users are not looked up, and `s` stays as it was
    if e.logProcessor >>> 16 ≠ 0 then .ok sys.uninitialized
    else
      match sys.getpwuid e.logUid with
      | some name => .ok name
      | none => .ok (e.logUid.toNat.repr)
  | .gid =>
    match sys.getgrgid e.logGid with
    | some name => .ok name
    | none => .ok (e.logGid.toNat.repr)
  | .pid => .ok (decimal e.logPid.toInt)
  | .pgrp => .ok (decimal e.logPgrp.toInt)
  | .time =>
    .ok (String.ofList ((sys.strftime e.logTimeSec).toList.takeWhile fun c => c ≠ '\n'))
  | .flags => .ok (flagsText e.logFlags)
  | .thread => .ok (hex e.logThread.toUInt32)
  | .processor => .ok (decimal e.logProcessor.toInt)
  | .data | .age | .host => .error .einval

def posixLogMemtostr (sys : System) (sel : Selector) (e : PosixLogEntry) (buflen : Nat) :
    Except Errno String :=
  match memberText sys e sel with
  | .error err => .error err
  | .ok s => if s.length + 1 > buflen then .error .emsgsize else .ok s

/-! ## The texts fit -/

theorem natRepr_length_le {n k : Nat} (hk : 0 < k) (h : n < 10 ^ k) : n.repr.length ≤ k := by
  rw [← String.length_toList, Nat.toList_repr]
  exact (Nat.length_toDigits_le_iff (by omega) hk).mpr h

theorem decimal_int32_length (n : Int32) : (decimal n.toInt).length ≤ 11 := by
  have h₁ := n.le_toInt
  have h₂ := n.toInt_lt
  have hr := natRepr_length_le (n := n.toInt.natAbs) (k := 10) (by omega) (by omega)
  unfold decimal
  split
  · rw [String.length_append]
    have : "-".length = 1 := by decide
    omega
  · omega

theorem hex_length (n : UInt32) : (hex n).length ≤ 10 := by
  have hd : (Nat.toDigits 16 n.toNat).length ≤ 8 :=
    (Nat.length_toDigits_le_iff (by omega) (by omega)).mpr (by have := n.toNat_lt; omega)
  have h2 : "0x".length = 2 := by decide
  rw [hex, String.length_append, h2, String.length_ofList]
  omega

theorem evlGetNameByValue_length {table : NvTable} (h : ∀ nv ∈ table, nv.2.length ≤ 11)
    (value : Int32) : (evlGetNameByValue table value).length ≤ 11 := by
  unfold evlGetNameByValue
  split
  · next nv hnv => exact h nv (List.mem_of_find?_eq_some hnv)
  · exact decimal_int32_length value

def Selector.comparesAsText : Selector → Bool
  | .recid | .format | .facility | .severity | .time | .thread | .processor => true
  | _ => false

theorem posixLogMemtostr_comparesAsText (sys : System) {sel : Selector} (e : PosixLogEntry)
    (h : sel.comparesAsText = true) :
    ∃ s, posixLogMemtostr sys sel e posixLogMemstrMaxlen = .ok s := by
  have hshort : ∀ {s : String}, s.length ≤ 11 →
      ¬ s.length + 1 > posixLogMemstrMaxlen := by
    intro s hs
    simp only [posixLogMemstrMaxlen]
    omega
  have hfit : ∀ {s : String}, s.length < posixLogMemstrMaxlen →
      ¬ s.length + 1 > posixLogMemstrMaxlen := by
    intro s hs
    omega
  unfold posixLogMemtostr
  cases sel with
  | recid => exact ⟨_, if_neg (hshort (decimal_int32_length _))⟩
  | format => exact ⟨_, if_neg (hshort (evlGetNameByValue_length (by decide) _))⟩
  | severity => exact ⟨_, if_neg (hshort (evlGetNameByValue_length (by decide) _))⟩
  | thread => exact ⟨_, if_neg (hshort (Nat.le_succ_of_le (hex_length _)))⟩
  | processor => exact ⟨_, if_neg (hshort (decimal_int32_length _))⟩
  | facility =>
    simp only [memberText]
    cases hn : sys.facilityName e.logFacility with
    | none => exact ⟨_, if_neg (hshort (Nat.le_succ_of_le (hex_length _)))⟩
    | some name => exact ⟨_, if_neg (hfit (sys.facilityName_length _ _ hn))⟩
  | time =>
    refine ⟨_, if_neg (hfit ?_)⟩
    rw [String.length_ofList]
    calc _ ≤ (sys.strftime e.logTimeSec).toList.length :=
          (List.takeWhile_sublist _).length_le
      _ = (sys.strftime e.logTimeSec).length := String.length_toList
      _ < posixLogMemstrMaxlen := sys.strftime_length _
  | _ => simp [Selector.comparesAsText] at h

end Evlog.Query
