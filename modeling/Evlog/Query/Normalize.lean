/-
Evlog.Query.Normalize — normalize.c: from a parse tree to a tree that can
be evaluated.

Normalization turns names into selectors or into references to the list
of non-standard attributes, checks each comparison's operator and operand
against its attribute, and rewrites operands: `uid = root` becomes
`uid = 0`, the string of a `~` comparison a compiled regular expression,
`age < "2h"` a number of seconds.

The functions return the rewritten node, or the error message they leave
in `_evlQueryErrmsg` (empty where the source returns -1 without one). A
comparison is passed in pieces: the attribute's name, the operator, and the
right operand, which gets rewritten. The global list `_evlQNonStdAtts` is
passed along; the empty list is NULL. `nsaResultIfMissing` of a new entry is
set before it is read; the model stores `evlFuzzyMaybe`.
-/
import Evlog.Query.Member

namespace Evlog.Query

open Evlog.Posix

/-! ## Errors -/

def queryErrmsgMaxlen : Nat := 1024

/-- `semanticError`, followed by `return -1`. -/
def semanticError {α : Type} (msg : String) : Except String α :=
  .error (String.ofList (msg.toList.take (queryErrmsgMaxlen - 1)))

def standardIntOps : List Op := [.eq, .ne, .lt, .le, .gt, .ge]

def standardStringOps : List Op := [.eq, .ne, .contains]

def uidGidOps : List Op := [.eq, .ne]

/-- `return verifyOp(opNode, opTable)`, where `right` is the operand by
then. -/
def verifyOp (attName : String) (op : Op) (opTable : List Op) (right : PNode) :
    Except String PNode :=
  if op ∈ opTable then .ok right
  else semanticError ("Unsupported operation for " ++ attName ++ " attribute")

def wrongOperandType (attName : String) : Except String PNode :=
  semanticError ("Unsupported operand type for " ++ attName ++ " attribute")

/-! ## Operands -/

/-- `normalizeRegex` of a comparison with the string `s`: the compiled
expression, or `none` if it is no regular-expression operation. -/
def normalizeRegex (sys : System) (attName : String) (op : Op) (addr : Nat) (s : String) :
    Except String (Option PNode) :=
  if op = .reMatch ∨ op = .reNoMatch then
    match sys.regcomp s with
    | .ok () => .ok (some (.regex addr s))
    | .error errbuf =>
      semanticError ("Invalid regular expression for " ++ attName ++ " attribute: "
        ++ String.ofList (errbuf.toList.take 99))
  else .ok none

def normalizeStringOrRegex (sys : System) (attName : String) (op : Op) (addr : Nat) (s : String) :
    Except String PNode := do
  match ← normalizeRegex sys attName op addr s with
  | some right => .ok right
  | none => verifyOp attName op standardStringOps (.string addr s)

/-- The range check of `normalizeInteger` for an attribute of `size`
bytes. -/
def outOfRange (size : Nat) (minus : Bool) (uval : UInt64) : Bool :=
  if minus then
    let sval := uval.toInt64
    (size = 1 && (sval < -0x80 || sval > 0x7f)) || (size = 2 && (sval < -0x8000 || sval > 0x7fff))
      || (size = 4 && (sval < -0x80000000 || sval > 0x7fffffff))
  else
    (size = 1 && uval > 0xff) || (size = 2 && uval > 0xffff) || (size = 4 && uval > 0xffffffff)

def forceSignExtend (size : Nat) (minus : Bool) (uval : UInt64) : Bool :=
  !minus && ((size = 1 && uval > 0x7f) || (size = 2 && uval > 0x7fff)
    || (size = 4 && uval > 0x7fffffff))

/-- The sign extension of the low `size` bytes. -/
def signExtend (size : Nat) (uval : UInt64) : Int64 :=
  if size = 4 then uval.toUInt32.toInt32.toInt64
  else if size = 2 then uval.toUInt16.toInt16.toInt64
  else if size = 1 then uval.toUInt8.toInt8.toInt64
  else uval.toInt64

/-- `normalizeInteger`; `isSigned` is `sign == -1`. -/
def normalizeInteger (isSigned : Bool) (size : Nat) (attName : String) (right : PNode) :
    Except String PNode :=
  match right with
  | .val a minus uval =>
    if !isSigned && minus && uval ≠ 0 then
      semanticError (attName ++ " attribute requires unsigned operand")
    else if outOfRange size minus uval then
      semanticError (attName ++ " attribute's operand is out of range")
    else if isSigned && forceSignExtend size minus uval && size < 8 then
      .ok (.val a true (signExtend size uval).toUInt64)
    else .ok right
  | _ => semanticError (attName ++ " attribute requires integer operand")

/-- The usual integer attribute: `normalizeInteger`, then the operator. -/
def normalizeIntegerAtt (isSigned : Bool) (size : Nat) (attName : String) (op : Op)
    (right : PNode) : Except String PNode := do
  let right ← normalizeInteger isSigned size attName right
  verifyOp attName op standardIntOps right

/-- `changeNameNodeToInt` of the name or string `s`. -/
def changeNameNodeToInt (table : NvTable) (attName : String) (addr : Nat) (s : String) :
    Except String PNode :=
  match evlGetValueByCIName table s with
  | some code => .ok (.val addr true code.toInt64.toUInt64)
  | none => semanticError ("Unrecognized value for attribute " ++ attName ++ ": " ++ s)

/-- `isspace` in the C locale. -/
def isCSpace (c : Char) : Bool :=
  c = ' ' || c = '\t' || c = '\n' || c = '\x0b' || c = '\x0c' || c = '\r'

/-- `strtoul(s, &endp, 10)`: the value and what is left of the string. -/
def strtoul (s : List Char) : UInt64 × List Char :=
  let t := s.dropWhile isCSpace
  let (neg, u) : Bool × List Char :=
    match t with
    | '-' :: u => (true, u)
    | '+' :: u => (false, u)
    | u => (false, u)
  let digits := u.takeWhile Char.isDigit
  if digits = [] then (0, s)
  else
    let n := digits.foldl (fun n c => 10 * n + (c.toNat - 48)) 0
    let value : UInt64 :=
      if n < 2 ^ 64 then (if neg then -UInt64.ofNat n else UInt64.ofNat n)
      else 0xffffffffffffffff
    (value, u.dropWhile Char.isDigit)

/-- `parseAge`: seconds, or -1. -/
def parseAge (ageString : String) : Int32 :=
  let (value, unit) := strtoul ageString.toList
  let nsec := value.toUInt32
  if unit = ageString.toList then -1
  else
    match unit with
    | ['s'] => nsec.toInt32
    | ['m'] => (nsec * 60).toInt32
    | ['h'] => (nsec * (60 * 60)).toInt32
    | ['d'] => (nsec * (60 * 60 * 24)).toInt32
    | _ => -1

/-- The `while` loop of `evl_gen_event_type_v2` over severity codes. -/
def skipSeverityCodes : List Char → List Char
  | '<' :: d :: '>' :: rest =>
    if d.isDigit then skipSeverityCodes rest else '<' :: d :: '>' :: rest
  | cs => cs

/-- `evl_gen_event_type_v2` (syslogat.c). -/
def evlGenEventTypeV2 (sys : System) (fmt : String) : Int32 :=
  let text := skipSeverityCodes fmt.toList
  (sys.evlCrc32 (String.ofList (text.reverse.dropWhile (· = '\n')).reverse)).toInt32

/-! ## Standard attributes -/

def normalizeAttRecid (attName : String) (op : Op) (right : PNode) : Except String PNode :=
  match right with
  | .string _ _ => verifyOp attName op standardStringOps right
  | _ => normalizeIntegerAtt false 4 attName op right

def normalizeAttData (sys : System) (attName : String) (op : Op) (right : PNode) :
    Except String PNode :=
  match right with
  | .string a s => normalizeStringOrRegex sys attName op a s
  | _ => semanticError
      "Variable data can be compared only with a string or regular expression."

def normalizeAttSize (attName : String) (op : Op) (right : PNode) : Except String PNode :=
  normalizeIntegerAtt false 8 attName op right

def normalizeAttAge (attName : String) (op : Op) (right : PNode) : Except String PNode :=
  match right with
  | .val _ _ _ => do
    match ← normalizeInteger false 8 attName right with
    | .val a minus uval => verifyOp attName op standardIntOps (.val a minus (uval * (24 * 60 * 60)))
    | right => .ok right
  | .string a s =>
    let nsec := parseAge s
    if nsec < 0 then semanticError ("Unrecognized age specification: " ++ s)
    else verifyOp attName op standardIntOps (.val a false nsec.toInt64.toUInt64)
  | _ => wrongOperandType attName

/-- A node id written as `255.255`; `none` sends the string to the host
name lookup. -/
def parseNodeId (id : String) : Option (Except String Int32) :=
  match id.toList.dropWhile (· ≠ '.') with
  | [] => none
  | _ :: p =>
    let (upper, endp) := strtoul id.toList
    if endp.head? ≠ some '.' then none
    else
      let (lower, endp) := strtoul p
      if endp ≠ [] then none
      else
        let upperbyte := upper.toUInt32.toInt32
        let lowerbyte := lower.toUInt32.toInt32
        if upperbyte > 255 ∨ lowerbyte > 255 then some (semanticError "Invalid node id.")
        else some (.ok ((upperbyte <<< 8) + lowerbyte))

/-- `normalizeAttHost` of a comparison with the name or string `s`; `right`
is the operand as it stands. -/
def normalizeHostName (sys : System) (attName : String) (op : Op) (addr : Nat) (s : String)
    (right : PNode) : Except String PNode :=
  if op ≠ .reMatch ∧ op ≠ .reNoMatch ∧ op ≠ .contains then
    match parseNodeId s with
    | some (.error e) => .error e
    | some (.ok nodeId) =>
      verifyOp attName op standardIntOps (.val addr false nodeId.toInt64.toUInt64)
    | none =>
      let nodeId := evlGetNodeId sys s
      if nodeId = -1 then semanticError "Unrecognized host name"
      else .ok (.val addr false nodeId.toInt64.toUInt64)
  else if op = .contains then .ok right
  else do
    match ← normalizeRegex sys attName op addr s with
    | some right => .ok right
    | none => .error ""

def normalizeAttHost (sys : System) (attName : String) (op : Op) (right : PNode) :
    Except String PNode :=
  match right with
  | .val _ _ _ => do
    match ← normalizeInteger false 8 attName right with
    | .val a minus uval =>
      if uval.toInt64 < 0 ∨ uval.toInt64 > 0xffff then semanticError "Out of range"
      else verifyOp attName op standardIntOps (.val a minus uval)
    | right => .ok right
  | .string a s | .name a s => normalizeHostName sys attName op a s right
  | _ => .error ""

def normalizeAttFacility (sys : System) (attName : String) (op : Op) (right : PNode) :
    Except String PNode :=
  let changeName (a : Nat) (s : String) : Except String PNode :=
    let code := sys.facilityCode s
    if code = 0xffffffff then semanticError ("Unrecognized value for facility attribute: " ++ s)
    else verifyOp attName op [.eq, .ne] (.val a false code.toUInt64)
  match right with
  | .string a s => do
    match ← normalizeRegex sys attName op a s with
    | some right => .ok right
    | none => changeName a s
  | .name a s => changeName a s
  | _ => normalizeIntegerAtt false 4 attName op right

def normalizeAttSeverity (attName : String) (op : Op) (right : PNode) : Except String PNode :=
  match right with
  | .name a s => do
    let right ← changeNameNodeToInt evlSeverities attName a s
    verifyOp attName op standardIntOps right
  | .string _ _ => verifyOp attName op standardStringOps right
  | _ => wrongOperandType attName

def normalizeAttFormat (attName : String) (op : Op) (right : PNode) : Except String PNode :=
  match right with
  | .name a s => do
    let right ← changeNameNodeToInt evlFormats attName a s
    verifyOp attName op standardIntOps right
  | .string _ _ => verifyOp attName op standardStringOps right
  | .val _ _ _ => normalizeIntegerAtt false 4 attName op right
  | _ => .error ""

def normalizeAttEventType (sys : System) (attName : String) (op : Op) (right : PNode) :
    Except String PNode :=
  match right with
  | .name a s => do
    let right ← changeNameNodeToInt evlMgmtEventTypes attName a s
    verifyOp attName op standardIntOps right
  | .string a s =>
    verifyOp attName op [.eq, .ne] (.val a true (evlGenEventTypeV2 sys s).toInt64.toUInt64)
  | .val _ _ _ => normalizeIntegerAtt true 4 attName op right
  | _ => .error ""

/-- For `pid` and `pgrp`. -/
def normalizeAttPid (attName : String) (op : Op) (right : PNode) : Except String PNode :=
  normalizeIntegerAtt true 4 attName op right

def normalizeIdAtt (getnam : String → Option UInt32) (what attName : String) (op : Op)
    (right : PNode) : Except String PNode :=
  match right with
  | .val _ _ _ => normalizeIntegerAtt false 4 attName op right
  | .string a s | .name a s =>
    match getnam s with
    | some id => verifyOp attName op uidGidOps (.val a false id.toUInt64)
    | none => semanticError ("Unknown " ++ what ++ " name: \"" ++ s ++ "\"")
  | _ => wrongOperandType attName

def normalizeAttUid (sys : System) (attName : String) (op : Op) (right : PNode) :
    Except String PNode :=
  normalizeIdAtt sys.getpwnam "user" attName op right

def normalizeAttGid (sys : System) (attName : String) (op : Op) (right : PNode) :
    Except String PNode :=
  normalizeIdAtt sys.getgrnam "group" attName op right

/-- An integer attribute that can also be compared as text. -/
def normalizeIntegerOrText (sys : System) (size : Nat) (attName : String) (op : Op)
    (right : PNode) : Except String PNode :=
  match right with
  | .val _ _ _ => normalizeIntegerAtt true size attName op right
  | .string a s => normalizeStringOrRegex sys attName op a s
  | _ => wrongOperandType attName

def normalizeAttTime (sys : System) (attName : String) (op : Op) (right : PNode) :
    Except String PNode :=
  normalizeIntegerOrText sys 8 attName op right

/-- The table `nvFlags`. -/
def nvFlags : NvTable :=
  [(0x1, "POSIX_LOG_TRUNCATE"), (0x1, "TRUNCATE"), (0x2, "KERNEL"), (0x20, "PRINTK"),
   (0x10, "INTERRUPT")]

def normalizeAttFlags (attName : String) (op : Op) (right : PNode) : Except String PNode := do
  let right ← verifyOp attName op [.bitAnd] right
  match right with
  | .val _ _ _ => normalizeInteger false 4 attName right
  | .name a s => changeNameNodeToInt nvFlags attName a s
  | _ => wrongOperandType attName

def normalizeAttThread (attName : String) (op : Op) (right : PNode) : Except String PNode :=
  match right with
  | .val _ _ _ => normalizeIntegerAtt false 8 attName op right
  | .string _ _ => verifyOp attName op standardStringOps right
  | _ => wrongOperandType attName

def normalizeAttProcessor (sys : System) (attName : String) (op : Op) (right : PNode) :
    Except String PNode :=
  normalizeIntegerOrText sys 4 attName op right

/-- The `switch` of `normalizeComparison`. -/
def normalizeStdComparison (sys : System) (sel : Selector) (attName : String) (op : Op)
    (right : PNode) : Except String PNode :=
  match sel with
  | .data => normalizeAttData sys attName op right
  | .recid => normalizeAttRecid attName op right
  | .size => normalizeAttSize attName op right
  | .format => normalizeAttFormat attName op right
  | .eventType => normalizeAttEventType sys attName op right
  | .facility => normalizeAttFacility sys attName op right
  | .severity => normalizeAttSeverity attName op right
  | .uid => normalizeAttUid sys attName op right
  | .gid => normalizeAttGid sys attName op right
  | .pid => normalizeAttPid attName op right
  | .pgrp => normalizeAttPid attName op right
  | .time => normalizeAttTime sys attName op right
  | .flags => normalizeAttFlags attName op right
  | .thread => normalizeAttThread attName op right
  | .processor => normalizeAttProcessor sys attName op right
  | .age => normalizeAttAge attName op right
  | .host => normalizeAttHost sys attName op right

/-! ## Non-standard attributes -/

/-- The bits of `_evlQFlags` that normalization looks at. -/
structure Purpose where
  template : Bool
  restricted : Bool
  deriving DecidableEq, Repr

/-- `registerNonStdAtt`: the entry's position and the list with it. -/
def registerNonStdAtt (attName : String) (nsAtts : List NonStdAtt) : Nat × List NonStdAtt :=
  match nsAtts.findIdx? fun nsa => nsa.nsaName = attName with
  | some i => (i, nsAtts)
  | none =>
    (nsAtts.length, nsAtts ++
      [{ nsaName := attName, nsaResultIfMissing := evlFuzzyMaybe, numeric := false
         strref := attName.toList.contains '.', nsaAtt := nsAtts.length }])

def stdSelector (attName : String) : Option Selector :=
  match evlGetValueByName attName with
  | some sel => some sel
  | none =>
    if attName = "data" then some .data
    else if attName = "age" then some .age
    else if attName = "host" then some .host
    else none

/-- `makeAttnameNode` of the name node `(addr, attName)`. -/
def makeAttnameNode (purpose : Purpose) (addr : Nat) (attName : String)
    (nsAtts : List NonStdAtt) : Except String (PNode × List NonStdAtt) :=
  match stdSelector attName with
  | some sel =>
    if sel = .data ∧ purpose.restricted then
      semanticError "Cannot refer to data attribute in restricted query"
    else .ok (.attname addr sel attName, nsAtts)
  | none =>
    if purpose.template then
      let (i, nsAtts) := registerNonStdAtt attName nsAtts
      .ok (.nsaname addr i attName, nsAtts)
    else semanticError ("Unknown attribute: " ++ attName)

/-- `normalizeComparisonWithNonStdAtt`; `i` is the entry of the
attribute. -/
def normalizeComparisonWithNonStdAtt (sys : System) (i : Nat) (attName : String) (op : Op)
    (right : PNode) (nsAtts : List NonStdAtt) : Except String (PNode × List NonStdAtt) :=
  match right with
  | .val _ _ _ => do
    let nsAtts := nsAtts.modify i fun nsa => { nsa with numeric := true }
    let right ← normalizeIntegerAtt true 8 attName op right
    .ok (right, nsAtts)
  | .string a s => do
    let right ← normalizeStringOrRegex sys attName op a s
    .ok (right, nsAtts)
  | _ => do
    let right ← wrongOperandType attName
    .ok (right, nsAtts)

/-! ## The tree -/

def normalizeComparison (sys : System) (purpose : Purpose) (addr : Nat) (op : Op)
    (left right : PNode) (nsAtts : List NonStdAtt) : Except String (PNode × List NonStdAtt) :=
  match left with
  | .name b attName => do
    let (left, nsAtts) ← makeAttnameNode purpose b attName nsAtts
    match left with
    | .attname _ sel _ => do
      let right ← normalizeStdComparison sys sel attName op right
      .ok (.op addr op left right, nsAtts)
    | .nsaname _ i _ => do
      let (right, nsAtts) ← normalizeComparisonWithNonStdAtt sys i attName op right nsAtts
      .ok (.op addr op left right, nsAtts)
    | _ => .error ""
  | _ => .error ""

def evlQNormalizeTree (sys : System) (purpose : Purpose) :
    PNode → List NonStdAtt → Except String (PNode × List NonStdAtt)
  | .null, nsAtts => .ok (.null, nsAtts)
  | .name a s, nsAtts => makeAttnameNode purpose a s nsAtts
  | .attname _ _ s, _ | .nsaname _ _ s, _ =>
    semanticError ("nt_attname/nt_nsaname node " ++ s ++ " should already be normalized.")
  | .op a .not l r, nsAtts => do
    let (l, nsAtts) ← evlQNormalizeTree sys purpose l nsAtts
    .ok (.op a .not l r, nsAtts)
  | .op a .and l r, nsAtts => do
    let (l, nsAtts) ← evlQNormalizeTree sys purpose l nsAtts
    let (r, nsAtts) ← evlQNormalizeTree sys purpose r nsAtts
    .ok (.op a .and l r, nsAtts)
  | .op a .or l r, nsAtts => do
    let (l, nsAtts) ← evlQNormalizeTree sys purpose l nsAtts
    let (r, nsAtts) ← evlQNormalizeTree sys purpose r nsAtts
    .ok (.op a .or l r, nsAtts)
  | .op a o l r, nsAtts => normalizeComparison sys purpose a o l r nsAtts
  | n, nsAtts => .ok (n, nsAtts)

end Evlog.Query
