/-
Evlog.Posix.FacilityFile — reading the facility registry (facreg.c,
evl_common.c).

The file is read line by line, 199 bytes at most. A line is split into
fields, the fields are checked, and what looks good is added to the table.
An error is counted (`badFac`), and reading goes on; a table is returned
only if none was counted.

`posix_log_query_create` is known by two things: whether somebody else has
the lock when a line is read (`busy`), and what it makes of a filter if not
(`check`).
-/
import Evlog.Lib.CString
import Evlog.Lib.OpenFile
import Evlog.Posix.FacilityHash

namespace Evlog.Posix

open Evlog.Lib

/-! ## `_evlSplitCmd` -/

def isBlank (c : UInt8) : Bool := c = 0x20 || c = 0x09

def isQuote (c : UInt8) : Bool := c = 0x22 || c = 0x27

structure Token where
  start : Nat
  text : List UInt8
  deriving DecidableEq, Repr

/-- A token that starts with a quote and ends with one loses both. -/
def Token.unquote (tok : Token) : Token :=
  if tok.text.head?.any isQuote ∧ tok.text.getLast?.any isQuote then
    ⟨tok.start + 1, tok.text.tail.dropLast⟩
  else tok

/-- The loop of `_evlSplitCmd`: the tokens so far, `tmp` and the text behind
it, the two flags for quotes, and whether white space is being eaten. -/
structure Split where
  argv : List Token
  tmp : Nat
  text : List UInt8
  dbquoteOpen : Bool
  squoteOpen : Bool
  eating : Bool

def Split.token (st : Split) : Token := Token.unquote ⟨st.tmp, st.text⟩

def splitLoop (n : Nat) (st : Split) : List UInt8 → List Token
  | [] =>
    if n ≤ st.argv.length then st.argv
    else if st.dbquoteOpen || st.squoteOpen then st.argv
    else st.argv ++ [st.token]
  | c :: rest =>
    if st.eating && isBlank c then splitLoop n { st with tmp := st.tmp + 1 } rest
    else if n ≤ st.argv.length then st.argv
    else if isBlank c && !st.dbquoteOpen && !st.squoteOpen then
      splitLoop n ⟨st.argv ++ [st.token], st.tmp + st.text.length + 1, [], false, false, true⟩ rest
    else
      splitLoop n
        ⟨st.argv, st.tmp, st.text ++ [c],
          if c = 0x22 ∧ st.squoteOpen = false then !st.dbquoteOpen else st.dbquoteOpen,
          if c = 0x27 ∧ st.dbquoteOpen = false then !st.squoteOpen else st.squoteOpen, false⟩ rest

def evlSplitCmd (cmdbuf : List UInt8) (n : Nat) : List Token :=
  splitLoop n ⟨[], 0, [], false, false, false⟩ cmdbuf

/-! ## `strtoul(s, &endp, 0)` -/

def isHexDigit (b : UInt8) : Bool :=
  isdigit b || (0x41 ≤ b && b ≤ 0x46) || (0x61 ≤ b && b ≤ 0x66)

def digitOf (b : UInt8) : Nat :=
  if isdigit b then b.toNat - 0x30 else if 0x61 ≤ b then b.toNat - 0x57 else b.toNat - 0x37

def isDigitOf (base : Nat) (b : UInt8) : Bool := isHexDigit b && decide (digitOf b < base)

def baseOf : List UInt8 → Nat × List UInt8
  | 0x30 :: x :: h :: rest =>
    if (x = 0x78 ∨ x = 0x58) ∧ isHexDigit h = true then (16, h :: rest) else (8, 0x30 :: x :: h :: rest)
  | 0x30 :: rest => (8, 0x30 :: rest)
  | u => (10, u)

def numberOf (base : Nat) (digits : List UInt8) : Nat :=
  digits.foldl (fun n d => base * n + digitOf d) 0

/-- `strtoul(s, &endp, 0)`: the value, and how far `endp` is behind `s`. -/
def strtoul0 (s : List UInt8) : UInt64 × Nat :=
  let sign := CString.sign (s.dropWhile CString.isSpace)
  let number := baseOf sign.2
  let digits := number.2.takeWhile (isDigitOf number.1)
  if digits = [] then (0, 0)
  else
    let n := numberOf number.1 digits
    (if n < 2 ^ 64 then (if sign.1 then -UInt64.ofNat n else UInt64.ofNat n) else 0xffffffffffffffff,
      s.length - (number.2.length - digits.length))

/-! ## A line -/

def evlFaccPrivate : UInt32 := 0x1
def evlFaccKern : UInt32 := 0x2

/-- `"private"`. -/
def privateWord : List UInt8 := [0x70, 0x72, 0x69, 0x76, 0x61, 0x74, 0x65]

/-- `"kernel"`. -/
def kernelWord : List UInt8 := [0x6b, 0x65, 0x72, 0x6e, 0x65, 0x6c]

def takeFlag (word : List UInt8) (flag : UInt32) : List (List UInt8) → UInt32 × List (List UInt8)
  | param :: params => if param = word then (flag, params) else (0, param :: params)
  | [] => (0, [])

/-- `_evlCollectOptionalFacParams` of the parameters behind code and name. -/
def evlCollectOptionalFacParams (params : List (List UInt8)) : Option (UInt32 × Option (List UInt8)) :=
  let priv := takeFlag privateWord evlFaccPrivate params
  let kern := takeFlag kernelWord evlFaccKern priv.2
  match kern.2 with
  | [] => some (priv.1 ||| kern.1, none)
  | [filter] => some (priv.1 ||| kern.1, some filter)
  | _ => none

/-- What a line comes to before the registry is looked at. -/
inductive LineRead where
  | comment
  | bad
  | entry (facNum : UInt64) (facName : List UInt8) (accessFlags : UInt32) (filter : Option (List UInt8))
  deriving DecidableEq, Repr

/-- The fields of a line, as far as they are checked by themselves. -/
def readFields (tokens : List Token) : LineRead :=
  match tokens with
  | code :: name :: params =>
    if 3 < params.length then .bad
    else
      let (facNum, length) := strtoul0 code.text
      if code.start + length = 0 then .bad
      else if facNum = evlInvalidFacility.toUInt64 then .bad
      else if name.start = code.start + length then .bad
      else
        let facName := name.text.take (posixLogMemstrMaxlen - 1)
        match evlCollectOptionalFacParams (params.map (·.text)) with
        | none => .bad
        | some (accessFlags, filter) => .entry facNum facName accessFlags filter
  | _ => .bad

/-- A line as `fgets` returns it. -/
def readLine (line : List UInt8) : LineRead :=
  if line.head? = some 0x23 then .comment
  else
    let string := (CString.ofBuf line).bytes
    let string := if string.getLast? = some 0x0a then string.dropLast else string
    readFields (evlSplitCmd string 6)

/-! ## The registry -/

variable {Query : Type}

/-- `_evlCIStrcmp(s, t) == 0`. -/
def sameName (s t : List UInt8) : Bool := s.map asciiUpper == t.map asciiUpper

def getFacCodeByCIName (name : List UInt8) (facReg : FacilityRegistry Query) : UInt32 :=
  match facReg.frHash.reduceOption.find? fun fac => sameName fac.faName name with
  | some fac => fac.faCode
  | none => evlInvalidFacility

/-- `checkPosixFacility`: the entry is not at odds with a standard facility. -/
def checkPosixFacility (facNum : UInt32) (facName : List UInt8) : Bool :=
  match linuxFacilityByCIName facName with
  | some posixFacNum => facNum = posixFacNum
  | none => !evlLinuxFacilities.any fun nv => nv.1 == facNum

/-- The registry under construction, and `nErrors`. -/
structure Reading (Query : Type) where
  newFacReg : FacilityRegistry Query
  nErrors : Nat

def Reading.badFac (st : Reading Query) : Reading Query := { st with nErrors := st.nErrors + 1 }

/-- `posix_log_query_create` of a filter. -/
def posixLogQueryCreateOf (busy : Bool) (check : List UInt8 → Except Errno Query)
    (filter : List UInt8) : Except Errno Query :=
  if busy then .error .ebusy else check filter

/-- The query for the filter of an entry; the outer `none` is a filter that
makes none. -/
def queryFor (busy : Bool) (check : List UInt8 → Except Errno Query) :
    Option (List UInt8) → Option (Option Query)
  | none => some none
  | some filter =>
    match posixLogQueryCreateOf busy check filter with
    | .ok query => some (some query)
    | .error e => if e = .ebusy then some none else none

/-- An entry that looks good is checked against the registry and added. -/
def addEntry (busy : Bool) (check : List UInt8 → Except Errno Query) (st : Reading Query)
    (facNum : UInt32) (facName : List UInt8) (accessFlags : UInt32) (filter : Option (List UInt8)) :
    Option (Reading Query) :=
  (facByCode facNum st.newFacReg).bind fun dup =>
    if dup.isSome then some st.badFac
    else if getFacCodeByCIName facName st.newFacReg ≠ evlInvalidFacility then some st.badFac
    else if checkPosixFacility facNum facName = false then some st.badFac
    else
      match queryFor busy check filter with
      | none => some st   -- a message, but no error is counted
      | some query =>
        (addFacToHash st.newFacReg ⟨facNum, facName, accessFlags, filter, query⟩).map fun facReg =>
          { st with newFacReg := facReg }

/-- What `fgets` returns, and whether the lock is taken then. -/
structure Chunk where
  busy : Bool
  line : List UInt8

/-- One turn of the loop of `_evlReadFacilities`. -/
def readTurn (check : List UInt8 → Except Errno Query) (st : Reading Query) (piece : Chunk) :
    Option (Reading Query) :=
  match readLine piece.line with
  | .comment => some st
  | .bad => some st.badFac
  | .entry facNum facName accessFlags filter =>
    -- the code is a long so far
    addEntry piece.busy check st facNum.toUInt32 facName accessFlags filter

def readTurns (check : List UInt8 → Except Errno Query) (st : Reading Query) :
    List Chunk → Option (Reading Query)
  | [] => some st
  | piece :: pieces => (readTurn check st piece).bind fun st => readTurns check st pieces

/-- `checkMissingPosixFacilities`: the standard facilities that the registry
does not have. -/
def missingPosixFacilities (facReg : FacilityRegistry Query) : Nat :=
  (evlLinuxFacilities.filter fun nv => (facByCode nv.1 facReg).join.isNone).length

def isNewline (b : UInt8) : Bool := b = 0x0a

/-- The lines as `fgets(line, 200, f)` returns them. -/
def fgetsLines (content : List UInt8) : List (List UInt8) :=
  fgetsAll isNewline 199 content.length content

def chunksOf (busy : Nat → Bool) (content : List UInt8) : List Chunk :=
  (fgetsLines content).zipIdx.map fun line => ⟨busy line.2, line.1⟩

/-- `_evlReadFacilities`; `none` for the content is a file that cannot be
read. -/
def evlReadFacilities (busy : Nat → Bool) (check : List UInt8 → Except Errno Query) (faCapacity : Nat)
    (content : Option (List UInt8)) : Option (Option (FacilityRegistry Query)) :=
  match content with
  | none => some none
  | some content =>
    (allocFacReg Query faCapacity).bind fun facReg =>
      (readTurns check ⟨facReg, 0⟩ (chunksOf busy content)).map fun st =>
        if st.nErrors + missingPosixFacilities st.newFacReg = 0 then some st.newFacReg else none

/-! ## The registry in use -/

/-- `facilities` and `faCapacity`. -/
structure InUse (Query : Type) where
  facilities : Option (FacilityRegistry Query)
  faCapacity : Nat

def logAuthpriv : UInt32 := (10 : UInt32) <<< (3 : UInt32)

def setUpDefaultRegistry (Query : Type) (faCapacity : Nat) : Option (FacilityRegistry Query) :=
  (allocFacReg Query faCapacity).bind fun facReg =>
    addFacs facReg (evlLinuxFacilities.map fun nv =>
      ⟨nv.1, nv.2.toList.map fun c => UInt8.ofNat c.toNat,
        if nv.1 = logAuthpriv then evlFaccPrivate else 0, none, none⟩)

/-- `syncFacilities`; `upToDate` is what `facRegUpToDate` returns. -/
def syncFacilities (busy : Nat → Bool) (check : List UInt8 → Except Errno Query) (upToDate : Bool)
    (content : Option (List UInt8)) (st : InUse Query) : Option (InUse Query) :=
  if st.facilities.isSome && upToDate then some st
  else
    (evlReadFacilities busy check st.faCapacity content).bind fun
      | some facReg => some ⟨some facReg, facReg.frHash.length⟩
      | none =>
        match st.facilities with
        | some _ => some st
        | none => (setUpDefaultRegistry Query st.faCapacity).map fun facReg => { st with facilities := some facReg }

end Evlog.Posix
