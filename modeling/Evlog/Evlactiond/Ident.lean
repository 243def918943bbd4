/-
Evlog.Evlactiond.Ident — the identity a match is counted under.

`any_str` lists names of attributes, with commas between: an action with a
threshold counts its matches apart for each combination of their values.
`getAnyIdentFromLog` makes a string of the values a record has, with
underscores between, in a buffer of its caller. `host` is no attribute; it
stands for the name of the host the record is from.

A record is known by its header and by what `evltemplate_getatt` finds in
its populated template: a type with its member of `ta_value`. What C leaves
undefined ends the run: a copy beyond the end of an array, a pointer to a
string where there is none, and two things that are the host name's.
`_evlGetHostNameEx` is not declared where it is called here, so an `int`
is made of the address it returns. And it reads the table of hosts when
there is none yet, with a `strtok` of its own, after which the one over
`any_str` goes on in the line that was read last.
-/
import Evlog.Lib.CString
import Evlog.Query.Evaluate

namespace Evlog.Evlactiond

open Evlog.Lib Evlog.Posix Evlog.Query

/-- What C does not define. -/
inductive Undefined where
  /-- A name does not fit into `attname`. -/
  | attname
  /-- A value does not fit into `att_value`. -/
  | attValue
  /-- The identity does not fit into `ident`. -/
  | ident
  /-- `val_string` points to no string. -/
  | valString
  /-- The address of the host name is no `int`. -/
  | hostAddr
  /-- `strtok` goes on in another string. -/
  | strtok
  deriving DecidableEq, Repr

/-! ## Attributes -/

/-- `ta_value`. -/
inductive Value where
  /-- `val_string`, with the string it points to. -/
  | string (s : CString)
  /-- `val_long`. -/
  | long (n : Int64)
  /-- A member that is for another type. -/
  | other
  /-- The record has no data for the attribute: the bits are what the last
  record left. -/
  | stale (bits : Int64)
  deriving DecidableEq, Repr

/-- The value is one of the type. An `int` is kept as a `long`. -/
def Value.Typed : Value → BaseType → Prop
  | .string _, ty => ty = .string
  | .long n, ty => ty = .long ∨ (ty = .int ∧ -2 ^ 31 ≤ n.toInt ∧ n.toInt < 2 ^ 31)
  | .other, ty => ty ≠ .string ∧ ty ≠ .int ∧ ty ≠ .long
  | .stale _, _ => True

/-- `evlattribute_t`, of an attribute that is no array. -/
structure IdentAtt where
  baseType : BaseType
  value : Value
  typed : value.Typed baseType

/-- `evl_getStringAttVal`, where a string is wanted. -/
def evlGetStringAttVal (att : IdentAtt) : Except Undefined CString :=
  match att.value with
  | .string s => .ok s
  | _ => .error .valString

/-- `evl_getLongAttVal`. Of a string that would be its address, but it is
never asked for. -/
def evlGetLongAttVal (att : IdentAtt) : Int64 :=
  match att.value with
  | .long n | .stale n => n
  | _ => 0

/-- `%d` of an `int`. -/
def printedInt (n : Int32) : CString :=
  if n < 0 then CString.append ⟨[45], by decide⟩ (.printed n.toInt.natAbs)
  else .printed n.toInt.natAbs

/-! ## Copies -/

/-- `sizeof(attname)`. -/
def attnameSize : Nat := 80

/-- `sizeof(att_value)`. -/
def attValueSize : Nat := 128

/-- `strcpy` to an array of that size. -/
def strcpy (size : Nat) (overrun : Undefined) (s : CString) : Except Undefined CString :=
  if s.bytes.length < size then .ok s else .error overrun

/-- `strcat` to what is in `ident`. -/
def strcat (isize : Nat) (ident s : CString) : Except Undefined CString :=
  strcpy isize .ident (ident.append s)

def underscore : UInt8 := 0x5f

theorem noNul_underscore : (0 : UInt8) ∉ [underscore] := by decide

def unsuportType : CString :=
  ⟨[0x75, 0x6e, 0x73, 0x75, 0x70, 0x6f, 0x72, 0x74, 0x5f, 0x74, 0x79, 0x70, 0x65], by decide⟩

/-- What `att_value` is filled with. `snprintf` takes an `int` where it is
given a `long`, and has always room for it. -/
def attValue (att : IdentAtt) : Except Undefined CString :=
  match att.baseType with
  | .string => do strcpy attValueSize .attValue (← evlGetStringAttVal att)
  | .int | .long => .ok (printedInt (evlGetLongAttVal att).toInt32)
  | _ => .ok unsuportType

/-- `buildIdentString`. `isize` is the size of `buf`; nothing looks at
it. -/
def buildIdentString (att : IdentAtt) (append : Bool) (buf : CString) (isize : Nat) :
    Except Undefined CString := do
  let value ← attValue att
  if append then do
    let buf ← strcat isize buf ⟨[underscore], noNul_underscore⟩
    strcat isize buf (← evlGetStringAttVal att)
  else strcpy isize .ident value

/-! ## The record -/

def hostWord : CString := ⟨[0x68, 0x6f, 0x73, 0x74], by decide⟩

def comma : UInt8 := 0x2c

/-- What `getRec` and `getPopulatedTemplate` come to. -/
structure PopulatedRecord where
  entry : PosixLogEntry
  /-- `getAtt`; `none` is NULL. -/
  getAtt : CString → Option IdentAtt
  /-- `evlhosts` is NULL yet, and there is a line to read in the file. -/
  loadsHosts : Bool

/-- What the host name depends on besides. -/
structure HostNames where
  sys : System
  /-- An address of a host name is still the same when it has been an
  `int`. -/
  addrIsInt : Bool

section

variable (H : HostNames) (r : PopulatedRecord)

/-- `entry.log_processor >> 16`. -/
def PopulatedRecord.nodeId : Int32 := r.entry.logProcessor >>> 16

/-- The string of `_evlGetHostNameEx`. -/
def HostNames.hostName : CString :=
  .ofBuf ((evlGetHostNameEx H.sys r.nodeId).toList.map fun c => c.toNat.toUInt8)

/-- `(char *)_evlGetHostNameEx(entry.log_processor >> 16)`, with the next
`strtok`. -/
def HostNames.evlGetHostNameEx : Except Undefined CString :=
  if !H.addrIsInt then .error .hostAddr
  else if r.loadsHosts && r.nodeId &&& 0x0000FFFF ≠ 0 then .error .strtok
  else .ok (H.hostName r)

/-- What is done with a name, for the host or for an attribute; `none` if
there is no such attribute. -/
def withName (tok : CString) (host : Except Undefined CString)
    (build : IdentAtt → Except Undefined CString) : Except Undefined (Option CString) := do
  let attname ← strcpy attnameSize .attname tok
  if attname = hostWord then some <$> host
  else
    match r.getAtt attname with
    | none => return none
    | some att => some <$> build att

def startIdent (isize : Nat) (tok : CString) : Except Undefined (Option CString) :=
  withName r tok
    (do strcpy isize .ident (← H.evlGetHostNameEx r))
    (fun att => buildIdentString att false ⟨[], CString.noNul_nil⟩ isize)

def appendIdent (isize : Nat) (ident tok : CString) : Except Undefined (Option CString) :=
  withName r tok
    (do
      let ident ← strcat isize ident ⟨[underscore], noNul_underscore⟩
      strcat isize ident (← H.evlGetHostNameEx r))
    (fun att => buildIdentString att true ident isize)

def appendIdents (isize : Nat) : List CString → CString → Except Undefined (Option CString)
  | [], ident => .ok (some ident)
  | tok :: toks, ident => do
    match ← appendIdent H r isize ident tok with
    | none => return none
    | some ident => appendIdents isize toks ident

/-- `getAnyIdentFromLog`; `none` is NULL. There is no record when `getRec`
or `getPopulatedTemplate` fails. -/
def getAnyIdentFromLog (found : Option PopulatedRecord) (anyStr : CString) (isize : Nat) :
    Except Undefined (Option CString) :=
  match found, CString.tokens [comma] anyStr with
  | none, _ => .ok none
  | some _, [] => .ok none
  | some r, tok :: toks => do
    match ← startIdent H r isize tok with
    | none => return none
    | some ident => appendIdents H r isize toks ident

end

end Evlog.Evlactiond
