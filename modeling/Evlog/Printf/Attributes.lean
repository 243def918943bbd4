/-
Evlog.Printf.Attributes — packing a list of typed attributes
(evl_log_write.c).

Two functions pack binary records: `copy_attr_data` takes the values from a
`va_list`, `_evlPackCmdArgs` decodes them from a command line. In both a type
such as "int", "int[]" or "5*int" says what comes next.

An argument is in a `va_list` as it is passed to a function without a
prototype: a small integer is there as an `int`, a `float` as a `double`,
and a value without a sign like one with it.
-/
import Evlog.Printf.CmdArgs

namespace Evlog.Printf

open Evlog.Lib
open Evlog.Posix (CharPtr WcharPtr Object Packing memcpyex packString packWstring maxlen)
open Evlog.Template (BaseType)

/-! ## Types by name -/

/-- The rows of `_evlTmplTypeInfo` that are no pseudo-types. -/
def typeNames : List (BaseType × List UInt8) :=
  [(.char, message "char"), (.uchar, message "uchar"), (.short, message "short"), (.ushort, message "ushort"),
    (.int, message "int"), (.uint, message "uint"), (.long, message "long"), (.ulong, message "ulong"),
    (.longlong, message "longlong"), (.ulonglong, message "ulonglong"), (.float, message "float"),
    (.double, message "double"), (.ldouble, message "ldouble"), (.string, message "string"),
    (.wchar, message "wchar"), (.wstring, message "wstring"), (.address, message "address")]

def getTypeByName (name : List UInt8) : Option BaseType :=
  (typeNames.find? fun row => row.2 == name).map (·.1)

structure AttTypeInfo where
  atType : BaseType
  atNelements : Int32
  atArray : Bool
  deriving DecidableEq, Repr

def maxTypeNameLen : Nat := 20

def parseAttType (attType : List UInt8) : Option AttTypeInfo :=
  if attType.head?.any CString.isDigit then
    match strtoul10 attType with
    | (n, 0x2a :: typeName) => (getTypeByName typeName).map fun type => ⟨type, n.toUInt32.toInt32, false⟩
    | _ => none
  else if 0x5b ∈ attType then
    let name := attType.takeWhile (· ≠ 0x5b)
    if attType.drop name.length ≠ [0x5b, 0x5d] then none
    else if name.length = 0 ∨ maxTypeNameLen < name.length then none
    else (getTypeByName name).map fun type => ⟨type, 0, true⟩
  else (getTypeByName attType).map fun type => ⟨type, 1, false⟩

/-! ## Arguments of a variadic function -/

/-- The type that a value is passed as: `bt` of `COPYARGS`. -/
def bigType : BaseType → BaseType
  | .char | .uchar | .short | .ushort | .int | .uint => .int
  | .long | .ulong => .long
  | .longlong | .ulonglong => .longlong
  | .float | .double => .double
  | type => type

/-- What there is in a `va_list`. -/
inductive VaArg where
  | null
  | scalar (type : BaseType) (v : Scalar type)
  | string (s : CharPtr)
  | wstring (s : WcharPtr)
  | pointer (array : Elements)

theorem size_le_bigType (type : BaseType) :
    (ConvType.base type).size ≤ (ConvType.base (bigType type)).size := by
  cases type <;> decide

/-- `(lt) v`. Of an integer the low bytes are kept. -/
def little (lib : Libc) : (type : BaseType) → Scalar (bigType type) → Scalar type
  | .float, v => lib.castFloat v
  | type, v => ⟨v.bytes.take (ConvType.base type).size, by
      rw [List.length_take, v.size, Nat.min_eq_left (size_le_bigType type)]⟩

/-! ## `copy_attr_data` -/

def copyArg (lib : Libc) (type : BaseType) (arg : VaArg) (st : Packing) : Option Packing :=
  match type, arg with
  | .string, .string s => some (packString st s)
  | .wstring, .wstring s => some (packWstring st s)
  | type, .scalar bt v =>
    if h : type.isScalar ∧ bt = bigType type then some (memcpyex st (little lib type (h.2 ▸ v)).object) else none
  | _, _ => none

def copyArgs (lib : Libc) (type : BaseType) : Nat → List VaArg → Packing → Option (List VaArg × Packing)
  | 0, args, st => some (args, st)
  | _ + 1, [], _ => none
  | n + 1, arg :: args, st => (copyArg lib type arg st).bind (copyArgs lib type n args)

/-- The first `n` elements of an array. Behind its end there is nothing. -/
def copyArray (type : BaseType) (n : Nat) (array : Elements) (st : Packing) : Option Packing :=
  if array.length < n then none
  else
    match type, array with
    | .string, .strings sarray => some ((sarray.take n).foldl packString st)
    | .wstring, .wstrings warray => some ((warray.take n).foldl packWstring st)
    | type, .scalars type' a =>
      if type.isScalar ∧ type' = type then some ((a.take n).foldl (fun st v => memcpyex st v.object) st) else none
    | _, _ => none

/-- What `copy_attr_data` comes to: -1, an argument that is not there, or
`databuf` and `*bufsz`. -/
inductive Copied where
  | fail
  | noArg
  | done (st : Packing)

def endofdata : List UInt8 := message "endofdata"

def copyAttrTurns (lib : Libc) : Nat → List VaArg → Packing → Copied
  | _, .null :: _, st => .done st
  | n + 1, .string attType :: args, st =>
    if attType.string.bytes = endofdata then .done st
    else
      match parseAttType attType.string.bytes with
      | none => .fail
      | some ti =>
        if ti.atArray then
          match args with
          | .scalar .int n' :: .pointer array :: args =>
            match copyArray ti.atType (leInt n'.bytes).toNat array st with
            | none => .noArg
            | some st => copyAttrTurns lib n args st
          | _ => .noArg
        else
          match copyArgs lib ti.atType ti.atNelements.toInt.toNat args st with
          | none => .noArg
          | some (args, st) => copyAttrTurns lib n args st
  | _, _, _ => .noArg

def copyAttrData (lib : Libc) (args : List VaArg) : Copied := copyAttrTurns lib args.length args .empty

/-! ## `_evlPackCmdArgs` -/

def cmdArgsTurns (lib : Libc) : Nat → List CharPtr → Packing → CmdPacked
  | n + 1, arg :: argv, st =>
    if arg.string.bytes.head? = some 0x2d then .finish (arg :: argv) st
    else if arg.string.bytes = endofdata then .finish argv st
    else
      match parseAttType arg.string.bytes with
      | none => .refused (some (message "Unrecognized type: " ++ arg.string.bytes))
      | some ti =>
        if ti.atArray then
          match argv with
          | [] => .crash
          | dim :: argv =>
            match decodeUint dim.string.bytes 4 with
            | .error _ => .refused (some (badDimension dim))
            | .ok uval =>
              let nelements := uval.toUInt32.toInt32.toInt
              match decodeArgs lib (.base ti.atType) nelements nelements.toNat argv st with
              | .error errbuf => .refused errbuf
              | .ok (argv, st) => cmdArgsTurns lib n argv st
        else
          match decodeArgs lib (.base ti.atType) ti.atNelements.toInt ti.atNelements.toInt.toNat argv st with
          | .error errbuf => .refused errbuf
          | .ok (argv, st) => cmdArgsTurns lib n argv st
  | _, argv, st => .finish argv st

def evlPackCmdArgs (lib : Libc) (argv : List CharPtr) : CmdPacked :=
  cmdArgsTurns lib argv.length argv .empty

end Evlog.Printf
