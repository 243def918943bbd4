/-
Evlog.Printf.Pack — the data of a printf record (evl_log_write.c).

`evl_pack_format_and_args` packs the format, the size of the arguments, and
the arguments, each as its conversion has it: a string with its NUL, an
array as its dimension, its delimiter and its elements, anything else as the
bytes of the value. What `va_arg` returns if there is no argument of the
type asked for is not defined (`noArg`).
-/
import Evlog.Lib.OpenFile
import Evlog.Posix.Pack
import Evlog.Printf.Format

namespace Evlog.Printf

open Evlog.Lib
open Evlog.Posix (CharPtr WcharPtr Object Packing memcpyex packString packWstring maxlen)
open Evlog.Template (BaseType archTypeInfo)

/-! ## Arguments -/

structure Scalar (type : BaseType) where
  bytes : List UInt8
  size : bytes.length = (ConvType.base type).size
  deriving DecidableEq

theorem size_le (type : BaseType) : (ConvType.base type).size ≤ 16 := by
  cases type <;> decide

def Scalar.object {type : BaseType} (v : Scalar type) : Object :=
  ⟨v.bytes, by have := v.size; have := size_le type; omega⟩

inductive Elements where
  | scalars (type : BaseType) (values : List (Scalar type))
  | strings (ss : List CharPtr)
  | wstrings (ss : List WcharPtr)

def Elements.length : Elements → Nat
  | .scalars _ values => values.length
  | .strings ss => ss.length
  | .wstrings ss => ss.length

/-- The three arguments of an array conversion: the array, its dimension, the
delimiter. -/
structure ArrayArg where
  elements : Elements
  delim : CharPtr
  dim_lt : elements.length < 2 ^ 31

/-- The arguments of a conversion. -/
inductive Arg where
  | scalar (type : BaseType) (value : Scalar type)
  | string (s : CharPtr)
  | wstring (s : WcharPtr)
  | array (a : ArrayArg)

/-! ## `packArray` -/

/-- `dim`. -/
def dimBytes (dim : Nat) : List UInt8 := leBytes 4 dim

def dimObject (dim : Nat) : Object := ⟨dimBytes dim, by rw [dimBytes, leBytes_length]; decide⟩

theorem length_flatMap_bytes {type : BaseType} (values : List (Scalar type)) :
    (values.flatMap (·.bytes)).length = values.length * (ConvType.base type).size := by
  induction values with
  | nil => simp
  | cons v values ih => rw [List.flatMap_cons, List.length_append, v.size, ih, List.length_cons]; ring

def arrayObject {type : BaseType} (values : List (Scalar type)) (h : values.length < 2 ^ 31) : Object :=
  ⟨values.flatMap (·.bytes), by
    rw [length_flatMap_bytes]
    calc values.length * (ConvType.base type).size
        ≤ values.length * 16 := Nat.mul_le_mul_left _ (size_le type)
      _ < 2 ^ 62 := by omega⟩

/-- What comes of a conversion: an assertion fails, there is no such argument,
the conversion is not known, or the arguments that are left and the record. -/
inductive Step where
  | crash
  | noArg
  | unknown
  | next (args : List Arg) (st : Packing)

/-- `packArray`, and on with the other arguments. -/
def packArray (st : Packing) (a : ArrayArg) (type : ConvType) (args : List Arg) : Step :=
  let st := packString (memcpyex st (dimObject a.elements.length)) a.delim
  match type with
  | .base .string =>
    match a.elements with
    | .strings ss => .next args (ss.foldl packString st)
    | _ => .noArg
  | .base .wstring =>
    match a.elements with
    | .wstrings ss => .next args (ss.foldl packWstring st)
    | _ => .noArg
  | type =>
    if type.size = 0 then .crash
    else
      match a with
      | ⟨.scalars type' values, _, h⟩ =>
        if type = .base type' then .next args (memcpyex st (arrayObject values h)) else .noArg
      | _ => .noArg

/-! ## `evl_pack_format_and_args` -/

/-- The types that `COPYARGS` is called for. -/
def copied : BaseType → Bool
  | .int | .long | .longlong | .address | .double | .ldouble | .wchar => true
  | _ => false

def packConversion (pf : ParsedFormat) (args : List Arg) (st : Packing) : Step :=
  if pf.fmArray then
    match args with
    | .array a :: args => packArray st a (evlGetTypeFromConversion pf false true) args
    | _ => .noArg
  else
    match evlGetTypeFromConversion pf true true with
    | .none => .unknown
    | .special => .crash
    | .base .string =>
      match args with
      | .string s :: args => .next args (packString st s)
      | _ => .noArg
    | .base .wstring =>
      match args with
      | .wstring s :: args => .next args (packWstring st s)
      | _ => .noArg
    | .base type =>
      if copied type = false then .crash
      else
        match args with
        | .scalar type' v :: args => if type = type' then .next args (memcpyex st v.object) else .noArg
        | _ => .noArg

/-- What `evl_pack_format_and_args` comes to: an assertion of it fails or the
format is read behind its end, the arguments are not those of the format,
or it returns. -/
inductive Packed where
  | crash
  | noArg
  | done (status : Option Errno) (st : Packing)

def packConversions : List Segment → List Arg → Packing → Packed
  | [], _, st => .done none st
  | .string _ :: _, _, _ => .crash
  | .printfConv pf _ :: segs, args, st =>
    match packConversion pf args st with
    | .crash => .crash
    | .noArg => .noArg
    | .unknown => .done (some .einval) st
    | .next args st => packConversions segs args st

/-- The size of the arguments is put where there is room for it. -/
def plugInArgsz (argszGoesHere argsStartHere : UInt64) (st : Packing) : Packing :=
  if argszGoesHere ≤ maxlen - 4 then
    { st with written :=
        overlay st.written argszGoesHere.toNat (dimBytes (st.reclen - argsStartHere).toUInt32.toNat) }
  else st

/-- `evl_pack_format_and_args`. On `EINVAL` the record is as long as it was. -/
def evlPackFormatAndArgs (format : CharPtr) (args : List Arg) (st : Packing) : Packed :=
  match evlParsePrintfFormat false format.string.bytes with
  | .overrun => .crash
  | .bad => .done (some .einval) st
  | .ok parsedFmt =>
    let st₁ := packString st format
    let st₂ := memcpyex st₁ (dimObject 0)
    match packConversions parsedFmt args st₂ with
    | .done none st₃ =>
      let st₃ := plugInArgsz st₁.reclen st₂.reclen st₃
      .done (if maxlen < st₃.reclen then some .emsgsize else none) st₃
    | .done status _ => .done status st
    | result => result

end Evlog.Printf
