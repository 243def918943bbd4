/-
Evlog.Printf.CmdArgs — packing a printf record from a command line
(evl_log_write.c).

`_evlPackCmdArgsPerFormat` packs what `evl_pack_format_and_args` packs, but
the values are texts that it decodes first. The arguments from `*iarg` on are
a list here; at the end of it is the `NULL` of `argv`. A `char` is signed.

Real numbers and wide characters are read by the C library (`Libc`). A
message is meant as it goes to `snprintf`; `errbuf` has as much of it as
there is room for.
-/
import Evlog.Lib.Numeral
import Evlog.Printf.Pack

namespace Evlog.Printf

open Evlog.Lib
open Evlog.Posix (CharPtr WcharPtr Object Packing memcpyex packString packWstring maxlen)
open Evlog.Template (BaseType)

/-- The functions of the C library that read a value from a text, and the
cast of a `double` to a `float`. -/
structure Libc where
  /-- `sscanf(val, "%f%c", &f, &garbage)`: the result, `f`, and whether `errno`
  is set. -/
  sscanf : List UInt8 → Int × Scalar .float × Bool
  strtod : List UInt8 → CString.Converted (Scalar .double)
  strtold : List UInt8 → CString.Converted (Scalar .ldouble)
  /-- What is in `wstring` behind `mbstowcs(wstring, val, nc)`. -/
  mbstowcs : CharPtr → WcharPtr
  castFloat : Scalar .double → Scalar .float

/-! ## Decoding -/

/-- Why a text has no value: `EINVAL` or `ERANGE`. -/
inductive Undecoded where
  | einval
  | erange
  deriving DecidableEq, Repr

def decodeUint (val : List UInt8) (size : Nat) : Except Undecoded UInt64 :=
  let r := CString.strtoull val
  let max : UInt64 :=
    if size = 1 then 0xff else if size = 2 then 0xffff else if size = 4 then 0xffffffff else 0xffffffffffffffff
  if r.erange ∨ r.rest ≠ [] then .error .einval
  else if max < r.value then .error .erange
  else .ok r.value

def decodeSint (val : List UInt8) (size : Nat) : Except Undecoded Int :=
  let r := CString.strtoll val
  let half : Int :=
    if size = 1 then 2 ^ 7 else if size = 2 then 2 ^ 15 else if size = 4 then 2 ^ 31 else 2 ^ 63
  if r.erange ∨ r.rest ≠ [] then .error .einval
  else if r.value < -half ∨ half - 1 < r.value then .error .erange
  else .ok r.value

/-- `decodeReal`. The way of a value through a `long double` and back leaves it
as it is. -/
def decodeReal {type : BaseType} (r : CString.Converted (Scalar type)) : Except Undecoded (Scalar type) :=
  if r.rest ≠ [] then .error .einval else if r.erange then .error .erange else .ok r.value

/-- `decodeReal` of a `float`. -/
def decodeFloat (r : Int × Scalar .float × Bool) : Except Undecoded (Scalar .float) :=
  if r.1 ≠ 1 then .error .einval else if r.2.2 then .error .erange else .ok r.2.1

def orChar {α : Type} (val : List UInt8) (ofChar : Int8 → α) (r : Except Undecoded α) : Except Undecoded α :=
  match r, val with
  | .error .einval, [c] => .ok (ofChar c.toInt8)
  | r, _ => r

/-- `COPYVAL` of a signed value. -/
def Scalar.ofInt (type : BaseType) (v : Int) : Scalar type :=
  ⟨intBytes (ConvType.base type).size v, intBytes_length ..⟩

/-- `COPYVAL` of an unsigned value. -/
def Scalar.ofUint (type : BaseType) (v : UInt64) : Scalar type :=
  ⟨leBytes (ConvType.base type).size v.toNat, leBytes_length ..⟩

/-- The cases of `decodeArg` that are no strings. -/
def decodeScalar (lib : Libc) (val : List UInt8) : (type : BaseType) → Except Undecoded (Scalar type)
  | .char => (orChar val Int8.toInt (decodeSint val 1)).map (Scalar.ofInt .char)
  | .uchar => (orChar val (fun c => c.toInt64.toUInt64) (decodeUint val 1)).map (Scalar.ofUint .uchar)
  | .short => (decodeSint val 2).map (Scalar.ofInt .short)
  | .ushort => (decodeUint val 2).map (Scalar.ofUint .ushort)
  | .int => (decodeSint val 4).map (Scalar.ofInt .int)
  | .uint => (decodeUint val 4).map (Scalar.ofUint .uint)
  | .long => (decodeSint val 8).map (Scalar.ofInt .long)
  | .ulong => (decodeUint val 8).map (Scalar.ofUint .ulong)
  | .longlong => (decodeSint val 8).map (Scalar.ofInt .longlong)
  | .ulonglong => (decodeUint val 8).map (Scalar.ofUint .ulonglong)
  | .address => (decodeUint val 8).map (Scalar.ofUint .address)
  | .float => decodeFloat (lib.sscanf val)
  | .double => decodeReal (lib.strtod val)
  | .ldouble => decodeReal (lib.strtold val)
  | .wchar => (orChar val Int8.toInt (decodeSint val 4)).map (Scalar.ofInt .wchar)
  | .string | .wstring => .error .einval

/-! ## Messages -/

def message (s : String) : List UInt8 := s.toList.map fun c => c.toNat.toUInt8

def reportBadVal (val : CharPtr) : Undecoded → List UInt8
  | .einval => message "Unrecognized value: " ++ val.string.bytes
  | .erange => message "Value out of range: " ++ val.string.bytes

def missingValue (nelements : Int) : List UInt8 :=
  if nelements = 1 then message "Missing value"
  else message "Missing value(s) in " ++ CString.signedDecimal nelements ++ message "-element list"

def badDimension (val : CharPtr) : List UInt8 := message "Bad array dimension: " ++ val.string.bytes

def recordWouldExceed : List UInt8 := message "Record would exceed 8192 bytes."

/-! ## `decodeArg` -/

/-- `decodeArg`: what is in `errbuf` then, if anything, or what is packed. -/
def decodeArg (lib : Libc) (val : Option CharPtr) (type : ConvType) (nelements : Int) (st : Packing) :
    Except (Option (List UInt8)) Packing :=
  match val with
  | none => .error (some (missingValue nelements))
  | some val =>
    match type with
    | .base .string => .ok (packString st val)
    | .base .wstring => .ok (packWstring st (lib.mbstowcs val))
    | .base type =>
      match decodeScalar lib val.string.bytes type with
      | .error status => .error (some (reportBadVal val status))
      | .ok v => .ok (memcpyex st v.object)
    | _ => .error none

/-- The loop over `nelements` values. -/
def decodeArgs (lib : Libc) (type : ConvType) (nelements : Int) :
    Nat → List CharPtr → Packing → Except (Option (List UInt8)) (List CharPtr × Packing)
  | 0, argv, st => .ok (argv, st)
  | n + 1, argv, st =>
    match decodeArg lib argv.head? type nelements st with
    | .error errbuf => .error errbuf
    | .ok st => decodeArgs lib type nelements n argv.tail st

/-! ## `_evlPackCmdArgsPerFormat` -/

def decodeConversion (lib : Libc) (pf : ParsedFormat) (argv : List CharPtr) (st : Packing) :
    Except (Option (List UInt8)) (List CharPtr × Packing) :=
  if pf.fmArray then
    match argv with
    | [] => .error (some (message "Missing array dimension"))
    | dim :: argv =>
      match decodeSint dim.string.bytes 4 with
      | .error _ => .error (some (badDimension dim))
      | .ok sval =>
        if sval < 0 then .error (some (badDimension dim))
        else
          let st := memcpyex st (dimObject sval.toNat)
          match argv with
          | [] => .error (some (message "Missing array delimiter"))
          | delim :: argv =>
            decodeArgs lib (evlGetTypeFromConversion pf false false) sval sval.toNat argv (packString st delim)
  else decodeArgs lib (evlGetTypeFromConversion pf true false) 1 1 argv st

/-- What packing from a command line comes to: an assertion fails or the
memory is read where nothing is, `EINVAL`, or it is through, with the
arguments behind `*iarg` and the record. -/
inductive CmdPacked where
  | crash
  | refused (errbuf : Option (List UInt8))
  | done (status : Option Errno) (errbuf : Option (List UInt8)) (argv : List CharPtr) (st : Packing)

def CmdPacked.finish (argv : List CharPtr) (st : Packing) : CmdPacked :=
  if maxlen < st.reclen then .done (some .emsgsize) (some recordWouldExceed) argv st
  else .done none none argv st

def decodeConversions (lib : Libc) : List Segment → List CharPtr → Packing → CmdPacked
  | [], argv, st => .done none none argv st
  | .string _ :: _, _, _ => .crash
  | .printfConv pf _ :: segs, argv, st =>
    match decodeConversion lib pf argv st with
    | .error errbuf => .refused errbuf
    | .ok (argv, st) => decodeConversions lib segs argv st

def evlPackCmdArgsPerFormat (lib : Libc) (format : CharPtr) (argv : List CharPtr) : CmdPacked :=
  match evlParsePrintfFormat false format.string.bytes with
  | .overrun => .crash
  | .bad => .refused (some (message "Invalid format string."))
  | .ok parsedFmt =>
    let st₁ := packString .empty format
    let st₂ := memcpyex st₁ (dimObject 0)
    match decodeConversions lib parsedFmt argv st₂ with
    | .done _ _ argv st₃ => .finish argv (plugInArgsz st₁.reclen st₂.reclen st₃)
    | result => result

end Evlog.Printf
