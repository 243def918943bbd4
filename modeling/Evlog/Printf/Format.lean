/-
Evlog.Printf.Format — printf-style formats (format.c).

A format is a string without its NUL here. Whoever looks for the NUL among
the flags or the modifiers with `strchr` finds it, and so the two loops over
them go on behind the end of the string when that is where they come to;
what is there is not known (`overrun`).

The machine is an x86_64: `size_t`, `intmax_t` and `ptrdiff_t` have the size
of a `long`.
-/
import Evlog.Lib.CString
import Evlog.Template.Types

namespace Evlog.Printf

open Evlog.Lib
open Evlog.Template (BaseType archTypeInfo)

/-- What becomes of a parse: it goes on behind the end of the string, it
fails, or it has a result. -/
inductive Parsed (α : Type) where
  | overrun
  | bad
  | ok (a : α)
  deriving DecidableEq, Repr

/-! ## `_evlParseFmtConvSpec` -/

/-- `flags`. -/
def flagChars : List UInt8 := [0x2d, 0x2b, 0x20, 0x23, 0x30, 0x27, 0x5b]

def modifierChars : List UInt8 := [0x68, 0x6a, 0x6c, 0x4c, 0x74, 0x7a, 0x5a]

def isAlpha (c : UInt8) : Bool := (0x41 ≤ c && c ≤ 0x5a) || (0x61 ≤ c && c ≤ 0x7a)

structure ParsedFormat where
  fmFlags : List UInt8
  fmWidth : Int32
  fmPrecision : Int32
  fmModifier : List UInt8
  fmConversion : UInt8
  fmLength : Nat
  fmArray : Bool
  deriving DecidableEq, Repr

def scanFlags (flags : List UInt8) : List UInt8 → Parsed (List UInt8 × List UInt8)
  | [] => .overrun
  | c :: rest =>
    if c ∈ flagChars then if c ∈ flags then .bad else scanFlags (flags ++ [c]) rest
    else .ok (flags, c :: rest)

/-- `strtoul(s, &c, 10)`: the value, and what is at `c`. -/
def strtoul10 (s : List UInt8) : UInt64 × List UInt8 :=
  let sign := CString.sign (s.dropWhile CString.isSpace)
  let digits := sign.2.takeWhile CString.isDigit
  if digits = [] then (0, s)
  else
    let n := CString.digitsValue 0 digits
    (if n < 2 ^ 64 then (if sign.1 then -UInt64.ofNat n else UInt64.ofNat n) else 0xffffffffffffffff,
      sign.2.drop digits.length)

/-- The width and the precision, and what is behind them. Just the period is
bad. -/
def scanNumbers (f : List UInt8) : Option (UInt64 × UInt64 × List UInt8) :=
  let (width, c) := strtoul10 f
  match c with
  | 0x2e :: f =>
    let (precision, c) := strtoul10 f
    if width = 0 ∧ c = f then none else some (width, precision, c)
  | _ => some (width, 0, c)

/-- The loop over the modifiers: the modifiers, the next character, and what
is behind it. -/
def scanModifiers : List UInt8 → Option (List UInt8 × UInt8 × List UInt8)
  | [] => none
  | c :: rest =>
    if c ∈ modifierChars then (scanModifiers rest).map fun r => (c :: r.1, r.2)
    else some ([], c, rest)

def evlParseFmtConvSpec (fmt : List UInt8) : Parsed ParsedFormat :=
  match scanFlags [] fmt with
  | .overrun => .overrun
  | .bad => .bad
  | .ok (flags, f) =>
    match scanNumbers f with
    | none => .bad
    | some (width, precision, f) =>
      match scanModifiers f with
      | none => .overrun
      | some (modifier, c, rest) =>
        if 2 < modifier.length then .bad
        else if isAlpha c = false then .bad
        else .ok
          { fmFlags := flags
            fmWidth := width.toUInt32.toInt32
            fmPrecision := precision.toUInt32.toInt32
            fmModifier := modifier
            fmConversion := c
            fmLength := fmt.length - rest.length
            fmArray := flags.contains 0x5b }

/-! ## `_evlGetTypeFromConversion` -/

/-- `tmpl_base_type_t`, as far as it is the type of a conversion. -/
inductive ConvType where
  | none
  | special
  | base (type : BaseType)
  deriving DecidableEq, Repr

/-- `_evlTmplTypeInfo[type].ti_size`. -/
def ConvType.size : ConvType → Nat
  | .base type => (archTypeInfo .noArch type).size
  | _ => 0

def adjustCharType (mod : List UInt8) (promote : Bool) : ConvType :=
  if mod = [] then .base (if promote then .int else .uchar)
  else if mod = [0x6c] then .base .wchar
  else .none

def adjustIntType (mod : List UInt8) (promote : Bool) : ConvType :=
  if mod = [] then .base .int
  else if mod = [0x68] then .base (if promote then .int else .short)
  else if mod = [0x68, 0x68] then .base (if promote then .int else .char)
  else if mod = [0x6c] then .base .long
  else if mod = [0x6c, 0x6c] ∨ mod = [0x4c] then .base .longlong
  else if mod = [0x7a] ∨ mod = [0x5a] then .base .long
  else if mod = [0x6a] then .base .long
  else if mod = [0x74] then .base .long
  else .none

def adjustUintType (mod : List UInt8) (promote : Bool) : ConvType :=
  match adjustIntType mod promote with
  | .base .char => .base .uchar
  | .base .short => .base .ushort
  | .base .int => .base .uint
  | .base .long => .base .ulong
  | .base .longlong => .base .ulonglong
  | type => type

def adjustDoubleType (mod : List UInt8) : ConvType :=
  if mod = [] then .base .double else if mod = [0x4c] then .base .ldouble else .none

def adjustStringType (mod : List UInt8) : ConvType :=
  if mod = [] then .base .string else if mod = [0x6c] then .base .wstring else .none

def validateNConversion (mod : List UInt8) : ConvType :=
  if mod = [] ∨ mod = [0x6c] ∨ mod = [0x6c, 0x6c] ∨ mod = [0x4c] then .special else .none

def evlGetTypeFromConversion (pf : ParsedFormat) (promote signedOnly : Bool) : ConvType :=
  let mod := pf.fmModifier
  let c := pf.fmConversion
  if c = 0x63 then adjustCharType mod promote
  else if c = 0x64 ∨ c = 0x69 then adjustIntType mod promote
  else if c = 0x6f ∨ c = 0x75 ∨ c = 0x78 ∨ c = 0x58 then
    if signedOnly then adjustIntType mod promote else adjustUintType mod promote
  else if c = 0x61 ∨ c = 0x41 ∨ c = 0x65 ∨ c = 0x45 ∨ c = 0x66 ∨ c = 0x46 ∨ c = 0x67 ∨ c = 0x47 then
    adjustDoubleType mod
  else if c = 0x73 then adjustStringType mod
  else if c = 0x70 then if mod = [] then .base .address else .none
  else if c = 0x43 then if mod = [] then .base .wchar else .none
  else if c = 0x53 then if mod = [] then .base .wstring else .none
  else if c = 0x6e then validateNConversion mod
  else .none

/-! ## `_evlParsePrintfFormat` -/

/-- `evl_fmt_segment_t`, of a printf format; `fs_userfmt` is there if strings
are needed. -/
inductive Segment where
  | string (s : List UInt8)
  | printfConv (conversion : ParsedFormat) (userfmt : Option (List UInt8))
  deriving DecidableEq, Repr

/-- `collectStringSegment`: the text up to the next conversion, and what is
behind the `%` of that. -/
def collectStringSegment : List UInt8 → List UInt8 × List UInt8
  | [] => ([], [])
  | [c] => if c = 0x25 then ([], []) else ([c], [])
  | c :: d :: rest =>
    if c = 0x25 then
      if d = 0x25 then
        let r := collectStringSegment rest
        (0x25 :: r.1, r.2)
      else ([], d :: rest)
    else
      let r := collectStringSegment (d :: rest)
      (c :: r.1, r.2)

def skipStringSegment : List UInt8 → List UInt8
  | [] => []
  | [_] => []
  | c :: d :: rest =>
    if c = 0x25 then if d = 0x25 then skipStringSegment rest else d :: rest
    else skipStringSegment (d :: rest)

/-- `collectConversionSegment`: the segment, if `c` is not at the end, and
what is behind it. -/
def collectConversionSegment (needStrings : Bool) (c : List UInt8) :
    Parsed (Option Segment × List UInt8) :=
  match c with
  | [] => .ok (none, [])
  | _ :: _ =>
    match evlParseFmtConvSpec c with
    | .overrun => .overrun
    | .bad => .bad
    | .ok pf =>
      .ok (some (.printfConv pf (if needStrings then some (0x25 :: c.take pf.fmLength) else none)),
        c.drop pf.fmLength)

/-- The loop of `_evlParsePrintfFormat`. Every turn takes a character at
least. -/
def parseTurns (needStrings : Bool) : Nat → List UInt8 → Parsed (List Segment)
  | _, [] => .ok []
  | 0, _ :: _ => .overrun
  | n + 1, sp =>
    let (head, sp) :=
      if needStrings then
        let (s, sp) := collectStringSegment sp
        (if s = [] then [] else [Segment.string s], sp)
      else ([], skipStringSegment sp)
    match collectConversionSegment needStrings sp with
    | .overrun => .overrun
    | .bad => .bad
    | .ok (seg, sp) =>
      match parseTurns needStrings n sp with
      | .overrun => .overrun
      | .bad => .bad
      | .ok list => .ok (head ++ seg.toList ++ list)

def evlParsePrintfFormat (needStrings : Bool) (format : List UInt8) : Parsed (List Segment) :=
  parseTurns needStrings format.length format

end Evlog.Printf
