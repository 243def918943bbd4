/-
Evlog.Printf.Record — formatting printf records (formatrec.c).

The data of a record come from any client. They are read from a position on
(`b_next`), and a read that is not inside of them has no result. What the
formatting comes to is a sequence of calls of `_evlBprintf`, for the strings
of the format and the delimiters (`%s` each) and for the conversions; what
`vsnprintf` makes of a conversion is left open.
-/
import Evlog.Printf.Format
import Evlog.Util.FmtBuf

namespace Evlog.Printf

open Evlog.Lib
open Evlog.Template (BaseType archTypeInfo)

/-! ## Calls -/

/-- The argument of a conversion: a scalar by its bytes, a string, a string
of wide characters. -/
inductive Passed where
  | scalar (type : BaseType) (bytes : List UInt8)
  | string (s : List UInt8)
  | wstring (s : List UInt32)
  deriving DecidableEq, Repr

/-- A call of `_evlBprintf`: a string, or a conversion with its argument. -/
inductive Call where
  | text (s : List UInt8)
  | conversion (fmt : List UInt8) (arg : Passed)
  deriving DecidableEq, Repr

/-! ## Reading -/

/-- `recbuf_t`: the position of `b_next` in the data. -/
structure Recbuf where
  data : List UInt8
  next : Nat
  deriving DecidableEq, Repr

/-- `b_end - b_next`. -/
def Recbuf.left (b : Recbuf) : Int := (b.data.length : Int) - b.next

/-- The bytes at `b_next`, if they are inside. -/
def Recbuf.read (b : Recbuf) (n : Nat) : Option (List UInt8) :=
  if b.next + n ≤ b.data.length then some ((b.data.drop b.next).take n) else none

/-- What a reader comes to: the end of the record, or what was read; there is
nothing where it reads outside the record. -/
abbrev Collected (α : Type) := Option (Option α × Recbuf)

def collectBytes (b : Recbuf) (nbytes : Nat) : Collected (List UInt8) :=
  if b.left < nbytes then some (none, { b with next := b.data.length })
  else (b.read nbytes).map fun bytes => (some bytes, { b with next := b.next + nbytes })

/-- The loop of `collectString`: the position of the null character, or the
end of the record. -/
def findNull (data : List UInt8) : Nat → Nat → Option Nat
  | 0, next => some next
  | n + 1, next =>
    if next < data.length then
      match data[next]? with
      | none => none
      | some c => if c = 0 then some next else findNull data n (next + 1)
    else some next

def collectString (b : Recbuf) : Collected (List UInt8) :=
  (findNull b.data b.data.length b.next).map fun next =>
    if next < b.data.length then
      (some ((b.data.drop b.next).take (next - b.next)), { b with next := next + 1 })
    else (none, { b with next })

/-- The loop of `collectWstring`: the characters so far. -/
def collectWchars : Nat → List UInt32 → Recbuf → Collected (List UInt32)
  | 0, _, b => some (none, b)
  | n + 1, s, b =>
    match collectBytes b 4 with
    | none => none
    | some (none, b) => some (none, b)
    | some (some bytes, b) =>
      let wc := UInt32.ofNat (leNat bytes)
      if wc = 0 then some (some s, b) else collectWchars n (s ++ [wc]) b

def collectWstring (b : Recbuf) : Collected (List UInt32) := collectWchars (b.data.length + 1) [] b

/-! ## `formatConversion` -/

def passed : BaseType → Bool
  | .char | .uchar | .short | .int | .long | .longlong | .double | .ldouble | .address | .wchar => true
  | _ => false

/-- What becomes of a conversion: an assertion fails or a read is not inside
the record; or there are the calls, whether the type is bad, and where the
record is to be read on. -/
abbrev Formatted := Option (List Call × Bool × Recbuf)

/-- What is passed for one element; the inner `none` is the end of the
record. -/
def collectPassed (type : BaseType) (b : Recbuf) : Collected Passed :=
  match type with
  | .string => (collectString b).map fun r => (r.1.map Passed.string, r.2)
  | .wstring => (collectWstring b).map fun r => (r.1.map Passed.wstring, r.2)
  | type =>
    (collectBytes b (ConvType.base type).size).bind fun r =>
      match r.1 with
      | none => some (none, r.2)
      | some bytes => if passed type then some (some (.scalar type bytes), r.2) else none

def formatElements (fmt : List UInt8) (type : ConvType) (delim : List UInt8) :
    Nat → Bool → Recbuf → Formatted
  | 0, _, b => some ([], false, b)
  | n + 1, first, b =>
    let head := if first then [] else [Call.text delim]
    match type with
    | .none => some (head, true, b)
    | .special => some (head, false, b)
    | .base type' =>
      match collectPassed type' b with
      | none => none
      | some (none, b) => some (head, false, b)
      | some (some arg, b) =>
        (formatElements fmt type delim n false b).map fun r =>
          (head ++ .conversion fmt arg :: r.1, r.2)

def squeeze (fmt : List UInt8) : List UInt8 := fmt.filter (· ≠ 0x5b)

/-- `formatConversion`. `squeezedFmt` has twenty bytes. -/
def formatConversion (pf : ParsedFormat) (fmt : List UInt8) (b : Recbuf) : Formatted :=
  if pf.fmArray then
    match collectBytes b 4 with
    | none => none
    | some (none, b) => some ([], false, b)
    | some (some dimBytes, b) =>
      match collectString b with
      | none => none
      | some (none, b) => some ([], false, b)
      | some (some delim, b) =>
        if fmt.length < 20 then
          let dim := (UInt32.ofNat (leNat dimBytes)).toInt32
          formatElements (squeeze fmt) (evlGetTypeFromConversion pf false true) delim dim.toInt.toNat true b
        else none
  else formatElements fmt (evlGetTypeFromConversion pf true true) [] 1 true b

/-! ## `_evlFormatPrintfRec` -/

def formatSegments : List Segment → Recbuf → Option (List Call × Bool)
  | [], _ => some ([], false)
  | .string s :: segs, b => (formatSegments segs b).map fun r => (.text s :: r.1, r.2)
  | .printfConv pf userfmt :: segs, b =>
    if b.left ≤ 0 then formatSegments segs b
    else
      match formatConversion pf (userfmt.getD []) b with
      | none => none
      | some (calls, true, _) => some (calls, true)
      | some (calls, false, b) => (formatSegments segs b).map fun r => (calls ++ r.1, r.2)

/-- What the record comes to: nothing, if a read is not inside of what may be
read or an assertion fails; else it is bad, or there are the calls, and
whether the loop was left because of a bad type. -/
inductive Formatting where
  | bad
  | calls (cs : List Call) (failed : Bool)
  deriving DecidableEq, Repr

/-- The part of `_evlFormatPrintfRec` before the text is finished. -/
def evlFormatPrintfRec (data : List UInt8) : Option Formatting :=
  if data = [] then some .bad
  else
    match collectString ⟨data, 0⟩ with
    | none => none
    | some (none, _) => some .bad
    | some (some format, recbuf) =>
      -- over the size of the arguments, and maybe over the end
      let recbuf := { recbuf with next := recbuf.next + 4 }
      match evlParsePrintfFormat true format with
      | .overrun => none
      | .bad => some .bad
      | .ok parsedFmt => (formatSegments parsedFmt recbuf).map fun r => .calls r.1 r.2

/-- What `vsnprintf` makes of a call. -/
def Call.outcome (vsnprintf : List UInt8 → Passed → Util.Outcome) : Call → Util.Outcome
  | .text s => .ofBytes s
  | .conversion fmt arg => vsnprintf fmt arg

def Formatting.printfRec (vsnprintf : List UInt8 → Passed → Util.Outcome) : Formatting → Util.PrintfRec
  | .bad => .bad
  | .calls cs failed => .parsed (cs.map (Call.outcome vsnprintf)) failed

end Evlog.Printf
