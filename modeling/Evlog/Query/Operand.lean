/-
Evlog.Query.Operand — integers in a query, from their text to a
comparison.

The rules of `lex` for an INTEGER find the base and hand the digits to
`strtoul`, and the productions of query.y make a node of the result, with a
minus sign in front if there is one. `normalizeInteger` is told how large
an attribute is and whether it is signed, and `evaluate.c` compares what
comes out of that with the attribute's value.

An integer attribute is known here by what `normalizeInteger` is told, and
by which comparison is made in the end (`IntAtt`). An attribute of a
template is always passed as a signed `long`, also where it is compared as
an unsigned one.
-/
import Evlog.Query.Evaluate
import Evlog.Query.Normalize

namespace Evlog.Query

/-! ## The lexer -/

/-- `[0-7]`. -/
def isOctDigit (c : Char) : Bool := '0' ≤ c && c ≤ '7'

/-- `[0-9A-Fa-f]`. -/
def isHexDigit (c : Char) : Bool :=
  c.isDigit || ('A' ≤ c && c ≤ 'F') || ('a' ≤ c && c ≤ 'f')

def digitValue (c : Char) : Nat :=
  if c.isDigit then c.toNat - 48 else if 'a' ≤ c then c.toNat - 87 else c.toNat - 55

/-- The rules of `lex` for an INTEGER: the base, and the digits. -/
def integerToken : List Char → Option (Nat × List Char)
  | [] => none
  | d :: ds =>
    if d = '0' then
      match ds with
      | x :: hs =>
        if (x = 'x' ∨ x = 'X') ∧ hs ≠ [] ∧ hs.all isHexDigit = true then some (16, hs)
        else if ds.all isOctDigit = true then some (8, ds)
        else none
      | [] => some (8, ['0'])
    else if d.isDigit = true ∧ ds.all Char.isDigit = true then some (10, d :: ds)
    else none

def digitsValue (base : Nat) (digits : List Char) : Nat :=
  digits.foldl (fun n c => base * n + digitValue c) 0

/-- `strtoul`, on digits of the base. What is too large is `ULONG_MAX`. -/
def strtoulDigits (base : Nat) (digits : List Char) : UInt64 :=
  let n := digitsValue base digits
  if n < 2 ^ 64 then UInt64.ofNat n else 0xffffffffffffffff

/-! ## Literals -/

/-- An integer as it stands in a query. -/
structure Literal where
  minus : Bool
  yytext : List Char
  isInteger : (integerToken yytext).isSome

def Literal.magnitude (l : Literal) : Nat :=
  let token := (integerToken l.yytext).get l.isInteger
  digitsValue token.1 token.2

def Literal.value (l : Literal) : Int := if l.minus then -(l.magnitude : Int) else l.magnitude

/-- `qqlval.ival`. -/
def Literal.ival (l : Literal) : UInt64 :=
  let token := (integerToken l.yytext).get l.isInteger
  strtoulDigits token.1 token.2

/-- The productions of `val`. -/
def Literal.node (l : Literal) (addr : Nat) : PNode :=
  if l.minus then .val addr true (-l.ival) else .val addr false l.ival

/-! ## Integer attributes -/

/-- The sizes of integers. -/
inductive IntSize where
  | char
  | short
  | int
  | long
  deriving DecidableEq, Repr

/-- `sizeof`. -/
def IntSize.bytes : IntSize → Nat
  | .char => 1
  | .short => 2
  | .int => 4
  | .long => 8

def IntSize.bits (size : IntSize) : Nat := 8 * size.bytes

/-- An integer attribute: of a signed or an unsigned type, or an attribute of
a template that is of an unsigned type. -/
inductive IntAtt where
  | signed (size : IntSize)
  | unsigned (size : IntSize)
  | templateUnsigned
  deriving DecidableEq, Repr

def IntAtt.InRange (v : Int) : IntAtt → Prop
  | .signed size => -(2 : Int) ^ (size.bits - 1) ≤ v ∧ v < 2 ^ (size.bits - 1)
  | .unsigned size => 0 ≤ v ∧ v < 2 ^ size.bits
  | .templateUnsigned => 0 ≤ v ∧ v < 2 ^ 64

/-- `normalizeInteger` with what is passed for the attribute, and the operator. -/
def IntAtt.normalize (att : IntAtt) (attName : String) (op : Op) (right : PNode) :
    Except String PNode :=
  match att with
  | .signed size => normalizeIntegerAtt true size.bytes attName op right
  | .unsigned size => normalizeIntegerAtt false size.bytes attName op right
  | .templateUnsigned => normalizeIntegerAtt true 8 attName op right

/-- The comparison of a value of the attribute with the operand. -/
def IntAtt.compare (att : IntAtt) (op : Op) (v : Int) (uval : UInt64) : Bool :=
  match att with
  | .signed _ => compareSignedInts op (Int64.ofInt v) uval.toInt64
  | _ => compareUnsignedInts op (UInt64.ofInt v) uval

def IntAtt.operand (att : IntAtt) (uval : UInt64) : Int :=
  match att with
  | .signed _ => uval.toInt64.toInt
  | _ => uval.toNat

/-! ### What is compared -/

/-- The attributes of a record that are compared as integers. The severity
and the age are compared in ways of their own. -/
def Selector.intAtt : Selector → Option IntAtt
  | .recid | .format | .facility | .uid | .gid => some (.unsigned .int)
  | .size | .thread => some (.unsigned .long)
  | .eventType | .pid | .pgrp | .processor => some (.signed .int)
  | .time => some (.signed .long)
  | _ => none

def stdIntValue (inp : EvalInput) : Selector → Int
  | .recid => inp.entry.logRecid.toInt
  | .size => inp.entry.logSize.toNat
  | .format => inp.entry.logFormat.toInt
  | .eventType => inp.entry.logEventType.toInt
  | .facility => inp.entry.logFacility.toNat
  | .uid => inp.entry.logUid.toNat
  | .gid => inp.entry.logGid.toNat
  | .pid => inp.entry.logPid.toInt
  | .pgrp => inp.entry.logPgrp.toInt
  | .time => inp.entry.logTimeSec.toInt
  | .thread => inp.entry.logThread.toNat
  | .processor => (inp.entry.logProcessor &&& 0x0000ffff).toInt
  | _ => 0

/-! ## Age -/

inductive AgeOperand where
  | integer (l : Literal)
  | string (s : String)
  | name (s : String)

def AgeOperand.node (addr : Nat) : AgeOperand → PNode
  | .integer l => l.node addr
  | .string s => .string addr s
  | .name s => .name addr s

def ageUnit : Char → Option Nat
  | 's' => some 1
  | 'm' => some 60
  | 'h' => some (60 * 60)
  | 'd' => some (60 * 60 * 24)
  | _ => none

/-- A text that is read as an age: digits and a unit, with blanks and a sign
before them if it is not plain. -/
structure AgeText where
  plain : Bool
  negative : Bool
  number : Nat
  unit : Nat
  deriving DecidableEq, Repr

def AgeText.value (a : AgeText) : Int := if a.negative then -(a.number : Int) else a.number

def signOf (t : List Char) : Bool × List Char :=
  match t with
  | '-' :: u => (true, u)
  | '+' :: u => (false, u)
  | u => (false, u)

def ageText (s : List Char) : Option AgeText :=
  let p := signOf (s.dropWhile isCSpace)
  let digits := p.2.takeWhile Char.isDigit
  match p.2.dropWhile Char.isDigit with
  | [c] =>
    if digits = [] then none
    else (ageUnit c).map fun unit => ⟨p.2 = s, p.1, digitsValue 10 digits, unit⟩
  | _ => none

end Evlog.Query
