/-
Evlog.Evlogd.KernEvt — kernel events on their way to evlogd (evlogd.c).

`writeKernEvt` writes the header and the body of an event to a socket. In a
string it looks for addresses, "[<aaaaaa>]", with a scanner that copies the
string to `writebuf` on the way; at the "]" it goes back to the "<" and
prints the symbol there, "[name+offset/size]".

`writebuf` is known here by the bytes in front of `line` and by how many of
its bytes have been written to (`high`). `parse_state` and `sym_start` are
static; the latter points into the `writebuf` of a call that has returned,
and if it is followed the outcome is `none`. All that is written arrives.
-/
import Evlog.Lib.Numeral
import Evlog.Posix.Entry

namespace Evlog.Evlogd

open Evlog.Lib
open Evlog.Posix (PosixLogEntry posixLogString posixLogTruncate posixLogEntryMaxlen)

/-! ## Symbols -/

/-- `struct symbol`, with the name that `LookupSymbol` returns. -/
structure Symbol where
  name : CString
  offset : Int32
  size : Int32

/-- `LookupSymbol`, with the tables as they are. -/
abbrev SymbolTable := UInt64 → Option Symbol

def Symbol.text (sym : Symbol) : List UInt8 :=
  sym.name.bytes ++ 0x2b :: CString.signedDecimal sym.offset.toInt ++
    0x2f :: CString.signedDecimal sym.size.toInt

/-- `strtoul(s, NULL, 16)`. -/
def strtoul16 (s : List UInt8) : UInt64 :=
  let (negative, t) := CString.sign (s.dropWhile CString.isSpace)
  let t :=
    if (t.take 2 = [0x30, 0x78] ∨ t.take 2 = [0x30, 0x58]) ∧ (t.drop 2).head?.any CString.isXDigit then t.drop 2
    else t
  let n := CString.rowValue 16 (t.takeWhile CString.isXDigit)
  if n < 2 ^ 64 then (if negative then -UInt64.ofNat n else UInt64.ofNat n) else 0xffffffffffffffff

/-! ## The scanner -/

/-- `parse_state_enum`. -/
inductive ParseState where
  | text
  | symstart
  | symbol
  | symend
  deriving DecidableEq, Repr

/-- The loop between two characters. -/
structure Scan where
  state : ParseState
  /-- The offset of `sym_start`; none if it is that of an earlier call. -/
  symStart : Option Nat
  line : List UInt8
  high : Nat
  expanded : Bool
  deriving DecidableEq, Repr

def Scan.start (state : ParseState) : Scan := ⟨state, none, [], 0, false⟩

/-- `*line++ = c`, in the next state. -/
def Scan.put (s : Scan) (state : ParseState) (c : UInt8) : Scan :=
  { s with state := state, line := s.line ++ [c], high := max s.high (s.line.length + 1) }

/-- `sprintf (sym_start, ...)`, and `line` behind it. -/
def Scan.print (s : Scan) (start : Nat) (text : List UInt8) : Scan :=
  { s with line := s.line.take start ++ text, high := max s.high (start + text.length + 1), expanded := true }

/-- What `PARSING_SYMBOL` goes on at. -/
def isAddressDigit (c : UInt8) : Bool :=
  !(c < 0x30 || 0x66 < c || (0x39 < c && c < 0x41) || (0x46 < c && c < 0x61))

def Scan.step (table : SymbolTable) (logSize : Nat) (s : Scan) (c : UInt8) : Option Scan :=
  match s.state with
  | .text => some (s.put (if c = 0x5b then .symstart else .text) c)
  | .symstart =>
    if c = 0x3c then some ({ s with symStart := some s.line.length }.put .symbol c) else some (s.put .text c)
  | .symbol =>
    if c = 0x3e then some (s.put .symend c)
    else if isAddressDigit c = false then some (s.put .text c)
    else some (s.put .symbol c)
  | .symend =>
    if c ≠ 0x5d then some (s.put .text c)
    else
      match s.symStart with
      | none => none
      | some start =>
        -- the ">" is a NUL while the digits are read
        match table (strtoul16 (s.line.drop (start + 1)).dropLast) with
        | none => some (s.put .text c)
        | some sym =>
          if posixLogEntryMaxlen < logSize + sym.name.bytes.length + 10 then some (s.put .text c)
          else some ((s.print start sym.text).put .text c)

/-! ## `writeKernEvt` -/

/-- A call: the symbols, if `lookup_symbol`, `symbol_twice`, the entry, and the
memory from `buf` on. -/
structure KernCall where
  table : Option SymbolTable
  symbolTwice : Bool
  entry : PosixLogEntry
  buf : List UInt8

/-- What a call does: the bodies that are written, each behind a header with
its size, how far `writebuf` is written to, and what is left in
`parse_state`. -/
structure KernWritten where
  bodies : List (List UInt8)
  high : Nat
  state : ParseState
  deriving DecidableEq, Repr

/-- `entry->log_size`. -/
def KernCall.logSize (call : KernCall) : Nat := call.entry.logSize.toNat

def KernCall.body (call : KernCall) : List UInt8 := call.buf.take call.logSize

/-- The characters that the loop goes over: up to the NUL, and not further
than one byte behind the body. -/
def KernCall.chars (call : KernCall) : List UInt8 := (call.buf.take (call.logSize + 1)).takeWhile (· ≠ 0)

def KernCall.isString (call : KernCall) : Bool := call.entry.logFormat == posixLogString

def KernCall.isTruncated (call : KernCall) : Bool := call.entry.logFlags &&& posixLogTruncate != 0

def writeKernEvt (state : ParseState) (call : KernCall) : Option KernWritten :=
  if call.isString && call.isTruncated then
    some ⟨[call.body.set (posixLogEntryMaxlen - 1) 0], max call.logSize posixLogEntryMaxlen, state⟩
  else
    match call.table, call.isString with
    | some table, true =>
      (call.chars.foldlM (Scan.step table call.logSize) (.start state)).map fun s =>
        let high := max s.high (s.line.length + 1)
        if s.expanded then
          ⟨(s.line.takeWhile (· ≠ 0) ++ [0]) :: (if call.symbolTwice then [call.body] else []), high, s.state⟩
        else ⟨[call.body], high, s.state⟩
    | _, _ => some ⟨[call.body], 0, state⟩

def writeKernEvts : ParseState → List KernCall → Option (List KernWritten)
  | _, [] => some []
  | state, call :: calls =>
    (writeKernEvt state call).bind fun written => (writeKernEvts written.state calls).map (written :: ·)

end Evlog.Evlogd
