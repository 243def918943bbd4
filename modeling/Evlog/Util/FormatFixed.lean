/-
Evlog.Util.FormatFixed — the fixed part of an event record as text.

`evl_format_evrec_fixed` of formatrec.c goes through the attributes of a
record header and appends "name=value" and a separator for each
(`addAttr`), on a new line where the line would get too long. It counts on
when the buffer is full, so that it can say how much room it needs.

The texts are built in two local arrays, `val` and `attr`. What goes
beyond one of them, beyond the buffer, or through a null pointer is
`Undefined`. The processor gets a second text, the name of the host.
-/
import Evlog.Lib.Strcat
import Evlog.Query.Member
import Evlog.Util.Dump

namespace Evlog.Util

open Evlog.Lib Evlog.Posix
open Evlog.Query (System Selector posixLogMemtostr evlAttributes evlGetHostNameEx)

/-! ## Constants -/

def maxseplen : Nat := 20

def evlCompact : Int32 := 0x1

/-- The size of `attr`, which starts with `sizeof("VeryLongAttrName=")`. -/
def attrSize : Nat := 18 + posixLogMemstrMaxlen + maxseplen

/-- What a call has no meaning beyond. -/
inductive Undefined where
  | attr
  | buf
  | nullPointer
  deriving DecidableEq, Repr

/-! ## `addAttr` -/

def cText (s : String) : CString := .ofBuf (s.toList.map fun c => c.toNat.toUInt8)

/-- `strcat(attr, s)`. -/
def catAttr (attr s : CString) : Except Undefined CString :=
  let attr := attr.append s
  if attr.bytes.length < attrSize then .ok attr else .error .attr

/-- `strcat(attr, separator)`. -/
def catSeparator (attr : CString) : Option CString → Except Undefined CString
  | some separator => catAttr attr separator
  | none => .error .nullPointer

/-- The record that the text of a member is taken from: the processor
without the node id in its upper half. -/
def rechdr (entry : PosixLogEntry) (memberSelector : Selector) : PosixLogEntry :=
  if memberSelector = .processor then { entry with logProcessor := entry.logProcessor &&& 0xffff }
  else entry

def buildAttr (sys : System) (entry : PosixLogEntry) (memberSelector : Selector)
    (memberName val : String) (separator : Option CString) (fmtFlags : Int32) (lastAttr : Bool) :
    Except Undefined CString := do
  let nodeId := entry.logProcessor >>> 16
  let attr ←
    if fmtFlags &&& evlCompact ≠ 0 then do
      let attr ← catAttr (cText "") (cText val)
      if memberSelector = .processor then do
        let attr ← catSeparator attr separator
        catAttr attr (cText (evlGetHostNameEx sys nodeId))
      else pure attr
    else do
      let attr ← catAttr (cText "") (cText memberName)
      let attr ← catAttr attr (cText "=")
      let attr ← catAttr attr (cText val)
      if memberSelector = .processor then do
        let attr ← catSeparator attr separator
        let attr ← catAttr attr (cText "host")
        let attr ← catAttr attr (cText "=")
        catAttr attr (cText (evlGetHostNameEx sys nodeId))
      else pure attr
  match separator with
  | some separator => if lastAttr then pure attr else catAttr attr separator
  | none => pure attr

/-- Do we need to start a new line? A separator with a newline does that
already. -/
def needNewLine (separator : Option CString) (maxLineLen curLineLen attrLen : Nat) : Bool :=
  let hasNewLine := match separator with
    | some separator => decide (0x0a ∈ separator.bytes)
    | none => false
  decide (maxLineLen ≠ 0 ∧ curLineLen > 0 ∧ curLineLen + attrLen > maxLineLen) && !hasNewLine

/-- What `addAttr` changes: the buffer, `*totalSize` and `*curLineLen`. -/
structure AttrState where
  dest : Dest
  totalSize : Nat
  curLineLen : Nat

/-- `strcat(buf, s)` behind what was there before the call. -/
def catBuf (dest : Dest) (pos : Nat) (s : CString) : Except Undefined Dest :=
  match dest with
  | .null _ => .error .nullPointer
  | .mem buf =>
    match strcatAt buf pos s with
    | some buf => .ok (.mem buf)
    | none => .error .buf

def newLine : CString := cText "\n"

def catPiece (dest : Dest) (pos : Nat) (wrap : Bool) (attr : CString) : Except Undefined Dest :=
  if wrap then do catBuf (← catBuf dest pos newLine) pos attr else catBuf dest pos attr

/-- The end of `addAttr`: count the attribute, and append it if there is
room. -/
def appendAttr (buflen : Nat) (separator : Option CString) (maxLineLen : Nat) (st : AttrState)
    (attr : CString) : Except Undefined (Option Errno × AttrState) :=
  let attrLen := attr.bytes.length
  let wrap := needNewLine separator maxLineLen st.curLineLen attrLen
  let totalSize := st.totalSize + wrap.toNat + attrLen
  let curLineLen := if wrap then attrLen else st.curLineLen + attrLen
  if totalSize + 1 > buflen then .ok (some .emsgsize, { st with totalSize, curLineLen })
  else do
    let dest ← catPiece st.dest st.totalSize wrap attr
    pure (none, { dest, totalSize, curLineLen })

def addAttr (sys : System) (entry : PosixLogEntry) (memberSelector : Selector)
    (memberName : String) (buflen : Nat) (separator : Option CString) (maxLineLen : Nat)
    (fmtFlags : Int32) (lastAttr : Bool) (st : AttrState) :
    Except Undefined (Option Errno × AttrState) :=
  match posixLogMemtostr sys memberSelector (rechdr entry memberSelector) posixLogMemstrMaxlen with
  | .error status => .ok (some status, st)
  | .ok val => do
    let attr ← buildAttr sys entry memberSelector memberName val separator fmtFlags lastAttr
    appendAttr buflen separator maxLineLen st attr

/-! ## `evl_format_evrec_fixed` -/

/-- What the caller has after a call: the status, `*reqlen` if it asked
for it, and the buffer. -/
structure Formatted where
  status : Option Errno
  reqlen : Option Nat
  dest : Dest
  deriving DecidableEq, Repr

/-- The loop over `_evlAttributes`, and what comes after it. -/
def addAttrs (sys : System) (entry : PosixLogEntry) (buflen : Nat) (reqlen : Bool)
    (separator : Option CString) (linelen : Nat) (fmtFlags : Int32) (status : Option Errno)
    (st : AttrState) : List (Selector × String) → Except Undefined Formatted
  | [] => .ok
      { status, reqlen := if reqlen then some (st.totalSize + 1) else none, dest := st.dest }
  | nv :: rest => do
    let (result, st) ←
      addAttr sys entry nv.1 nv.2 buflen separator linelen fmtFlags rest.isEmpty st
    match result with
    | none => addAttrs sys entry buflen reqlen separator linelen fmtFlags status st rest
    | some err =>
      -- out of space is no reason to stop counting
      if ¬ reqlen then .ok { status := some err, reqlen := none, dest := st.dest }
      else if err ≠ .emsgsize then .ok { status := some err, reqlen := some 0, dest := st.dest }
      else addAttrs sys entry buflen reqlen separator linelen fmtFlags (some err) st rest

def evlFormatEvrecFixed (sys : System) (entry : Option PosixLogEntry) (dest : Dest) (reqlen : Bool)
    (separator : Option CString) (linelen : Nat) (fmtFlags : Int32) :
    Except Undefined Formatted :=
  let early : Formatted :=
    { status := some .einval, reqlen := if reqlen then some 0 else none, dest }
  if fmtFlags ≠ 0 ∧ fmtFlags ≠ evlCompact then .ok early
  else
    match entry with
    | none => .ok early
    | some entry =>
      if (separator.map fun s => s.bytes.length).getD 0 > maxseplen then .ok early
      else
        let loop := addAttrs sys entry dest.buflen reqlen separator linelen fmtFlags
        match dest with
        | .mem (_ :: rest) =>
          loop none { dest := .mem (0 :: rest), totalSize := 0, curLineLen := 0 } evlAttributes
        | dest =>
          -- can't return the string, but still try to count characters
          if ¬ reqlen then .ok early
          else loop (some .einval) { dest, totalSize := 0, curLineLen := 0 } evlAttributes

end Evlog.Util
