/-
Evlog.Evlgentmpls.MetaInfo — the call sites of an object file (evlgentmpls.c).

A `.log` section is an array of `evlog_info` objects, one for each call.
`prepare_meta_info` computes the facility and the event type of each, and
puts the calls that have both in common on one list, so that they get one
template.

A pointer into the array is the index of the element. A list is a ring in a
heap, and a new node gets the address after the last one. `unbrace` may read
behind the NUL of a format; what comes of it then is `behind`, which may be
any text.
-/
import Evlog.Posix.Facility
import Evlog.Printf.Unbrace
import Evlog.Lib.RingFamily
import Evlog.Lib.CString

namespace Evlog.Evlgentmpls

open Evlog.Lib Evlog.Lib.ListHeap Evlog.Posix Evlog.Printf

/-- The version of the scheme by which templates are made. -/
inductive Version where
  | v1
  | v2
  deriving DecidableEq, Repr

/-- `struct evlog_position`. The line is a `__LINE__`, unless the section has
been written by something else. -/
structure EvlogPosition where
  line : Int32
  function : CString
  file : CString
  deriving DecidableEq

/-- `struct evlog_info`. -/
structure EvlogInfo where
  format : CString
  facility : CString
  pos : EvlogPosition
  deriving DecidableEq

inductive DupStatus where
  | unique
  | firstDup
  | nthDup
  deriving DecidableEq, Repr

/-- `struct log_meta_info`. -/
structure LogMetaInfo (nel : Nat) where
  info : Fin nel
  dups : Option Nat
  dupStatus : DupStatus
  facility : UInt32
  eventType : Int32
  unbracedFormat : Option (List UInt8)
  deriving DecidableEq

/-! ## What is computed of one call -/

def evlGenEventType (s1 s2 s3 : List UInt8) : Int32 := (crc32 s1 + crc32 s2 + crc32 s3).toInt32

/-- `terminating_newline`, as whether there is one. -/
def terminatingNewline (s : List UInt8) : Bool := s.getLast? = some 0x0a

def unbraceFmt (behind fmt : List UInt8) : List UInt8 :=
  let hasSeverity :=
    match fmt with
    | a :: b :: c :: _ => a = 0x3c && isdigit b && c = 0x3e
    | _ => false
  if hasSeverity || terminatingNewline fmt || (strstr endTag fmt).isSome || (strstr cutTag fmt).isSome then
    let bufsz := fmt.length + 1
    let src := if hasSeverity then fmt.drop 3 else fmt
    let cutHere := (strstr cutTag src).map fun found => found.1.length
    let buf := (unbraceLoop bufsz cutHere src.length ⟨[], [], 0, src⟩).getD behind
    -- checked again, for a newline in front of what was cut off
    if terminatingNewline buf then buf.dropLast else buf
  else fmt

def logKern : UInt32 := 0

section Array

variable {nel : Nat} (version : Version) (behind : Fin nel → List UInt8) (info : Fin nel → EvlogInfo)

/-- `mif[i]` before duplicates of it are looked for. -/
def newMetaInfo (i : Fin nel) : LogMetaInfo nel :=
  let unbraced :=
    match version with
    | .v1 => none
    | .v2 => some (unbraceFmt (behind i) (info i).format.bytes)
  { info := i
    dups := none
    dupStatus := .unique
    facility := (evlGenFacilityCode (info i).facility.bytes).getD logKern
    eventType :=
      -- `compute_event_type`
      match unbraced with
      | none => evlGenEventType (info i).pos.file.bytes (info i).pos.function.bytes (info i).format.bytes
      | some fmt => evlGenEventTypeV2 fmt
    unbracedFormat := unbraced }

def sameEvent (mif₁ mif₂ : LogMetaInfo nel) : Bool :=
  match version with
  | .v1 =>
    let info₁ := info mif₁.info
    let info₂ := info mif₂.info
    info₁.format = info₂.format && info₁.pos.file = info₂.pos.file &&
      info₁.pos.function = info₂.pos.function
  | .v2 => mif₁.unbracedFormat = mif₂.unbracedFormat

/-- `duplicate_info`, whose complaint about a collision `prepareStep` counts. -/
def duplicateInfo (mif₁ mif₂ : LogMetaInfo nel) : Bool :=
  mif₁.eventType = mif₂.eventType && mif₁.facility = mif₂.facility

def compareInfo (i j : Fin nel) : Int :=
  let info₁ := info i
  let info₂ := info j
  match version with
  | .v1 => (info₁.pos.line - info₂.pos.line).toInt
  | .v2 =>
    let ret := CString.strcmp info₁.pos.file info₂.pos.file
    if ret = 0 then
      let ret := CString.strcmp info₁.pos.function info₂.pos.function
      if ret = 0 then (info₁.pos.line - info₂.pos.line).toInt else ret
    else ret

/-- `add_dup`, with the new node at the address `p`. -/
def addDup (h : ListHeap (Fin nel)) (fuel head p : Nat) (i : Fin nel) :
    Option (ListHeap (Fin nel) × Nat) :=
  h.addInOrder (fun i j => compareInfo version info i j < 0) fuel head p i

/-! ## `prepare_meta_info` -/

/-- The elements of `mif` that are done, the lists, the number of nodes that
were made, and how many complaints there were. -/
structure Prepared (nel : Nat) where
  mif : List (LogMetaInfo nel)
  heap : ListHeap (Fin nel)
  nodes : Nat
  errors : Nat

/-- The list of an element, made if it has none: the heap, the number of
nodes, and the head. -/
def dupsOf (s : Prepared nel) (mj : LogMetaInfo nel) : ListHeap (Fin nel) × Nat × Nat :=
  match mj.dups with
  | some dups => (s.heap, s.nodes, dups)
  | none => (s.heap.mkListNode s.nodes mj.info, s.nodes + 1, s.nodes)

/-- The call `i`, whose meta-info is `mi`, is a dup of `j`. -/
def isDupOf (s : Prepared nel) (i : Fin nel) (mi : LogMetaInfo nel) (j : Nat) (mj : LogMetaInfo nel) :
    Option (Prepared nel) :=
  let (heap, nodes, dups) := dupsOf s mj
  (addDup version info heap nodes dups nodes i).bind fun (heap, dups) =>
    (heap dups).map fun firstDup =>
      { mif :=
          if firstDup.data = i then
            -- i replaces j as first dup
            s.mif.set j { mj with dups := none, dupStatus := .nthDup }
              ++ [{ mi with dups := some dups, dupStatus := .firstDup }]
          else
            s.mif.set j { mj with dups := some dups, dupStatus := .firstDup }
              ++ [{ mi with dupStatus := .nthDup }]
        heap := heap
        nodes := nodes + 1
        errors := if sameEvent version info mi mj then s.errors else s.errors + 1 }

def prepareStep (s : Prepared nel) (i : Fin nel) : Option (Prepared nel) :=
  let mi := newMetaInfo version behind info i
  let errors := if (evlGenFacilityCode (info i).facility.bytes).isNone then s.errors + 1 else s.errors
  match s.mif.findIdx? fun mj => mj.dupStatus ≠ .nthDup && duplicateInfo mi mj with
  | none => some ⟨s.mif ++ [mi], s.heap, s.nodes, errors⟩
  | some j => s.mif[j]?.bind fun mj => isDupOf version info { s with errors := errors } i mi j mj

def prepareMetaInfo : Option (Prepared nel) :=
  (List.finRange nel).foldlM (prepareStep version behind info) ⟨[], fun _ => none, 0, 0⟩

end Array

/-- The elements that `do_section` creates a template for. -/
def createdFor {nel : Nat} (mif : List (LogMetaInfo nel)) : List (LogMetaInfo nel) :=
  mif.filter fun mi => mi.dupStatus ≠ .nthDup

/-- The lists that `free_meta_info` frees. -/
def freeMetaInfo {nel : Nat} (s : Prepared nel) : Option (ListHeap (Fin nel)) :=
  s.mif.foldlM (fun h mi => h.freeList s.nodes mi.dups) s.heap

end Evlog.Evlgentmpls
