/-
Evlog.Tmplmgmt.Hash — the hash tables of the template manager.

Struct templates are found by their names, and those for event records by
the facility and the event type. What is in the second table is a FET,
which has the address of the template; there may be one for a facility and
event type that have no template.

A FET is known by its address. Its facility and its event type never
change, so they are in the chains with the address; the other members are
in memory (`FetHash.fets`).
-/
import Evlog.Lib.CString
import Evlog.Lib.HashChain

namespace Evlog.Tmplmgmt

open Evlog.Lib

def hashsz : Nat := 101

/-! ## Struct templates -/

/-- What the table looks at of a `template_t`, and its address. -/
structure StructTmpl where
  tmName : CString
  tcDevice : Nat
  tcInode : Nat
  addr : Nat
  deriving DecidableEq, Repr

/-- `struct stat`, as far as it is looked at. -/
structure Stat where
  stDev : Nat
  stIno : Nat
  deriving DecidableEq, Repr

/-- A `char` as a `size_t`. -/
def charToSize (b : UInt8) : Nat := if b.toNat < 128 then b.toNat else 2 ^ 64 - 256 + b.toNat

def computeHash (name : CString) : Fin hashsz :=
  ⟨name.bytes.foldl (fun hash c => (2 * hash + charToSize c) % 2 ^ 64) 0 % hashsz,
    Nat.mod_lt _ (by decide)⟩

abbrev StructHash := Chains StructTmpl hashsz

def insertTemplateIntoHashList (t : StructTmpl) : List StructTmpl → List StructTmpl
  | [] => [t]
  | pt :: rest =>
    if CString.strcmp t.tmName pt.tmName ≤ 0 then t :: pt :: rest
    else pt :: insertTemplateIntoHashList t rest

def addTemplateToHash (table : StructHash) (t : StructTmpl) : StructHash :=
  Function.update table (computeHash t.tmName)
    (insertTemplateIntoHashList t (table (computeHash t.tmName)))

/-- The device and the inode match, where they are asked for. -/
def StructTmpl.sameFile (pt : StructTmpl) : Option Stat → Bool
  | none => true
  | some st => st.stDev = pt.tcDevice && st.stIno = pt.tcInode

/-- The loop of `findTemplateInHash`. -/
def findTemplateInHashList (name : CString) (st : Option Stat) : List StructTmpl → Option StructTmpl
  | [] => none
  | pt :: rest =>
    let cmp := CString.strcmp name pt.tmName
    if 0 < cmp then none
    else if cmp = 0 && pt.sameFile st then some pt
    else findTemplateInHashList name st rest

def findTemplateInHash (name : CString) (st : Option Stat) (table : StructHash) : Option StructTmpl :=
  findTemplateInHashList name st (table (computeHash name))

/-! ## Facilities and event types -/

/-- A value as an `int`. -/
def toInt32 (n : Int) : Int := n.bmod (2 ^ 32)

/-- An `int`. -/
def IsInt32 (n : Int) : Prop := -2 ^ 31 ≤ n ∧ n < 2 ^ 31

instance (n : Int) : Decidable (IsInt32 n) := inferInstanceAs (Decidable (_ ∧ _))

structure FacEvent where
  facility : Nat
  eventType : Int
  facility_lt : facility < 2 ^ 32
  isInt32 : IsInt32 eventType
  deriving DecidableEq, Repr

/-- `computeHashByFET`. The `ABS` of the least `int` is that `int`, and a
negative remainder is large as a `size_t`. -/
def computeHashByFET (f : FacEvent) : Nat :=
  let n := toInt32 (f.facility + f.eventType)
  let abs := toInt32 (if n < 0 then -n else n)
  (Int.tmod abs hashsz % 2 ^ 64).toNat

/-- `fet_t`, less what never changes. The members are addresses, of a
template and of a FET. -/
structure Fet where
  template : Option Nat
  default : Option Nat
  notThere : Bool
  deriving DecidableEq, Repr

structure FetNode where
  key : FacEvent
  addr : Nat
  deriving DecidableEq, Repr

/-- `evrecHash`, with the FETs in memory. -/
structure FetHash where
  table : Chains FetNode hashsz
  fets : List Fet

def FetHash.empty : FetHash := ⟨fun _ => [], []⟩

def insertFETIntoHashList (fet : FetNode) : List FetNode → List FetNode
  | [] => [fet]
  | pfet :: rest =>
    if fet.key.eventType ≤ pfet.key.eventType then fet :: pfet :: rest
    else pfet :: insertFETIntoHashList fet rest

/-- `makeFET`, with what is stored in it before it is added, and
`addFETToHash`. It is `none` if the slot is none of the table. -/
def addFETToHash (h : FetHash) (f : FacEvent) (fet : Fet) : Option FetHash :=
  if hslot : computeHashByFET f < hashsz then
    let slot : Fin hashsz := ⟨computeHashByFET f, hslot⟩
    some
      { table := Function.update h.table slot (insertFETIntoHashList ⟨f, h.fets.length⟩ (h.table slot))
        fets := h.fets ++ [fet] }
  else none

/-- The loop of `findFETInHash`. The difference is an `int`. -/
def findFETInHashList (f : FacEvent) : List FetNode → Option FetNode
  | [] => none
  | pfet :: rest =>
    let cmp := toInt32 (pfet.key.eventType - f.eventType)
    if 0 < cmp then none
    else if cmp = 0 && pfet.key.facility = f.facility then some pfet
    else findFETInHashList f rest

/-- `findFETInHash`. It is `none` if the slot is none of the table. -/
def findFETInHash (f : FacEvent) (h : FetHash) : Option (Option FetNode) :=
  if hslot : computeHashByFET f < hashsz then
    some (findFETInHashList f (h.table ⟨computeHashByFET f, hslot⟩))
  else none

/-- Why a call does not return. -/
inductive Abort where
  /-- `assert(fet->fet_template == NULL)` -/
  | assertion
  /-- The slot is none of the table. -/
  | outOfBounds
  deriving DecidableEq, Repr

/-- `addTemplateToFETHash`, for the template with the address. -/
def addTemplateToFETHash (h : FetHash) (f : FacEvent) (t : Nat) : Except Abort FetHash :=
  match findFETInHash f h with
  | none => .error .outOfBounds
  | some (some node) =>
    match h.fets[node.addr]? with
    | some ⟨none, _, flags⟩ => .ok { h with fets := h.fets.set node.addr ⟨some t, none, flags⟩ }
    | _ => .error .assertion
  | some none =>
    match addFETToHash h f ⟨some t, none, false⟩ with
    | some h => .ok h
    | none => .error .outOfBounds

end Evlog.Tmplmgmt
