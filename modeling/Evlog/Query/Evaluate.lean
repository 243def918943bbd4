/-
Evlog.Query.Evaluate — evaluate.c: does an event record match a query?

`evaluateTree` is the plain recursive evaluator. `evaluateNsaTree` wraps
it for a query with non-standard attributes: evaluate the left subtree of
an AND_LATER or OR_LATER root, look for the record's template, screen the
template's attributes, perhaps answer without populating it, and else
populate it and evaluate what is left.

An `assert` that fails, and a read the C code has no right to, is `none`.
A template is known by the attribute a name resolves to (an address, or
ENOENT) on the unpopulated clone, its master and the populated clone, and by
what the attributes look like before and after population, which succeeds:
its three failures cannot occur here. An attribute is known by what the
accessor macros read from it and by the text `formatAttribute` gives it.
-/
import Evlog.Query.Member
import Evlog.Query.Optimize

namespace Evlog.Query

open Evlog.Lib Evlog.Posix

/-! ## Attributes of a template -/

/-- `tmpl_base_type_t`. -/
inductive BaseType where
  | none
  | char
  | uchar
  | short
  | ushort
  | int
  | uint
  | long
  | ulong
  | longlong
  | ulonglong
  | float
  | double
  | ldouble
  | string
  | wchar
  | wstring
  | address
  | struct
  | prefix3
  | list
  | structname
  | typedef
  | special
  deriving DecidableEq, Repr

/-- A `double` or a `long double`. -/
inductive FloatVal where
  | nan
  | inf (negative : Bool)
  | fin (q : Rat)
  deriving DecidableEq

/-- `evlattribute_t`: the members of `ta_value` are what each accessor
reads, `format` is the outcome of `formatAttribute`. -/
structure Attribute where
  isArray : Bool
  baseType : BaseType
  attExists : Bool
  valLong : Int64
  valUlong : UInt64
  valLonglong : Int64
  valUlonglong : UInt64
  valDouble : FloatVal
  valLongdouble : FloatVal
  format : Except Errno String

def evlAttrstrMaxlen : Nat := 8 * 1024

def evlattGetstring (att : Attribute) (buflen : Nat) : Except Errno String :=
  match att.format with
  | .error err => .error err
  | .ok s => if s.length + 1 > buflen then .error .emsgsize else .ok s

def isNumericAtt (att : Attribute) : Bool :=
  !att.isArray &&
    match att.baseType with
    | .char | .short | .int | .long | .uchar | .ushort | .uint | .ulong | .longlong
    | .ulonglong | .float | .double | .ldouble | .wchar => true
    | _ => false

/-! ## Comparisons -/

/-- `strstr(left, right) != NULL`. -/
def strstr (left right : String) : Bool := decide (right.toList <:+: left.toList)

def compareStrings (op : Op) (left right : String) : Bool :=
  match op with
  | .eq => left = right
  | .ne => left ≠ right
  | .contains => strstr left right
  | _ => false

/-- `NUMERIC_COMPARISONS`, given how the operands compare. -/
def numericComparisons (op : Op) (eq lt gt : Bool) : Bool :=
  match op with
  | .eq => eq
  | .ne => !eq
  | .lt => lt
  | .le => lt || eq
  | .gt => gt
  | .ge => gt || eq
  | _ => false

def compareSignedInts (op : Op) (left right : Int64) : Bool :=
  if op = .bitAnd then left &&& right ≠ 0
  else numericComparisons op (left = right) (left < right) (right < left)

def compareUnsignedInts (op : Op) (left right : UInt64) : Bool :=
  if op = .bitAnd then left &&& right ≠ 0
  else numericComparisons op (left = right) (left < right) (right < left)

/-- `==` and `<` of IEEE 754. -/
def FloatVal.feq : FloatVal → FloatVal → Bool
  | .inf s, .inf t => s = t
  | .fin p, .fin q => p = q
  | _, _ => false

def FloatVal.flt : FloatVal → FloatVal → Bool
  | .inf s, .inf t => s && !t
  | .inf s, .fin _ => s
  | .fin _, .inf t => !t
  | .fin p, .fin q => p < q
  | _, _ => false

/-- `compareDoubles` and `compareLongdoubles`. -/
def compareFloats (op : Op) (left right : FloatVal) : Bool :=
  numericComparisons op (left.feq right) (left.flt right) (right.flt left)

/-- An integer rounded to a multiple of `2 ^ shift`, ties to even. -/
def roundToMultiple (shift n : Nat) : Nat :=
  let unit := 2 ^ shift
  let q := n / unit
  let rest := n % unit
  if 2 * rest > unit || (2 * rest = unit && q % 2 = 1) then (q + 1) * unit else q * unit

/-- `(double) sval`: 53 bits of the value survive. -/
def doubleOfLong (n : Int64) : FloatVal :=
  let m := n.toInt.natAbs
  let r := roundToMultiple (m.log2 - 52) m
  .fin (if n.toInt < 0 then -(r : Int) else r)

/-- `(long double) sval`, which is exact. -/
def longdoubleOfLong (n : Int64) : FloatVal := .fin n.toInt

/-! ## `evaluateTree` -/

structure EvalInput where
  sys : System
  entry : PosixLogEntry
  buf : List UInt8

/-- The array `tmplAtts` as the evaluator reads it: NULL, or for each
position NULL or an attribute. -/
abbrev TmplAtts := Option (List (Option Attribute))

/-- `tmplAtts[attr_nsa->nsaAtt]`. -/
def tmplAttAt (nsAtts : List NonStdAtt) (atts : List (Option Attribute)) (i : Nat) :
    Option (Option Attribute) := do
  let nsa ← nsAtts[i]?
  atts[nsa.nsaAtt]?

def cString (buf : List UInt8) : String :=
  String.ofList ((buf.takeWhile (· ≠ 0)).map fun b => Char.ofNat b.toNat)

/-- The comparison of a text with an `nt_string` or `nt_regex` node. -/
def compareText (sys : System) (op : Op) (leftStr : String) : PNode → Option Bool
  | .string _ rightStr => some (compareStrings op leftStr rightStr)
  | .regex _ re => some (if op = .reMatch then sys.regexec re leftStr else !sys.regexec re leftStr)
  | _ => none

def compareAttWithVal (op : Op) (att : Attribute) (sval : Int64) : Bool :=
  match att.baseType with
  | .char | .wchar | .short | .int | .long => compareSignedInts op att.valLong sval
  | .uchar | .ushort | .uint | .ulong => compareUnsignedInts op att.valUlong sval.toUInt64
  | .longlong => compareSignedInts op att.valLonglong sval
  | .ulonglong => compareUnsignedInts op att.valUlonglong sval.toUInt64
  | .float | .double => compareFloats op att.valDouble (doubleOfLong sval)
  | .ldouble => compareFloats op att.valLongdouble (longdoubleOfLong sval)
  | _ => false

/-- `evaluateNonStdComparison` once the attribute is known to exist. -/
def compareExistingAtt (sys : System) (op : Op) (att : Attribute) (right : PNode) : Option Bool :=
  match right with
  | .string _ _ | .regex _ _ =>
    match evlattGetstring att evlAttrstrMaxlen with
    | .ok leftStr => compareText sys op leftStr right
    | .error _ => none
  | .val _ _ uval => some (compareAttWithVal op att uval.toInt64)
  | _ => none

def evaluateNonStdComparison (inp : EvalInput) (nsAtts : List NonStdAtt) (tmplAtts : TmplAtts)
    (op : Op) (i : Nat) (right : PNode) : Option Bool :=
  match tmplAtts with
  | none => some false
  | some atts => do
    match ← tmplAttAt nsAtts atts i with
    | none => some false
    | some att => if att.attExists then compareExistingAtt inp.sys op att right else some false

/-- The text of a standard attribute; `none` inside is the `return 0` for
data that is not a string. -/
def stdAttText (inp : EvalInput) : Selector → Option (Option String)
  | .data =>
    if inp.entry.logFormat ≠ posixLogString then some none else some (some (cString inp.buf))
  | .host => some (some (evlGetHostNameEx inp.sys (inp.entry.logProcessor >>> 16)))
  | sel =>
    match posixLogMemtostr inp.sys sel inp.entry posixLogMemstrMaxlen with
    | .ok s => some (some s)
    | .error _ => none

/-- The `switch` over the standard attributes; `uval` is the operand. -/
def compareStdWithVal (inp : EvalInput) (op : Op) (uval : UInt64) : Selector → Bool
  | .recid => compareUnsignedInts op inp.entry.logRecid.toInt64.toUInt64 uval
  | .size => compareUnsignedInts op inp.entry.logSize uval
  | .format => compareSignedInts op inp.entry.logFormat.toInt64 uval.toInt64
  | .eventType => compareSignedInts op inp.entry.logEventType.toInt64 uval.toInt64
  | .facility => compareUnsignedInts op inp.entry.logFacility.toUInt64 uval
  | .severity =>
    -- posix_log_severity_compare: `order = s2 - s1`, status 0
    compareSignedInts op (uval.toInt64.toInt32 - inp.entry.logSeverity).toInt64 0
  | .uid => compareUnsignedInts op inp.entry.logUid.toUInt64 uval
  | .gid => compareUnsignedInts op inp.entry.logGid.toUInt64 uval
  | .pid => compareSignedInts op inp.entry.logPid.toInt64 uval.toInt64
  | .pgrp => compareSignedInts op inp.entry.logPgrp.toInt64 uval.toInt64
  | .time => compareSignedInts op inp.entry.logTimeSec uval.toInt64
  | .flags => compareUnsignedInts op inp.entry.logFlags.toUInt64 uval
  | .thread => compareUnsignedInts op inp.entry.logThread uval
  | .processor =>
    compareSignedInts op (inp.entry.logProcessor &&& 0x0000ffff).toInt64 uval.toInt64
  | .age => compareSignedInts op (inp.sys.time.toUInt64 - uval).toInt64 inp.entry.logTimeSec
  | .host => compareUnsignedInts op (inp.entry.logProcessor >>> 16).toInt64.toUInt64 uval
  | .data => false

def evaluateStdComparison (inp : EvalInput) (op : Op) (sel : Selector) (right : PNode) :
    Option Bool :=
  match right with
  | .string _ _ | .regex _ _ => do
    match ← stdAttText inp sel with
    | none => some false
    | some leftStr => compareText inp.sys op leftStr right
  | .val _ _ uval => some (compareStdWithVal inp op uval sel)
  | _ => none

def evaluateTree (inp : EvalInput) (nsAtts : List NonStdAtt) (tmplAtts : TmplAtts) :
    PNode → Option Bool
  | .attname _ sel _ => some (if sel = .data then inp.entry.logSize > 0 else true)
  | .nsaname _ i _ =>
    match tmplAtts with
    | none => some false
    | some atts => do
      match ← tmplAttAt nsAtts atts i with
      | none => some false
      | some att => some att.attExists
  | .op _ .and l r => do
    if ← evaluateTree inp nsAtts tmplAtts l then evaluateTree inp nsAtts tmplAtts r
    else some false
  | .op _ .or l r => do
    if ← evaluateTree inp nsAtts tmplAtts l then some true
    else evaluateTree inp nsAtts tmplAtts r
  | .op _ .not l _ => do
    let b ← evaluateTree inp nsAtts tmplAtts l
    some !b
  | .op _ o (.nsaname _ i _) r => evaluateNonStdComparison inp nsAtts tmplAtts o i r
  | .op _ o (.attname _ sel _) r => evaluateStdComparison inp o sel r
  | _ => none

/-! ## Templates -/

/-- What the calls on one template return. -/
structure Template where
  /-- `evltemplate_getatt` on the unpopulated clone; `none` is ENOENT. -/
  getatt : String → Option Nat
  /-- The same on the clone's `tm_master`. -/
  getattMaster : String → Option Nat
  /-- The same on the populated clone. -/
  getattPopulated : String → Option Nat
  /-- The attribute at an address, before population. -/
  att : Nat → Attribute
  /-- The attribute at an address, after population. -/
  populatedAtt : Nat → Attribute

structure TmplMgmtFlags where
  lazydepop : Bool
  reuse1clone : Bool
  deriving DecidableEq, Repr

/-- What has happened to a clone since `evl_gettemplate` returned it. -/
structure CloneState where
  populated : Bool
  releases : Nat
  frees : Nat
  deriving DecidableEq, Repr

/-- `evl_releasetemplate` of a clone. -/
def evlReleasetemplate (flags : TmplMgmtFlags) (c : CloneState) : CloneState :=
  { populated := c.populated && flags.lazydepop
    releases := c.releases + 1
    frees := if flags.reuse1clone then c.frees else c.frees + 1 }

/-! ## Screening -/

/-- The members of `struct eval_context` that screening fills, and its
`foundInvalidAtt`. -/
structure Screening where
  tmplAtts : List (Option Nat)
  anyValidAtts : Bool
  anyStrRefs : Bool
  foundInvalidAtt : Bool

/-- The attribute screening stores for an entry: the one the template has
under that name, if it will do. -/
def screenedAtt (t : Template) (nsa : NonStdAtt) : Option Nat :=
  match (if nsa.strref then t.getattMaster nsa.nsaName else t.getatt nsa.nsaName) with
  | none => none
  | some att => if nsa.numeric && !isNumericAtt (t.att att) then none else some att

/-- One iteration of the first loop of `screenUnpopulatedTemplate`. -/
def screenEntry (t : Template) (sc : Screening) (nsa : NonStdAtt) : Option Screening :=
  let att := screenedAtt t nsa
  if nsa.nsaAtt < sc.tmplAtts.length then
    some
      { tmplAtts := sc.tmplAtts.set nsa.nsaAtt att
        anyValidAtts := sc.anyValidAtts || att.isSome
        anyStrRefs := sc.anyStrRefs || nsa.strref
        foundInvalidAtt := sc.foundInvalidAtt || att.isNone }
  else none

/-- The first loop: every entry, into an array of the list's size. -/
def screenAtts (t : Template) (nsAtts : List NonStdAtt) : Option Screening :=
  nsAtts.foldlM (screenEntry t) ⟨List.replicate nsAtts.length none, false, false, false⟩

/-- The second loop: the first missing attribute that decides. -/
def missingResult (tmplAtts : List (Option Nat)) : List NonStdAtt → EvlFuzzyBoolean
  | [] => evlFuzzyMaybe
  | nsa :: rest =>
    if (tmplAtts.getD nsa.nsaAtt none).isNone && nsa.nsaResultIfMissing ≠ evlFuzzyMaybe then
      nsa.nsaResultIfMissing
    else missingResult tmplAtts rest

def screenUnpopulatedTemplate (t : Template) (ns : NonStdAtts) :
    Option (EvlFuzzyBoolean × Screening) := do
  let sc ← screenAtts t ns.nsAtts
  if !sc.anyValidAtts then some (ns.nsResultIfAllAttsMissing, sc)
  else if !sc.foundInvalidAtt then some (evlFuzzyMaybe, sc)
  else some (missingResult sc.tmplAtts ns.nsAtts, sc)

/-- One iteration of `fixStructRefs`. -/
def fixStructRef (t : Template) (tmplAtts : List (Option Nat)) (nsa : NonStdAtt) :
    List (Option Nat) :=
  if (tmplAtts.getD nsa.nsaAtt none).isSome && nsa.strref then
    tmplAtts.set nsa.nsaAtt (t.getattPopulated nsa.nsaName)
  else tmplAtts

def fixStructRefs (t : Template) (nsAtts : List NonStdAtt) (tmplAtts : List (Option Nat)) :
    List (Option Nat) :=
  nsAtts.foldl (fixStructRef t) tmplAtts

/-! ## `evaluateNsaTree` -/

/-- What `prepareNonStdAtts` leaves in `struct eval_context`: the clone, if
there is one, and the attributes `tmplAtts` points to. -/
structure Prepared where
  clone : Option CloneState
  tmplAtts : TmplAtts

/-- `prepareNonStdAtts`; `lookup` is the outcome of `evl_gettemplate`. -/
def prepareNonStdAtts (flags : TmplMgmtFlags) (ns : NonStdAtts) (lookup : Option Template) :
    Option (EvlFuzzyBoolean × Prepared) :=
  match lookup with
  | none => some (ns.nsResultIfAllAttsMissing, ⟨none, none⟩)
  | some t => do
    let clone : CloneState := ⟨false, 0, 0⟩
    let (fb, sc) ← screenUnpopulatedTemplate t ns
    if !sc.anyValidAtts || fb ≠ evlFuzzyMaybe then
      some (fb, ⟨some (evlReleasetemplate flags clone),
        some (sc.tmplAtts.map (·.map t.att))⟩)
    else
      let tmplAtts :=
        if sc.anyStrRefs then fixStructRefs t ns.nsAtts sc.tmplAtts else sc.tmplAtts
      some (evlFuzzyMaybe, ⟨some { clone with populated := true },
        some (tmplAtts.map (·.map t.populatedAtt))⟩)

/-- `evaluateLeft`; `none` for the result of the left branch is -1. -/
def evaluateLeft (inp : EvalInput) (nsAtts : List NonStdAtt) :
    PNode → Option (EvlFuzzyBoolean × Option Bool)
  | .op _ .andLater l _ => do
    let leftResult ← evaluateTree inp nsAtts none l
    some (if leftResult then evlFuzzyMaybe else evlFuzzyFalse, some leftResult)
  | .op _ .orLater l _ => do
    let leftResult ← evaluateTree inp nsAtts none l
    some (if leftResult then evlFuzzyTrue else evlFuzzyMaybe, some leftResult)
  | _ => some (evlFuzzyMaybe, none)

def PNode.right : PNode → PNode
  | .op _ _ _ r => r
  | _ => .null

/-- A call of `evaluateNsaTree` that returned: its result, and the clone
it obtained from `evl_gettemplate`, as it is left behind. -/
structure NsaOutcome where
  result : Bool
  clone : Option CloneState

def evaluateNsaTree (inp : EvalInput) (flags : TmplMgmtFlags) (lookup : Option Template)
    (root : PNode) (ns : NonStdAtts) : Option NsaOutcome := do
  let (fbResult, leftResult) ← evaluateLeft inp ns.nsAtts root
  if fbResult ≠ evlFuzzyMaybe then some ⟨fbResult = evlFuzzyTrue, none⟩
  else
    let evalRoot := if leftResult.isSome then root.right else root
    let (fbResult, ec) ← prepareNonStdAtts flags ns lookup
    let result ←
      if fbResult ≠ evlFuzzyMaybe then some (decide (fbResult = evlFuzzyTrue))
      else evaluateTree inp ns.nsAtts ec.tmplAtts evalRoot
    some ⟨result, ec.clone.map (evlReleasetemplate flags)⟩

def evlQEvaluateTree (inp : EvalInput) (flags : TmplMgmtFlags) (lookup : Option Template)
    (root : PNode) (nsAtts : Option NonStdAtts) : Option Bool :=
  match nsAtts with
  | some ns => (evaluateNsaTree inp flags lookup root ns).map (·.result)
  | none => evaluateTree inp [] none root

end Evlog.Query
