/-
Evlog.Template.Populate — a record is shown through a clone.

`populateTmpl` goes through the attributes once, and each takes what it
needs from where the one before it stopped (`Notes`, the
`tmpl_popl_notes_t` of the source). In an aligned template there is a
second place to keep: bit-fields are taken from a storage unit that starts
at `bfStart`, and `bfOffset` of its bits are used up. The unit may start
with members that are no bit-fields.

Addresses are offsets from the start of the data; `Record.mem` has the
memory behind the data too. The notes carry a log of what was done
(`Event`): where `pn_next` was put, which bytes were read, which attribute
was found where. No step looks at it. With the notes are also what the
shared dimensions and delimiters hold and the number of arrays allocated.

`assert(0)` is the end of the process. The two other assertions, on
alignments and on the size of a storage unit, hold for every template that
is accepted and are left out, and so is `tm_recid`.
-/
import Evlog.Posix.Entry
import Evlog.Template.Clone

namespace Evlog.Template

open Evlog.Lib Evlog.Posix

/-! ## Records and notes -/

structure Record where
  addr : Nat
  mem : Nat → UInt8
  size : Nat
  size_le : size ≤ posixLogEntryMaxlen
  arch : Arch

def Record.bytesAt (r : Record) (p n : Nat) : List UInt8 := (List.range n).map fun i => r.mem (p + i)

structure BitFieldStep where
  base : Nat
  next : Nat
  bfStart : Nat
  bfOffset : Nat
  ty : BaseType
  width : Nat
  deriving DecidableEq, Repr

/-- An array that was populated, or would have been: whether its dimension
is an attribute of the record, and which number that is; where the array
starts, and how many elements there are in the end. -/
structure ArrayStep where
  fromAtt : Bool
  ty : BaseType
  start : Nat
  dim : Int
  count : Int
  deriving DecidableEq, Repr

/-- What a log is made of. -/
inductive Event where
  /-- `pn_next` is put there. -/
  | next (p : Nat)
  /-- So many bytes are read from there on. -/
  | read (p n : Nat)
  /-- An attribute that is no struct is marked as existing, with these
  bytes. -/
  | att (p n : Nat)
  /-- A struct is marked as existing. -/
  | struct (p n : Nat)
  /-- A bit-field is taken from the bit, counted from the start of the
  template's data. -/
  | bits (base pos width : Nat)
  | bitField (b : BitFieldStep)
  | array (a : ArrayStep)
  /-- The bytes of `_EXTRA_DATA_`. -/
  | extra (p n : Nat)
  /-- An array was allocated for the attribute, or freed. -/
  | alloc (owner : List Nat) (id : Nat)
  | free (owner : List Nat) (p : Ptr)
  deriving DecidableEq, Repr

/-- `tmpl_popl_notes_t`, and what the process has besides the clone. -/
structure Notes where
  next : Nat
  outOfData : Bool
  /-- How many arrays were allocated. -/
  heap : Nat
  /-- `td_dimension2` of the dimensions that are shared. -/
  dims : Nat → Int
  /-- `de_delimiter` of the delimiters that are shared. -/
  delims : Nat → Ptr
  log : List Event

def Notes.start : Notes := ⟨0, false, 0, fun _ => 0, fun _ => .null, []⟩

def Notes.emit (n : Notes) (e : Event) : Notes := { n with log := n.log ++ [e] }

def Notes.setNext (n : Notes) (p : Nat) : Notes := { n with next := p, log := n.log ++ [.next p] }

/-- `pn_out_of_data = 1`. -/
def Notes.out (n : Notes) : Notes := { n with outOfData := true }

/-- `pn_end - p`, as a `size_t`. -/
def bytesRemaining (r : Record) (p : Nat) : Nat :=
  if p ≤ r.size then r.size - p else 2 ^ 64 - (p - r.size)

/-- The narrowing to an `int`, and to a `long`. -/
def toInt (n : Int) : Int := n.bmod (2 ^ 32)

def toLong (n : Int) : Int := n.bmod (2 ^ 64)

/-! ## Moving on -/

def alignDataPtr (p base alignment : Nat) : Nat :=
  if (p - base) % alignment = 0 then p else p + (alignment - (p - base) % alignment)

def alignNextPtr (r : Record) (base alignment : Nat) (n : Notes) : Notes :=
  let p := alignDataPtr n.next base alignment
  if r.size ≤ p then (n.setNext r.size).out else n.setNext p

def enforceMinSize (r : Record) (base minSize : Nat) (n : Notes) : Notes :=
  if n.next - base < minSize then
    let p := n.next + (minSize - (n.next - base))
    if r.size ≤ p then (n.setNext r.size).out else n.setNext p
  else n

def bitsToBytes (b : Nat) : Nat := (b + 7) / 8

def adjustNextPerBitFields (n : Notes) (bfStart bfOffset : Nat) : Notes :=
  n.setNext (bfStart + bitsToBytes bfOffset)

/-! ## Values -/

def populateScalar (r : Record) (ty : BaseType) (s : AttState) (n : Notes) : AttState × Notes :=
  let size := (archTypeInfo r.arch ty).size
  ({ s with value := .scalar (scalarValue r.arch ty (r.bytesAt n.next size)) },
    (n.emit (.read n.next size)).setNext (n.next + size))

/-- The length of the string in the first `n` bytes, with its NUL. -/
def stringLength (r : Record) (p : Nat) : Nat → Option Nat
  | 0 => none
  | n + 1 => if r.mem p = 0 then some 1 else (stringLength r (p + 1) n).map (· + 1)

/-- `collectString`, with the length of the string instead of a pointer. -/
def collectString (r : Record) (n : Notes) : Notes × Option Nat :=
  let left := bytesRemaining r n.next
  match stringLength r n.next left with
  | none => ((n.emit (.read n.next left)).out, none)
  | some len => ((n.emit (.read n.next len)).setNext (n.next + len), some len)

/-- `sizeof(wchar_t)`, and that of the record: it is the same on all
architectures. -/
def wcharSize : Nat := 4

/-- The length of the wide string in the first `n` wide characters, with
its null. -/
def wstringLength (r : Record) (p : Nat) : Nat → Option Nat
  | 0 => none
  | n + 1 =>
    if r.bytesAt p wcharSize = List.replicate wcharSize 0 then some wcharSize
    else (wstringLength r (p + wcharSize) n).map (· + wcharSize)

def collectWstring (r : Record) (n : Notes) : Notes × Option Nat :=
  let left := bytesRemaining r n.next / wcharSize
  match wstringLength r n.next left with
  | none => ((n.emit (.read n.next (left * wcharSize))).out, none)
  | some len => ((n.emit (.read n.next len)).setNext (n.next + len), some len)

def convElems (r : Record) (ty : BaseType) (p nel : Nat) : List Scalar :=
  (List.range nel).map fun i =>
    scalarValue r.arch ty
      (r.bytesAt (p + i * (archTypeInfo r.arch ty).size) (archTypeInfo r.arch ty).size)

def Notes.alloc (n : Notes) (owner : List Nat) : Notes × Ptr :=
  ({ n with heap := n.heap + 1, log := n.log ++ [.alloc owner n.heap] }, .heap n.heap)

def convScalarArray (r : Record) (owner : List Nat) (ty : BaseType) (p nel : Nat) (n : Notes) :
    Notes × Value :=
  if r.arch = .noArch then (n, .array (.data (r.addr + p)) [])
  else
    let (n, ptr) := (n.emit (.read p (nel * (archTypeInfo r.arch ty).size))).alloc owner
    (n, .array ptr (convElems r ty p nel))

/-- `_evl_conv_wstring`, on a string of `len` bytes. -/
def convWstring (r : Record) (owner : List Nat) (p len : Nat) (n : Notes) : Notes × Value :=
  if (convInfo r.arch).swaps then
    let (n, ptr) := (n.emit (.read p len)).alloc owner
    (n, .wstring ptr (convElems r .wchar p (len / wcharSize)))
  else (n.emit (.read p len), .wstring (.data (r.addr + p)) [])

/-- `_evl_conv_wstring_array`, on strings that have `len` bytes together. -/
def convWstringArray (r : Record) (owner : List Nat) (p len : Nat) (n : Notes) : Notes × Value :=
  if (convInfo r.arch).swaps then
    let (n, ptr) := (n.emit (.read p len)).alloc owner
    (n, .array ptr (convElems r .wchar p (len / wcharSize)))
  else (n, .array (.data (r.addr + p)) [])

/-! ## Other attributes -/

/-- An attribute that exists, as one that names it finds it. -/
structure Found where
  ty : BaseType
  value : Value
  deriving DecidableEq, Repr

/-- The attributes that exist so far, with their scoped names. -/
abbrev Env := List (List String × Found)

/-- `_evlTmplFindAttribute`. -/
def Env.lookup (env : Env) (path : List String) : Option Found :=
  (env.find? (·.1 == path)).map Prod.snd

/-- A pointer as a number. `heapAddr` is where the arrays were allocated. -/
def Ptr.toNat (heapAddr : Nat → Nat) : Ptr → Nat
  | .null => 0
  | .data addr => addr
  | .heap id => heapAddr id

/-- What `_evlTmplGetValueOfIntegerAttribute` has before it is cast to a
`long`, or `none` at `assert(0)`. For an array this is the pointer to it. -/
def Found.integer (heapAddr : Nat → Nat) (f : Found) : Option Int :=
  match f.ty with
  | .wchar | .address => none
  | ty =>
    if ty.isInteger then
      match f.value with
      | .scalar (.int n) => some n
      | .array p _ => some (p.toNat heapAddr)
      | _ => some 0
    else none

def DimType.fromAtt : DimType → Bool
  | .attr _ | .attname _ => true
  | _ => false

/-- The number of elements to expect. An attribute that does not exist
counts as 0. -/
def DimType.value (heapAddr : Nat → Nat) (env : Env) (left : Nat) : DimType → Option Int
  | .const n => some n
  | .rest => some left
  | .prefix3 => some (-1)
  | .attr name =>
    match env.lookup [name] with
    | none => some 0
    | some f => f.integer heapAddr
  | .attname path =>
    match env.lookup path with
    | none => some 0
    | some f => f.integer heapAddr

/-- `td_dimension2` is set. -/
def setDimension2 (dim : Dimension) (count : Int) (s : AttState) (n : Notes) : AttState × Notes :=
  match dim.type with
  | .attr _ => ({ s with dimension2 := count }, n)
  | _ => (s, { n with dims := Function.update n.dims dim.id count })

def Env.delimiter (env : Env) (path : List String) : Ptr :=
  match env.lookup path with
  | some ⟨_, .string p⟩ => p
  | _ => .null

def populateDelimiter (env : Env) (delim : Option Delimiter) (s : AttState) (n : Notes) :
    AttState × Notes :=
  match delim with
  | none | some .const => (s, n)
  | some (.attr name) => ({ s with delimiter := env.delimiter [name] }, n)
  | some (.attname id path) =>
    (s, { n with delims := Function.update n.delims id (env.delimiter path) })

/-! ## The loop -/

/-- Why nothing more is known of the process. -/
inductive Stop where
  /-- `assert(0)` -/
  | assertion
  /-- It has freed what the master of a clone owns. -/
  | undefined
  deriving DecidableEq, Repr

/-- What becomes of the loop after an attribute. -/
inductive Flow where
  | next
  /-- `break` -/
  | leave
  | stop (why : Stop)
  deriving DecidableEq, Repr

/-- The variables of `populateTmpl`, and the attributes that exist so far. -/
structure Loop where
  notes : Notes
  bfStart : Nat
  bfOffset : Nat
  env : Env

/-- The turn of the loop up to `ta_rawdata`, for an attribute with an
alignment, or for a bit-field. The second part says to leave the loop. -/
def startAtt (r : Record) (aligned : Bool) (base : Nat) (alignment : Option Nat) (l : Loop) :
    Loop × Bool :=
  let l :=
    match alignment with
    | none => l
    | some a =>
      let n :=
        if aligned then
          alignNextPtr r base a (adjustNextPerBitFields l.notes l.bfStart l.bfOffset)
        else l.notes
      { l with notes := n, bfStart := n.next, bfOffset := 0 }
  if bytesRemaining r l.notes.next = 0 then ({ l with notes := l.notes.out }, true)
  else (l, l.notes.outOfData)

/-- The end of a turn, for an attribute that is no bit-field. -/
def nextAttr (aligned : Bool) (l : Loop) : Loop :=
  if aligned then { l with bfOffset := 8 * (l.notes.next - l.bfStart) } else l

def Loop.found (l : Loop) (name : Option String) (ty : BaseType) (s : AttState) : Loop :=
  match name with
  | some name => if s.attExists then { l with env := l.env ++ [([name], ⟨ty, s.value⟩)] } else l
  | none => l

/-! ### Arrays -/

/-- The loop of an array of strings: `collect` finds one. -/
def collectAll (collect : Notes → Notes × Option Nat) : Nat → Notes → Notes × Nat
  | 0, n => (n, 0)
  | nel + 1, n =>
    match collect n with
    | (n, none) => (n, 0)
    | (n, some _) =>
      let (n, ns) := collectAll collect nel n
      (n, ns + 1)

def populateStrings (r : Record) (dim : Dimension) (nel : Int) (s : AttState) (n : Notes) :
    AttState × Notes × Int :=
  let p := n.next
  let (n, ns) := collectAll (collectString r) nel.toNat n
  let (s, n) := setDimension2 dim ns s n
  if 0 < ns then
    ({ s with attExists := true, value := .array (.data (r.addr + p)) [] },
      n.emit (.att p (n.next - p)), ns)
  else (s, n, ns)

def populateWstrings (r : Record) (owner : List Nat) (dim : Dimension) (nel : Int) (s : AttState)
    (n : Notes) : AttState × Notes × Int :=
  let p := n.next
  let (n, ns) := collectAll (collectWstring r) nel.toNat n
  let (s, n) := setDimension2 dim ns s n
  if 0 < ns then
    let (n, value) := convWstringArray r owner p (n.next - p) n
    ({ s with attExists := true, value }, n.emit (.att p (n.next - p)), ns)
  else (s, n, ns)

/-- An array of scalars. The size of it is an `int`, and is compared to the
bytes that are left as a `size_t`. -/
def populateScalars (r : Record) (owner : List Nat) (ty : BaseType) (dim : Dimension) (nel : Int)
    (s : AttState) (n : Notes) : AttState × Notes × Int :=
  let size := (archTypeInfo r.arch ty).size
  let left := bytesRemaining r n.next
  let short := left < (toInt (size * nel) % 2 ^ 64).toNat
  let nel := if short then toInt (left / size : Nat) else nel
  let (s, n) := setDimension2 dim nel s (if short then n.out else n)
  if 0 < nel then
    let p := n.next
    let (n, value) := convScalarArray r owner ty p nel.toNat n
    ({ s with attExists := true, value },
      (n.setNext (p + toInt (size * nel)).toNat).emit (.att p (size * nel.toNat)), nel)
  else (s, n, nel)

/-- The array branch of `populateTmpl`, on an array that is not one of
structs. -/
def populateArray (heapAddr : Nat → Nat) (r : Record) (owner : List Nat) (ty : BaseType)
    (dim : Dimension) (delim : Option Delimiter) (env : Env) (s : AttState) (n : Notes) :
    AttState × Notes × Flow :=
  let p := n.next
  let (s, n) := populateDelimiter env delim s n
  match dim.type.value heapAddr env (bytesRemaining r p) with
  | none => (s, n, .stop .assertion)
  | some d =>
    let step (count : Int) : Event := .array ⟨dim.type.fromAtt, ty, p, d, count⟩
    let nel := toInt (toLong d)
    if dim.type.fromAtt ∧ nel ≤ 0 then (s, n.emit (step 0), .next)
    else
      let (s, n, count) :=
        match ty with
        | .string => populateStrings r dim nel s n
        | .wstring => populateWstrings r owner dim nel s n
        | ty => populateScalars r owner ty dim nel s n
      (s, n.emit (step count), .next)

/-! ### Bit-fields -/

def bigMisalignedBitField (base bfStart bfOffset width : Nat) : Bool :=
  (bfStart - base) / 8 ≠ (bfStart + (bfOffset + width - 1) / 8 - base) / 8

def startsUnit (attBits base bfStart bfOffset width : Nat) : Bool :=
  attBits < bfOffset + width || 32 < attBits && bigMisalignedBitField base bfStart bfOffset width

/-- The value of `width` bits from the bit on. -/
def bitsValue (r : Record) (ty : BaseType) (bfStart bfOffset width : Nat) : Int :=
  let first := bfStart + bfOffset / 8
  let last := bfStart + (bfOffset + width - 1) / 8
  let value := leNat (r.bytesAt first (last + 1 - first)) / 2 ^ (bfOffset % 8)
  if ty.isSigned then Int.bmod value (2 ^ width) else (value % 2 ^ width : Nat)

/-- `extractDataFromBitField`. Nothing is stored for an address. -/
def extractDataFromBitField (r : Record) (base : Nat) (ty : BaseType) (bfStart bfOffset width : Nat)
    (s : AttState) (n : Notes) : AttState × Notes :=
  let first := bfStart + bfOffset / 8
  let last := bfStart + (bfOffset + width - 1) / 8
  let value :=
    if ty = .address then s.value else .scalar (.int (bitsValue r ty bfStart bfOffset width))
  ({ s with attExists := true, value },
    ((n.emit (.read first (last + 1 - first))).emit (.att first (last + 1 - first))).emit
      (.bits base (8 * (bfStart - base) + bfOffset) width))

/-- The end of `populateBitField` where the data does not suffice. -/
def outOfData (r : Record) (l : Loop) : Loop := { l with notes := (l.notes.setNext r.size).out }

def populateBitField (r : Record) (base : Nat) (ty : BaseType) (width : Nat) (name : Option String)
    (s : AttState) (l : Loop) : AttState × Loop :=
  let l := { l with notes := l.notes.emit (.bitField ⟨base, l.notes.next, l.bfStart, l.bfOffset, ty, width⟩) }
  let size := (archTypeInfo r.arch ty).size
  if width = 0 then
    let p := alignDataPtr (l.bfStart + bitsToBytes l.bfOffset) base size
    if r.size ≤ p then (s, outOfData r l) else (s, { l with bfOffset := 8 * (p - l.bfStart) })
  else
    let l :=
      if startsUnit (8 * size) base l.bfStart l.bfOffset width then
        let n :=
          alignNextPtr r base (archTypeInfo r.arch ty).align
            (adjustNextPerBitFields l.notes l.bfStart l.bfOffset)
        { l with notes := n, bfStart := n.next, bfOffset := 0 }
      else l
    if bytesRemaining r l.bfStart < bitsToBytes (l.bfOffset + width) then (s, outOfData r l)
    else
      let (s, n) :=
        if name.isSome then
          extractDataFromBitField r base ty l.bfStart l.bfOffset width s l.notes
        else (s, l.notes)
      let bfOffset := l.bfOffset + width
      if 32 ≤ bfOffset then
        let n := n.setNext (n.next + 4)
        (s, { l with notes := n, bfStart := n.next, bfOffset := bfOffset - 32 })
      else (s, { l with notes := n, bfOffset })

/-! ### One attribute -/

def populateValue (r : Record) (owner : List Nat) (ty : BaseType) (s : AttState) (n : Notes) :
    AttState × Notes × Flow :=
  let p := n.next
  match ty with
  | .string =>
    match collectString r n with
    | (n, none) => (s, n, .leave)
    | (n, some len) =>
      ({ s with attExists := true, value := .string (.data (r.addr + p)) }, n.emit (.att p len),
        .next)
  | .wstring =>
    match collectWstring r n with
    | (n, none) => (s, n, .leave)
    | (n, some len) =>
      let (n, value) := convWstring r owner p len n
      ({ s with attExists := true, value }, n.emit (.att p len), .next)
  | ty =>
    let size := (archTypeInfo r.arch ty).size
    if bytesRemaining r p < size then (s, n.out, .leave)
    else
      let (s, n) := populateScalar r ty s n
      ({ s with attExists := true }, n.emit (.att p size), .next)

/-- A turn of the loop, on an attribute that is no struct. -/
def populateField (heapAddr : Nat → Nat) (r : Record) (owner : List Nat) (aligned : Bool)
    (base : Nat) (name : Option String) (f : Field) (s : AttState) (l : Loop) :
    AttState × Loop × Flow :=
  match f with
  | .const => (s, l, .next)
  | .bitField ty width =>
    match startAtt r aligned base none l with
    | (l, true) => (s, l, .leave)
    | (l, false) =>
      let s := { s with rawdata := .data (r.addr + l.notes.next) }
      let (s, l) := populateBitField r base ty width name s l
      (s, l.found name ty s, .next)
  | .scalar ty =>
    match startAtt r aligned base (some (f.alignment r.arch)) l with
    | (l, true) => (s, l, .leave)
    | (l, false) =>
      let s := { s with rawdata := .data (r.addr + l.notes.next) }
      match populateValue r owner ty s l.notes with
      | (s, n, .next) => (s, (nextAttr aligned { l with notes := n }).found name ty s, .next)
      | (s, n, flow) => (s, { l with notes := n }, flow)
  | .array ty dim delim =>
    match startAtt r aligned base (some (f.alignment r.arch)) l with
    | (l, true) => (s, l, .leave)
    | (l, false) =>
      let s := { s with rawdata := .data (r.addr + l.notes.next) }
      match populateArray heapAddr r owner ty dim delim l.env s l.notes with
      | (s, n, .next) => (s, (nextAttr aligned { l with notes := n }).found name ty s, .next)
      | (s, n, flow) => (s, { l with notes := n }, flow)

end Evlog.Template
