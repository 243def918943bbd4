/-
Evlog.Template.Format — a record is formatted through a template.

`formatRecord` makes of the segments of a format a list of pieces (`Op`) for
the format buffer. An attribute is written in the format of its template or
of the segment, a struct in the format of its own template.

The text of a format and its arguments is `vsnprintf`'s, and which pieces a
record of the printf kind has is found out by the parser of format.c: both
are taken as given (`Surroundings`). Memory is what is found from a pointer
on, up to the end of what it points into.

A `Crash` is the end of the process, at an assertion or at a pointer to
nothing, or since the text would have to contain itself. The names of hosts
are not attributes of a template, and so `%host%` is left out.
-/
import Evlog.Query.Member
import Evlog.Template.Master
import Evlog.Template.Seen

namespace Evlog.Template

open Evlog.Lib Evlog.Util Evlog.Posix
open Evlog.Query (System Selector posixLogMemtostr)

/-- Why nothing is written any more. -/
inductive Crash where
  | assertion
  | badPointer
  | endless
  deriving DecidableEq, Repr

abbrev Text := Except Crash (List Op)

/-- An argument of `_evlBprintf`. -/
inductive Arg where
  | scalar (ty : BaseType) (v : Scalar)
  | int (n : Int)
  | string (s : List UInt8)
  | wstring (s : List Scalar)
  deriving DecidableEq, Repr

/-- What formatting needs besides the template. -/
structure Surroundings where
  sys : System
  /-- `vsnprintf`. -/
  printf : String → List Arg → Outcome
  /-- What `_evlFormatPrintfRec` finds in the data. -/
  printfRec : List UInt8 → PrintfRec
  /-- The memory from a pointer on. -/
  memory : Ptr → List UInt8
  /-- What the dimensions and delimiters hold that are shared. -/
  notes : Notes

def charBytes (s : String) : List UInt8 := s.toList.map fun c => c.toNat.toUInt8

section

variable (E : Surroundings)

/-! ## Values -/

def Surroundings.stringAt (p : Ptr) : List UInt8 := untilNull (E.memory p)

def wideChar (bs : List UInt8) : Scalar := scalarValue .noArch .wchar bs

def wideChars (bs : List UInt8) : List Scalar :=
  (List.range (bs.length / wcharSize)).map fun i => wideChar ((bs.drop (i * wcharSize)).take wcharSize)

def Surroundings.wideAt (p : Ptr) (conv : List Scalar) : List Scalar :=
  if conv = [] then wideChars (E.memory p) else conv

def untilWideNull (s : List Scalar) : List Scalar := s.takeWhile (· ≠ .int 0)

/-- The `i`-th of several strings that each end in a null. -/
def nthString {α : Type} [DecidableEq α] (null : α) (s : List α) : Nat → List α
  | 0 => s.takeWhile (· ≠ null)
  | i + 1 => nthString null (s.dropWhile (· ≠ null)).tail i

def stringsLength {α : Type} [DecidableEq α] (null : α) (s : List α) : Nat → Nat
  | 0 => 0
  | n + 1 =>
    (s.takeWhile (· ≠ null)).length + 1
      + stringsLength null (s.dropWhile (· ≠ null)).tail n

/-- The member of `tmpl_value_t` for a scalar. -/
def Value.valScalar : Value → Scalar
  | .scalar s => s
  | _ => .int 0

def Value.valString : Value → Ptr
  | .string p => p
  | _ => .null

def Value.conv : Value → List Scalar
  | .wstring _ conv | .array _ conv => conv
  | _ => []

def Value.valWstring : Value → Ptr
  | .wstring p _ => p
  | _ => .null

def castScalar (ty : BaseType) : Scalar → Scalar
  | .int n =>
    let bits := 8 * (archTypeInfo .noArch ty).size
    .int (if ty.isSigned then n.bmod (2 ^ bits) else n % 2 ^ bits)
  | s => s

/-- `ti_format`. -/
def defaultFormat : BaseType → String
  | .char | .short | .int => "%d"
  | .uchar | .ushort | .uint => "%u"
  | .long => "%ld"
  | .ulong => "%lu"
  | .longlong => "%Ld"
  | .ulonglong => "%Lu"
  | .float | .double => "%f"
  | .ldouble => "%Lf"
  | .string => "%s"
  | .wchar => "%lc"
  | .wstring => "%ls"
  | .address => "%p"

/-- `td_dimension2`. That of a constant array is set when it is parsed. -/
def Surroundings.dimension2 (a : AttInfo) (s : AttState) : Int :=
  match a.dim with
  | none => 0
  | some d =>
    match d.spec with
    | .const n => if a.isConst then n else E.notes.dims d.id
    | .attr _ | .implied => s.dimension2
    | _ => E.notes.dims d.id

/-- `getAttDelimiter`. -/
def Surroundings.attDelimiter (a : AttInfo) (s : AttState) : List UInt8 :=
  let pointed (p : Ptr) := if p = .null then [] else E.stringAt p
  match a.delim with
  | none => [32]
  | some (.const text) => charBytes text
  | some (.attr _) => pointed s.delimiter
  | some (.attname id _) => pointed (E.notes.delims id)

/-- `_evlTmplGetValueOfIntegerAttribute`. -/
def valueOfIntegerAttribute (ty : BaseType) (s : AttState) : Except Crash (BitVec 64) :=
  match ty with
  | .wchar | .address => .error .assertion
  | ty =>
    if ty.isInteger then
      match s.value.valScalar with
      | .int n => .ok (BitVec.ofInt 64 n)
      | .float _ _ => .ok 0
    else .error .assertion

/-! ## Attributes that are no structs -/

def castAndFormatAtt (ty : BaseType) (s : AttState) (fmt : String) : Op :=
  .bprintf <| E.printf fmt
    [match ty with
      | .string => .string (E.stringAt s.value.valString)
      | .wstring => .wstring (untilWideNull (E.wideAt s.value.valWstring s.value.conv))
      | ty => .scalar ty (castScalar ty s.value.valScalar)]

def Surroundings.element (ty : BaseType) (s : AttState) (i : Nat) : Arg :=
  let size := (archTypeInfo .noArch ty).size
  match ty with
  | .string => .string (nthString 0 (E.memory s.value.valArray) i)
  | .wstring => .wstring (nthString (.int 0) (E.wideAt s.value.valArray s.value.conv) i)
  | ty =>
    .scalar ty
      (if s.value.conv = [] then
        scalarValue .noArch ty (((E.memory s.value.valArray).drop (i * size)).take size)
      else s.value.conv.getD i (.int 0))

def IZOrder.args (order : IZOrder) (i : Nat) (element : Arg) : List Arg :=
  match order with
  | .is => [.int i, element]
  | .si => [element, .int i]
  | _ => [element]

/-- `formatArrayOfScalars`. -/
def formatScalars (a : AttInfo) (ty : BaseType) (s : AttState) (fmt : String) (order : IZOrder) : Op :=
  .scalars (.ofBytes (E.attDelimiter a s))
    ((List.range (E.dimension2 a s).toNat).map fun i =>
      E.printf fmt (order.args i (E.element ty s i)))

/-- `dumpArray`, on an array that is not one of structs. -/
def dumpArray (arch : Arch) (a : AttInfo) (ty : BaseType) (s : AttState) : Op :=
  let nel := (E.dimension2 a s).toNat
  let dumpAddr := if s.rawdata = .null then s.value.valArray else s.rawdata
  let nBytes :=
    match ty with
    | .string => stringsLength 0 (E.memory s.value.valArray) nel
    | .wstring => stringsLength (.int 0) (E.wideAt s.value.valArray s.value.conv) nel * wcharSize
    | ty => nel * (archTypeInfo arch ty).size
  .dump ((E.memory dumpAddr).take nBytes)

def Arg.char : Arg → UInt8
  | .scalar _ (.int n) => UInt8.ofNat (n % 256).toNat
  | _ => 0

def Arg.wchar : Arg → Scalar
  | .scalar _ s => s
  | _ => .int 0

def bprintCharArrAsString (a : AttInfo) (ty : BaseType) (s : AttState) (fmt : String) : Op :=
  let elements := (List.range (E.dimension2 a s).toNat).map (E.element ty s)
  .bprintf <| E.printf fmt
    [if ty = .wchar then .wstring (untilWideNull (elements.map Arg.wchar))
      else .string (untilNull (elements.map Arg.char))]

/-- `formatAttribute`, on an attribute that is no struct. -/
def formatBase (arch : Arch) (a : AttInfo) (ty : BaseType) (s : AttState) : Text :=
  if !s.attExists then .ok []
  else if a.isArray then
    match a.format with
    | .dump => .ok [dumpArray E arch a ty s]
    | .charrstr fmt => .ok [bprintCharArrAsString E a ty s fmt]
    | .default => .ok [formatScalars E a ty s (defaultFormat ty) .s]
    | .array fmt => .ok [formatScalars E a ty s fmt .s]
    | .izarray fmt order => .ok [formatScalars E a ty s fmt order]
    | _ => .error .assertion
  else
    match a.format with
    | .default => .ok [castAndFormatAtt E ty s (defaultFormat ty)]
    | .scalar fmt => .ok [castAndFormatAtt E ty s fmt]
    | .valnm maps => do
      let val ← valueOfIntegerAttribute ty s
      return [.bprintf (valnm val maps)]
    | .bitmap maps => do
      let val ← valueOfIntegerAttribute ty s
      return [.bitmap val maps]
    | _ => .error .assertion

/-- How far a place in the data of a template is from their start. -/
def Ptr.offset : Ptr → Ptr → Nat
  | .data addr, .data start => addr - start
  | _, _ => 0

/-- `formatStringAsPrintf`, on an attribute that is no array. -/
def formatStringAsPrintf (t : StructState) (ty : BaseType) (s : AttState) (fmt : String) : Option Op :=
  if ty = .string ∧ (fmt = "printk" ∨ fmt = "printf") then
    let attAddr := s.value.valString
    some (.printfRec (E.printfRec ((E.memory attAddr).take (t.dataSize - attAddr.offset t.data)))
      (fmt = "printk"))
  else none

/-- `?name?`. -/
def questioned (a : AttInfo) : Op :=
  .bprintf (.ofBytes ([63] ++ charBytes (a.name.getD "") ++ [63]))

/-- `_evlFormatTmplAttribute`, on an attribute that is no struct. -/
def formatTmplBase (t : StructState) (a : AttInfo) (ty : BaseType) (s : AttState)
    (fmt : Option String) : Text :=
  match fmt with
  | none => formatBase E t.arch a ty s
  | some fmt =>
    if a.isArray then .ok [questioned a]
    else if !s.attExists then .ok []
    else
      match formatStringAsPrintf E t ty s fmt with
      | some op => .ok [op]
      | none => .ok [castAndFormatAtt E ty s fmt]

/-! ## Structs -/

/-- The structs of an array, as they are formatted. One that is not
populated cannot be. -/
def formatElements (format : StructState → Values → Text) : Values → Except Crash (List (List Op))
  | .nil => .ok []
  | .att _ none _ _ => .error .badPointer
  | .att _ (some st) sub rest =>
    if !st.populated then .error .assertion
    else do
      let ops ← format st sub
      let more ← formatElements format rest
      return ops :: more

/-- `formatArrayOfStructs`. -/
def formatStructs (a : AttInfo) (s : AttState) (fmt : String) (order : IZOrder)
    (elements : Except Crash (List (List Op))) : Text := do
  let elements ← elements
  match order with
  | .z => return [.structs (.ofBytes (E.attDelimiter a s)) (fun _ buf => E.printf fmt [.string buf]) elements]
  | .iz =>
    return [.structs (.ofBytes (E.attDelimiter a s)) (fun i buf => E.printf fmt [.int i, .string buf])
      elements]
  | .zi =>
    return [.structs (.ofBytes (E.attDelimiter a s)) (fun i buf => E.printf fmt [.string buf, .int i])
      elements]
  | _ => .error .assertion

def structsSize : Values → Nat
  | .nil => 0
  | .att _ st _ rest => (match st with | none => 0 | some st => st.dataSize) + structsSize rest

/-- `dumpArray`, on an array of structs. -/
def dumpStructs : Values → Text
  | .att s (some st) sub rest =>
    .ok [.dump ((E.memory st.data).take (structsSize (.att s (some st) sub rest)))]
  | _ => .error .assertion

/-- `formatAttribute`, on a struct or an array of structs. -/
def formatStruct (a : AttInfo) (s : AttState) (st : Option StructState) (sub : Values)
    (format : StructState → Values → Text) : Text :=
  if !s.attExists then .ok []
  else if a.isArray then
    match a.format with
    | .dump => dumpStructs E sub
    | .izarray fmt order => formatStructs E a s fmt order (formatElements format sub)
    | .array fmt => formatStructs E a s fmt .s (formatElements format sub)
    | _ => .error .assertion
  else
    match st with
    | none => .ok []
    | some st =>
      -- a struct that is not populated is passed over
      if !st.populated then .ok []
      else do
        let ops ← format st sub
        return [.record ops]

/-- `_evlFormatTmplAttribute`, on a struct or an array of structs. -/
def formatTmplStruct (a : AttInfo) (s : AttState) (st : Option StructState) (sub : Values)
    (format : StructState → Values → Text) (fmt : Option String) : Text :=
  match fmt with
  | none => formatStruct E a s st sub format
  | some _ => .ok [questioned a]

/-! ## Segments -/

/-- The attribute that is to be formatted: the one at a pointer, or the one
with a scoped name. -/
inductive Wanted where
  | ptr (p : AttPtr)
  | path (names : List String)
  deriving DecidableEq, Repr

/-- What `_evlSprintfMember` takes from the header of a record. -/
def memberValue (e : PosixLogEntry) : Selector → Option Int
  | .recid => some e.logRecid.toInt
  | .size => some e.logSize.toNat
  | .format => some e.logFormat.toInt
  | .eventType => some e.logEventType.toInt
  | .facility => some e.logFacility.toNat
  | .severity => some e.logSeverity.toInt
  | .uid => some e.logUid.toNat
  | .gid => some e.logGid.toNat
  | .pid => some e.logPid.toInt
  | .pgrp => some e.logPgrp.toInt
  | .time => some e.logTimeSec.toInt
  | .flags => some e.logFlags.toNat
  | .thread => some e.logThread.toNat
  | .processor => some e.logProcessor.toInt
  | .data | .age | .host => none

/-- `posix_log_memtostr`, with the assertion behind it. -/
def memberString (entry : Option PosixLogEntry) (m : Selector) : Except Crash (List UInt8) :=
  match entry with
  | none => .error .assertion
  | some e =>
    match posixLogMemtostr E.sys m e posixLogMemstrMaxlen with
    | .ok text => .ok (charBytes text)
    | .error _ => .error .assertion

/-- `formatRecord`, on a segment of the type `EVL_FS_MEMBER`. -/
def formatMember (entry : Option PosixLogEntry) (m : Selector) (userfmt : Option String)
    (stringfmt : Bool) : Text :=
  if m = .data then .error .endless
  else
    match userfmt with
    | none => do
      let text ← memberString E entry m
      return [.bprintf (.ofBytes text)]
    | some fmt =>
      if stringfmt then do
        let text ← memberString E entry m
        return [.bprintf (E.printf fmt [.string text])]
      else
        match entry with
        | none => .error .badPointer
        | some e =>
          match memberValue e m with
          | none => .error .assertion
          | some n => .ok [.bprintf (E.printf fmt [.int n])]

/-- A turn of the loop of `formatRecord`. The attributes of the template are
formatted with `format`. -/
def formatSegment (entry : Option PosixLogEntry) (format : Wanted → Option String → Option Text) :
    Segment → Text
  | .string text => .ok [.bprintf (.ofBytes (charBytes text))]
  | .member m userfmt stringfmt => formatMember E entry m userfmt stringfmt
  | .attname path userfmt _ => (format (.path path) userfmt).getD (.ok [])
  | .attr none _ _ => .error .assertion
  | .attr (some p) userfmt _ => (format (.ptr p) userfmt).getD (.error .badPointer)

def formatSegments (entry : Option PosixLogEntry) (format : Wanted → Option String → Option Text) :
    List Segment → Text
  | [] => .ok []
  | seg :: segs => do
    let ops ← formatSegment E entry format seg
    let more ← formatSegments entry format segs
    return ops ++ more

/-- `formatRecord`. Without a segment there is nothing to start with. -/
def formatRecord (entry : Option PosixLogEntry) (format : Wanted → Option String → Option Text)
    (segs : List Segment) : Text :=
  if segs.isEmpty then .error .badPointer else formatSegments E entry format segs

/-! ## Templates -/

/-- Is it the attribute that is wanted, or in the struct that it is? -/
inductive Match where
  | this
  | inside (names : List String)
  | no
  deriving DecidableEq, Repr

/-- The attribute is at the pointer, or it has the first of the names. -/
def Wanted.look (w : Wanted) (p : AttPtr) (a : AttInfo) : Match :=
  match w with
  | .ptr q => if q = p then .this else .no
  | .path [] => .no
  | .path [name] => if a.name = some name then .this else .no
  | .path (name :: names) => if a.name = some name then .inside names else .no

/-- What an attribute holds: a constant one what it was initialized with. -/
def heldBy (a : AttInfo) (init : Values) (s : AttState) (st : Option StructState) (sub : Values) :
    AttState × Option StructState × Values :=
  match a.isConst, init with
  | true, .att s st sub _ => (s, st, sub)
  | _, _ => (s, st, sub)

/-- `_evlFormatTmplAttribute`, on the attribute that is wanted, or
`findAttByScopedName` and then that. In a struct that is not in the record
nothing is found. -/
def formatWanted (t : StructState) :
    Members → List (AttPtr × AttInfo) → Values → Wanted → Option String → Option Text
  | .base _ ty init rest, (p, a) :: own, .att s st sub v, w, fmt =>
    match w.look p a with
    | .this => some (formatTmplBase E t a ty (heldBy a init s st sub).1 fmt)
    | .inside _ => none
    | .no => formatWanted t rest own v w fmt
  | .struct _ _ m segs init rest, (p, a) :: own, .att s st sub v, w, fmt =>
    let (s, st, sub) := heldBy a init s st sub
    match w.look p a with
    | .this =>
      let format (st : StructState) (sub : Values) :=
        let t := templateOf st.owner m segs
        formatRecord E none (fun w fmt => formatWanted st m t.atts sub w fmt) t.parsedFormat
      some (formatTmplStruct E a s st sub format fmt)
    | .inside names =>
      if a.isArray ∨ !s.attExists then none
      else
        match st with
        | none => none
        | some st => formatWanted st m (templateOf st.owner m segs).atts sub (.path names) fmt
    | .no => formatWanted t rest own v w fmt
  | _, _, _, _, _ => none

/-- `formatRecordFromTemplate`, on a template that is populated. -/
def formatRecordFromTemplate (entry : PosixLogEntry) (st : StructState) (m : Members)
    (fmt : List Segment) (v : Values) : Text :=
  let t := templateOf st.owner m fmt
  formatRecord E (some entry) (fun w f => formatWanted E st m t.atts v w f) t.parsedFormat

end

end Evlog.Template
