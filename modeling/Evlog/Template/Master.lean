/-
Evlog.Template.Master — templates with all that formatting looks at.

A template has its attributes (`Members`) and its parsed format, a list of
segments. An attribute is known by a pointer: to the master that has it or
to a clone of that, and to which of its attributes. Segments, dimensions
and delimiters hold such pointers, and so `_evlCloneTemplate` cannot simply
share them: it looks up in the clone the attribute with the same `ta_index`.

A struct's template comes with the attribute that is of its type. What the
attributes hold (`Values`) is kept apart, since a clone has its own. The
attributes of a constant struct hold what they were initialized with.

`Members.shape` is the part of a template that populating it looks at. The
assertion of `cloneAttribute`, on an array that has no dimension yet, is
left out, and so is the description of a template.
-/
import Evlog.Query.Tree
import Evlog.Template.Structs
import Evlog.Util.FmtBuf

namespace Evlog.Template

open Evlog.Lib Evlog.Util

/-! ## Attributes -/

/-- Whose attribute it is. -/
inductive Owner where
  | master
  | clone
  deriving DecidableEq, Repr

/-- `tmpl_attribute_t *`. -/
structure AttPtr where
  owner : Owner
  index : Nat
  deriving DecidableEq, Repr

/-- `tmpl_dimension_type_t`, with what comes with it. -/
inductive DimSpec where
  | const (n : Nat)
  | implied
  | rest
  | attr (att : Option AttPtr)
  | attname (path : List String)
  | prefix3
  | bitField (width : Nat)
  deriving DecidableEq, Repr

/-- `tmpl_dimension_t`, less what is set when it is populated. -/
structure DimObj where
  id : Nat
  spec : DimSpec
  deriving DecidableEq, Repr

/-- `tmpl_delimiter_t`, less what is set when it is populated. -/
inductive DelimObj where
  | const (text : String)
  | attr (att : Option AttPtr)
  | attname (id : Nat) (path : List String)
  deriving DecidableEq, Repr

/-- `u_izorder`: which of the index, a struct and a scalar come in a format,
and in what order. -/
inductive IZOrder where
  | s
  | si
  | is
  | z
  | zi
  | iz
  deriving DecidableEq, Repr

/-- `tmpl_att_format_t`, once it is analyzed. -/
inductive AttFormat where
  | default
  | scalar (fmt : String)
  | dump
  | bitmap (maps : List Bitmap)
  | valnm (maps : List Bitmap)
  | array (fmt : String)
  | izarray (fmt : String) (order : IZOrder)
  | charrstr (fmt : String)

/-- `tmpl_attribute_t`, less the type and the value. -/
structure AttInfo where
  name : Option String
  isConst : Bool
  implDim : Bool
  isClone : Bool
  index : Nat
  dim : Option DimObj
  format : AttFormat
  delim : Option DelimObj

def AttInfo.isArray (a : AttInfo) : Bool :=
  match a.dim with
  | none | some ⟨_, .bitField _⟩ => false
  | _ => true

/-- `evl_fmt_segment_t`, less what no format of a template has. -/
inductive Segment where
  | string (text : String)
  | member (m : Query.Selector) (userfmt : Option String) (stringfmt : Bool)
  | attname (path : List String) (userfmt : Option String) (stringfmt : Bool)
  | attr (att : Option AttPtr) (userfmt : Option String) (stringfmt : Bool)
  deriving Repr

/-! ## What attributes hold -/

/-- What changes of the `template_t` of a struct, and whether that is a
clone or, for a constant struct, the master itself. -/
structure StructState where
  owner : Owner
  populated : Bool
  arch : Arch
  data : Ptr
  dataSize : Nat
  deriving DecidableEq, Repr

/-- What the attributes of a template hold. With an attribute that is a
struct comes what the attributes of the struct hold. With an array of
structs comes a list of its elements, each as if it were an attribute. -/
inductive Values where
  | nil
  | att (s : AttState) (st : Option StructState) (sub rest : Values)
  deriving Repr

/-- `tm_attributes` of a master. A constant attribute comes with what it
holds, which is the first of some values. -/
inductive Members where
  | nil
  | base (a : AttInfo) (ty : BaseType) (init : Values) (rest : Members)
  | struct (a : AttInfo) (aligned : Bool) (sub : Members) (fmt : List Segment) (init : Values)
      (rest : Members)

/-! ## Templates -/

/-- The attributes of a template and its parsed format. -/
structure TmplObj where
  atts : List (AttPtr × AttInfo)
  parsedFormat : List Segment

/-- The attributes of a master, from the `i`-th on. -/
def Members.attsFrom : Members → Nat → List (AttPtr × AttInfo)
  | .nil, _ => []
  | .base a _ _ rest, i => (⟨.master, i⟩, a) :: rest.attsFrom (i + 1)
  | .struct a _ _ _ _ rest, i => (⟨.master, i⟩, a) :: rest.attsFrom (i + 1)

def Members.atts (m : Members) : List (AttPtr × AttInfo) := m.attsFrom 0

/-- The attribute that a pointer is to, if it is one of the template. -/
def attributeAt (atts : List (AttPtr × AttInfo)) (p : AttPtr) : Option AttInfo :=
  (atts.find? (·.1 == p)).map Prod.snd

/-- `_evlTmplGetNthAttribute`, with the `ta_index` of an attribute of another
template. -/
def sameAttribute (src dst : List (AttPtr × AttInfo)) (p : Option AttPtr) : Option AttPtr :=
  (p.bind (attributeAt src)).bind fun a => (dst[a.index]?).map Prod.fst

def DimObj.clone (src dst : List (AttPtr × AttInfo)) (d : DimObj) : DimObj :=
  match d.spec with
  | .attr p => { d with spec := .attr (sameAttribute src dst p) }
  | _ => d

def DelimObj.clone (src dst : List (AttPtr × AttInfo)) : DelimObj → DelimObj
  | .attr p => .attr (sameAttribute src dst p)
  | d => d

/-- `cloneAttribute`. Those in `dst` have been cloned before it. -/
def cloneAttribute (src dst : List (AttPtr × AttInfo)) (att : AttPtr × AttInfo) : AttPtr × AttInfo :=
  if att.2.isConst then att
  else
    ({ att.1 with owner := .clone },
      { att.2 with
        isClone := true
        dim := att.2.dim.map (·.clone src dst)
        delim := att.2.delim.map (·.clone src dst) })

def cloneAttributes (src : List (AttPtr × AttInfo)) :
    List (AttPtr × AttInfo) → List (AttPtr × AttInfo) → List (AttPtr × AttInfo)
  | dst, [] => dst
  | dst, att :: rest => cloneAttributes src (dst ++ [cloneAttribute src dst att]) rest

/-- What becomes of a segment. Where there is an attribute `fs_stringfmt` is
not set; here it is 0. -/
def cloneSegment (src dst : List (AttPtr × AttInfo)) : Segment → Segment
  | .attr p userfmt _ => .attr (sameAttribute src dst p) userfmt false
  | seg => seg

/-- `_evlCloneTemplate`. -/
def TmplObj.clone (t : TmplObj) : TmplObj :=
  let atts := cloneAttributes t.atts [] t.atts
  { atts, parsedFormat := t.parsedFormat.map (cloneSegment t.atts atts) }

/-- The template of a struct: its master, or a clone of that. -/
def templateOf (owner : Owner) (m : Members) (fmt : List Segment) : TmplObj :=
  match owner with
  | .master => ⟨m.atts, fmt⟩
  | .clone => TmplObj.clone ⟨m.atts, fmt⟩

/-! ## What is populated -/

def nameAt (atts : List (AttPtr × AttInfo)) (p : Option AttPtr) : String :=
  ((p.bind (attributeAt atts)).bind (·.name)).getD ""

/-- The dimension of an array, as populating sees it. Without a dimension
there is nothing to populate. -/
def DimObj.dimension (atts : List (AttPtr × AttInfo)) (d : DimObj) : Dimension :=
  ⟨d.id,
    match d.spec with
    | .const n => .const n
    | .implied => .const 0
    | .rest => .rest
    | .attr p => .attr (nameAt atts p)
    | .attname path => .attname path
    | .prefix3 => .prefix3
    | .bitField _ => .const 0⟩

def DelimObj.delimiter (atts : List (AttPtr × AttInfo)) : DelimObj → Delimiter
  | .const _ => .const
  | .attr p => .attr (nameAt atts p)
  | .attname id path => .attname id path

/-- An attribute that is no struct, as populating sees it. -/
def AttInfo.field (atts : List (AttPtr × AttInfo)) (a : AttInfo) (ty : BaseType) : Field :=
  if a.isConst then .const
  else
    match a.dim with
    | none => .scalar ty
    | some ⟨_, .bitField width⟩ => .bitField ty width
    | some d => .array ty (d.dimension atts) (a.delim.map (·.delimiter atts))

/-- The attributes of a template, as populating it sees them. Those of the
template itself are in `own`, and `atts` has them all. -/
def Members.shapeWith (atts : List (AttPtr × AttInfo)) : Members → List (AttPtr × AttInfo) → Atts
  | .base _ ty _ rest, (_, a) :: own =>
    .field a.name (a.field atts ty) (rest.shapeWith atts own)
  | .struct _ aligned sub _ _ rest, (_, a) :: own =>
    if a.isConst then .field a.name .const (rest.shapeWith atts own)
    else
      match a.dim with
      | none =>
        .struct (a.name.getD "") aligned (sub.shapeWith sub.atts sub.atts)
          (rest.shapeWith atts own)
      | some d =>
        .structs (a.name.getD "") aligned (sub.shapeWith sub.atts sub.atts) (d.dimension atts)
          (a.delim.map (·.delimiter atts)) (rest.shapeWith atts own)
  | _, _ => .nil

/-- What is populated of a template with these attributes. -/
def Members.shape (m : Members) (t : TmplObj) : Atts := m.shapeWith t.atts t.atts

end Evlog.Template
