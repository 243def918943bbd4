/-
Evlog.Template.Clone — templates, and the clones that records are shown
through.

A template is a list of attributes, and a struct among them has a template
of its own. Its masters are what the template compiler has accepted
(`Atts.accepted`). A clone has a state for each attribute (`Vals`): for a
struct a clone of the struct's template, once there was need of one; for an
array of structs a clone for each element.

`cloneAttribute` copies a `tmpl_dimension_t` and a `tmpl_delimiter_t` only
where they name an attribute of the same template. The others are shared by
the master and all its clones. They are told apart by an `id` here, and
what is kept in them is kept with the notes of the run.

What only formatting looks at is left out: formats, the format segments,
the header, and the values of constant attributes.
-/
import Evlog.Template.Types
import Mathlib.Tactic

namespace Evlog.Template

/-! ## Templates -/

/-- `tmpl_dimension_type_t` of an array, with what comes with it. An
attribute of the same template is known by its name, which no other one
has; a scoped name is given in its parts. -/
inductive DimType where
  | const (n : Nat)
  | rest
  | prefix3
  | attr (name : String)
  | attname (path : List String)
  deriving DecidableEq, Repr

/-- `tmpl_dimension_t`. -/
structure Dimension where
  id : Nat
  type : DimType
  deriving DecidableEq, Repr

/-- `tmpl_delimiter_t`. -/
inductive Delimiter where
  | const
  | attr (name : String)
  | attname (id : Nat) (path : List String)
  deriving DecidableEq, Repr

/-- What an attribute is, if it is no struct. -/
inductive Field where
  | const
  | scalar (ty : BaseType)
  | array (ty : BaseType) (dim : Dimension) (delim : Option Delimiter)
  | bitField (ty : BaseType) (width : Nat)
  deriving DecidableEq, Repr

/-- `tm_attributes`. An attribute that is a struct, or an array of structs,
has the struct's template with it: whether that is aligned, and its
attributes. -/
inductive Atts where
  | nil
  | field (name : Option String) (f : Field) (rest : Atts)
  | struct (name : String) (aligned : Bool) (sub : Atts) (rest : Atts)
  | structs (name : String) (aligned : Bool) (sub : Atts) (dim : Dimension)
      (delim : Option Delimiter) (rest : Atts)
  deriving DecidableEq, Repr

/-- `template_t` of a master. -/
structure Tmpl where
  aligned : Bool
  atts : Atts
  deriving DecidableEq, Repr

/-! ### Alignment -/

def Field.baseType : Field → Option BaseType
  | .const => none
  | .scalar ty => some ty
  | .array ty _ _ => some ty
  | .bitField ty _ => some ty

/-- `computeAttAlignment`, on an attribute that is no struct. -/
def Field.alignment (arch : Arch) (f : Field) : Nat :=
  match f.baseType with
  | none => 0
  | some ty => (archTypeInfo arch ty).align

/-- `tm_alignment` as `computeTmplAlignment` has it for an aligned template,
once it is parsed. Unnamed bit-fields and constants do not count. -/
def Atts.tmplAlign : Atts → Nat
  | .nil => 1
  | .field name f rest =>
    match f, name with
    | .const, _ => rest.tmplAlign
    | _, none => rest.tmplAlign
    | f, some _ => max (f.alignment .noArch) rest.tmplAlign
  | .struct _ aligned sub rest => max (if aligned then sub.tmplAlign else 0) rest.tmplAlign
  | .structs _ aligned sub _ _ rest => max (if aligned then sub.tmplAlign else 0) rest.tmplAlign

def tmAlignment (aligned : Bool) (atts : Atts) : Nat := if aligned then atts.tmplAlign else 0

/-- `tm_minsize`: the largest type of a named bit-field. -/
def Atts.minSize : Atts → Nat
  | .nil => 0
  | .field name f rest =>
    match f, name with
    | .bitField ty _, some _ => max (archTypeInfo .noArch ty).size rest.minSize
    | _, _ => rest.minSize
  | .struct _ _ _ rest => rest.minSize
  | .structs _ _ _ _ _ rest => rest.minSize

/-! ### What the template compiler accepts -/

def intMax : Nat := 2 ^ 31 - 1

/-- `validateAttDimension` and the part of `validateAlignment` on arrays. -/
def DimType.accepted (aligned : Bool) : DimType → Bool
  | .const n => 0 < n && n ≤ intMax
  | _ => !aligned

/-- The checks of `_evlTmplAddAttribute` on an attribute that is no struct:
`validateAttBitField`, `validateAttType`, `validateAttDimension` and
`validateAlignment`. Only a bit-field may be without a name. -/
def Field.accepted (aligned : Bool) (name : Option String) : Field → Bool
  | .const => name.isSome
  | .scalar ty => name.isSome && (ty.isScalar || !aligned)
  | .array ty dim _ => name.isSome && (ty.isScalar || !aligned) && dim.type.accepted aligned
  | .bitField ty width =>
    aligned && ty.isInteger && width ≤ 8 * (archTypeInfo .noArch ty).size &&
      (width ≠ 0 || name.isNone)

/-- The attributes pass the checks of `_evlTmplAddAttribute`. Those on names
and formats are left out, and so is the one that nothing follows an
attribute that takes the rest of the record. -/
def Atts.accepted (aligned : Bool) : Atts → Bool
  | .nil => true
  | .field name f rest => f.accepted aligned name && rest.accepted aligned
  | .struct _ al sub rest => (al || !aligned) && sub.accepted al && rest.accepted aligned
  | .structs _ al sub dim _ rest =>
    (al || !aligned) && sub.accepted al && dim.type.accepted aligned && rest.accepted aligned

/-- The template compiler accepts the template, as far as this model has
it. -/
def Tmpl.accepted (t : Tmpl) : Bool := t.atts.accepted t.aligned

/-! ## Clones -/

/-- A pointer: to somewhere in the data of a record, known by the address,
or to an array that was allocated when a record was converted. -/
inductive Ptr where
  | null
  | data (addr : Nat)
  | heap (id : Nat)
  deriving DecidableEq, Repr

/-- `ta_value`. Where a string or an array was converted, its elements are
here. -/
inductive Value where
  | none
  | scalar (s : Scalar)
  | string (p : Ptr)
  | wstring (p : Ptr) (conv : List Scalar)
  | array (p : Ptr) (conv : List Scalar)
  deriving DecidableEq, Repr

/-- What changes of a `tmpl_attribute_t`, and of the dimension and the
delimiter that are its own. -/
structure AttState where
  attExists : Bool
  rawdata : Ptr
  value : Value
  dimension2 : Int
  delimiter : Ptr
  deriving DecidableEq, Repr

def Value.valArray : Value → Ptr
  | .array p _ => p
  | _ => .null

/-- `memset(t, 0, sizeof(tmpl_attribute_t))`. -/
def AttState.zero : AttState := ⟨false, .null, .none, 0, .null⟩

/-- What changes of a `template_t`, with a state for each attribute in
`atts`, and the attribute `_EXTRA_DATA_` if there is one. -/
structure CloneOf (α : Type) where
  populated : Bool
  dataSize : Nat
  atts : α
  extra : Option AttState

def Vals : Atts → Type
  | .nil => Unit
  | .field _ _ rest => AttState × Vals rest
  | .struct _ _ sub rest => (AttState × Option (CloneOf (Vals sub))) × Vals rest
  | .structs _ _ sub _ _ rest => (AttState × List (CloneOf (Vals sub))) × Vals rest

abbrev Clone (t : Tmpl) := CloneOf (Vals t.atts)

def Vals.fresh : (atts : Atts) → Vals atts
  | .nil => ()
  | .field _ _ rest => (.zero, Vals.fresh rest)
  | .struct _ _ _ rest => ((.zero, none), Vals.fresh rest)
  | .structs _ _ _ _ _ rest => ((.zero, []), Vals.fresh rest)

def cloneTemplate (atts : Atts) : CloneOf (Vals atts) := ⟨false, 0, .fresh atts, none⟩

end Evlog.Template
