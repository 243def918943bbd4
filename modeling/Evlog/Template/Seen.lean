/-
Evlog.Template.Seen — what is seen of a record through a clone.

What is seen of an attribute that exists is its value and, of an array, how
many elements it has and what is put between them. `td_dimension2` of an
array with another dimension than an attribute of the template, and
`de_delimiter` of one with a scoped name, are not with the clone: they are
there once for the master and all its clones (`Notes.dims`, `Notes.delims`).
-/
import Evlog.Template.RunTheorems

namespace Evlog.Template

open Evlog.Lib

/-! ## What is seen -/

/-- An attribute that exists, with the dimension and the delimiter of an array. -/
structure Existing where
  owner : List Nat
  array : Option (Dimension × Option Delimiter)
  state : AttState

structure Seen where
  owner : List Nat
  value : Value
  count : Option Int
  delimiter : Option Ptr
  deriving DecidableEq

/-- `td_dimension2`, in the clone's own dimension or in the one that is shared. -/
def Dimension.count (n : Notes) (s : AttState) (dim : Dimension) : Int :=
  match dim.type with
  | .attr _ => s.dimension2
  | _ => n.dims dim.id

/-- `de_delimiter`. A constant one is with the template. -/
def Delimiter.current (n : Notes) (s : AttState) : Delimiter → Option Ptr
  | .const => none
  | .attr _ => some s.delimiter
  | .attname id _ => some (n.delims id)

def Existing.seen (n : Notes) (e : Existing) : Seen where
  owner := e.owner
  value := e.state.value
  count := e.array.map fun a => a.1.count n e.state
  delimiter := e.array.bind fun a => a.2.bind fun d => d.current n e.state

def Field.array? : Field → Option (Dimension × Option Delimiter)
  | .array _ dim delim => some (dim, delim)
  | _ => none

/-- The attributes that exist in the structs of a list, from the `ns`-th on. -/
def listExisting {α : Type} (existing : Nat → α → List Existing) : Nat → List (CloneOf α) → List Existing
  | _, [] => []
  | ns, c :: cs => existing ns c.atts ++ listExisting existing (ns + 1) cs

def structExisting {α : Type} (existing : α → List Existing) : Option (CloneOf α) → List Existing
  | none => []
  | some c => existing c.atts

/-- The attributes that exist, from the `i`-th on. Those of a struct are seen if the struct exists. -/
def Vals.existing : (atts : Atts) → (i : Nat) → (path : List Nat) → Vals atts → List Existing
  | .nil, _, _, _ => []
  | .field _ f rest, i, path, (s, v) =>
    (if s.attExists then [⟨i :: path, f.array?, s⟩] else []) ++ Vals.existing rest (i + 1) path v
  | .struct _ _ sub rest, i, path, ((s, st), v) =>
    (if s.attExists then
        ⟨i :: path, none, s⟩ :: structExisting (fun v => Vals.existing sub 0 (i :: path) v) st
      else []) ++
      Vals.existing rest (i + 1) path v
  | .structs _ _ sub dim delim rest, i, path, ((s, list), v) =>
    (if s.attExists then
        ⟨i :: path, some (dim, delim), s⟩ ::
          listExisting (fun ns v => Vals.existing sub 0 (ns :: i :: path) v) 0 list
      else []) ++
      Vals.existing rest (i + 1) path v

def CloneOf.existing {atts : Atts} (c : CloneOf (Vals atts)) : List Existing :=
  Vals.existing atts 0 [] c.atts

/-- What is seen through a clone, besides the bytes of `_EXTRA_DATA_`. -/
def CloneOf.seen {atts : Atts} (n : Notes) (c : CloneOf (Vals atts)) : List Seen × Option AttState :=
  (c.existing.map (Existing.seen n), c.extra)

end Evlog.Template
