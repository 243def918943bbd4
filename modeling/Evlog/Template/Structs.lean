/-
Evlog.Template.Structs — templates in templates, populated and
depopulated.

A clone of a struct's template is made when the struct is populated for the
first time, and used again for the next record; the structs of an array are
made anew for each record. So a clone goes from record to record, and what
`depopulateTemplate` leaves in it is there when it is populated again.
-/
import Evlog.Template.Populate

namespace Evlog.Template

/-! ## Depopulating -/

def extraDataAttName : String := "_EXTRA_DATA_"

def Atts.endsInExtra : Atts → Bool
  | .nil => false
  | .field name _ .nil => name = some extraDataAttName
  | .struct name _ _ .nil => name = extraDataAttName
  | .structs name _ _ _ _ .nil => name = extraDataAttName
  | .field _ _ rest => rest.endsInExtra
  | .struct _ _ _ rest => rest.endsInExtra
  | .structs _ _ _ _ _ rest => rest.endsInExtra

/-- What `depopulateTemplate` does to the attributes is `body`. It is `none`
when `zapExtraDataAtt` takes an attribute of the template for the one it
made itself: it frees then what the master owns. -/
def depopulateTmpl {α : Type} (atts : Atts) (body : α → Option (α × List Event)) (c : CloneOf α) :
    Option (CloneOf α × List Event) :=
  if c.populated then
    if c.extra.isNone && atts.endsInExtra then none
    else
      (body c.atts).map fun (v, frees) => ({ c with atts := v, extra := none, populated := false }, frees)
  else some (c, [])

def AttState.depopulated (s : AttState) : AttState := { s with attExists := false, rawdata := .null }

/-- The array of an attribute is freed if it is not in the record. -/
def depopulateField (owner : List Nat) (f : Field) (s : AttState) : AttState × List Event :=
  match f with
  | .const => (s, [])
  | .array _ _ _ =>
    if s.value.valArray = s.rawdata then (s.depopulated, [])
    else ({ s.depopulated with value := .none }, [.free owner s.value.valArray])
  | _ => (s.depopulated, [])

/-- `freeArrayOfStructs`, from the `ns`-th struct on, with `free` for one of
them. -/
def freeArrayOfStructs {α : Type} (free : Nat → CloneOf α → Option (List Event)) :
    Nat → List (CloneOf α) → Option (List Event)
  | _, [] => some []
  | ns, c :: cs => do
    let frees ← free ns c
    let more ← freeArrayOfStructs free (ns + 1) cs
    return frees ++ more

/-- The loop of `depopulateTemplate`, from the `i`-th attribute on. -/
def depopulateAtts :
    (atts : Atts) → (i : Nat) → (path : List Nat) → Vals atts → Option (Vals atts × List Event)
  | .nil, _, _, v => some (v, [])
  | .field _ f rest, i, path, (s, v) => do
    let (s, frees) := depopulateField (i :: path) f s
    let (v, more) ← depopulateAtts rest (i + 1) path v
    return ((s, v), frees ++ more)
  | .struct _ _ sub rest, i, path, ((s, st), v) => do
    let (st, frees) ←
      match st with
      | none => some (none, [])
      | some c =>
        (depopulateTmpl sub (fun v => depopulateAtts sub 0 (i :: path) v) c).map
          fun (c, frees) => (some c, frees)
    let (v, more) ← depopulateAtts rest (i + 1) path v
    return (((s.depopulated, st), v), frees ++ more)
  | .structs _ _ sub _ _ rest, i, path, ((s, list), v) => do
    let free (ns : Nat) (c : CloneOf (Vals sub)) :=
      (depopulateTmpl sub (fun v => depopulateAtts sub 0 (ns :: i :: path) v) c).map Prod.snd
    let frees ← freeArrayOfStructs free 0 list
    let (v, more) ← depopulateAtts rest (i + 1) path v
    return (((s.depopulated, []), v), frees ++ more)

def depopulateTemplate {t : Tmpl} (c : Clone t) (n : Notes) : Option (Clone t × Notes) :=
  (depopulateTmpl t.atts (depopulateAtts t.atts 0 []) c).map
    fun (c, frees) => (c, { n with log := n.log ++ frees })

/-- `_evlFreeTemplate`, on the `ns`-th struct of an array: all that is
freed in it was found by `depopulateTemplate`. -/
def freeStruct (sub : Atts) (path : List Nat) (ns : Nat) (c : CloneOf (Vals sub)) :
    Option (List Event) :=
  (depopulateTmpl sub (fun v => depopulateAtts sub 0 (ns :: path) v) c).map Prod.snd

/-! ## Structs -/

/-- The rest of `populateTmpl` behind its loop: trailing bit-fields, the
size of a struct, and that of one with bit-fields. -/
def finishTmpl (r : Record) (base alignment minSize : Nat) (l : Loop) : Notes :=
  enforceMinSize r base minSize
    (alignNextPtr r base alignment (adjustNextPerBitFields l.notes l.bfStart l.bfOffset))

/-- `populateTmpl`, with the loop over the attributes as `body`. The
attributes that exist are returned for those who name them. -/
def populateTmpl {α : Type} (r : Record) (aligned : Bool) (alignment minSize : Nat)
    (body : Nat → α → Loop → α × Loop × Flow) (c : CloneOf α) (n : Notes) :
    CloneOf α × Notes × Env × Flow :=
  let base := n.next
  match body base c.atts ⟨n, base, 0, []⟩ with
  | (atts, l, .stop why) => ({ c with atts }, l.notes, l.env, .stop why)
  | (atts, l, _) =>
    let n := if aligned then finishTmpl r base alignment minSize l else l.notes
    ({ c with atts, dataSize := n.next - base, populated := true }, n, l.env, .next)

/-- The loop of `populateArrayOfStructs`, from the `ns`-th struct on. `run`
populates one, in a clone of its own, and `free` frees a clone again. -/
def populateArrayOfStructs {α : Type} (run : Nat → Notes → CloneOf α × Notes × Env × Flow)
    (free : Nat → CloneOf α → Option (List Event)) :
    Nat → Nat → Notes → List (CloneOf α) × Notes × Flow
  | 0, _, n => ([], n, .next)
  | nel + 1, ns, n =>
    match run ns n with
    | (st, n, _, .stop why) => ([st], n, .stop why)
    | (st, n, _, _) =>
      if st.dataSize = 0 then
        match free ns st with
        | none => ([], n, .stop .undefined)
        | some frees => ([], { n with log := n.log ++ frees }, .next)
      else if n.outOfData then ([st], n, .next)
      else
        let (list, n, flow) := populateArrayOfStructs run free nel (ns + 1) n
        (st :: list, n, flow)

/-- The array branch of `populateTmpl` on an array of structs: the number of
elements to expect. With an attribute that says there are none, the array
is passed over. -/
def structsExpected (heapAddr : Nat → Nat) (r : Record) (dim : Dimension)
    (delim : Option Delimiter) (env : Env) (s : AttState) (n : Notes) :
    AttState × Notes × Option Int :=
  let left := bytesRemaining r n.next
  let (s, n) := populateDelimiter env delim s n
  (s, n, (dim.type.value heapAddr env left).map fun d => toInt (toLong d))

/-- What `populateArrayOfStructs` does with its list in the end. -/
def setList (dim : Dimension) (p count : Nat) (s : AttState) (n : Notes) : AttState × Notes :=
  if 0 < count then
    let (s, n) := setDimension2 dim count s n
    ({ s with attExists := true }, n.emit (.struct p (n.next - p)))
  else (s, n)

/-- The end of the turn for a struct that has been populated: it exists if
it has taken something, and its attributes can be found then. -/
def setStruct (aligned : Bool) (name : String) (dataSize : Nat) (env : Env) (s : AttState) (l : Loop) :
    AttState × Loop :=
  if 0 < dataSize then
    let p := l.notes.next - dataSize
    ({ s with attExists := true },
      nextAttr aligned
        { l with
          notes := l.notes.emit (.struct p dataSize)
          env := l.env ++ env.map fun e => (name :: e.1, e.2) })
  else (s, nextAttr aligned l)

/-- `populateTmpl`, from the `i`-th attribute on. The `path` leads to the
template, which may be that of a struct in a struct. -/
def populateAtts (heapAddr : Nat → Nat) (r : Record) (aligned : Bool) :
    (atts : Atts) → (i : Nat) → (path : List Nat) → (base : Nat) → Vals atts → Loop →
      Vals atts × Loop × Flow
  | .nil, _, _, _, v, l => (v, l, .next)
  | .field name f rest, i, path, base, (s, v), l =>
    match populateField heapAddr r (i :: path) aligned base name f s l with
    | (s, l, .next) =>
      let (v, l, flow) := populateAtts heapAddr r aligned rest (i + 1) path base v l
      ((s, v), l, flow)
    | (s, l, flow) => ((s, v), l, flow)
  | .struct name al sub rest, i, path, base, ((s, st), v), l =>
    match startAtt r aligned base (some (tmAlignment al sub)) l with
    | (l, true) => (((s, st), v), l, .leave)
    | (l, false) =>
      let s := { s with rawdata := .data (r.addr + l.notes.next) }
      -- a clone that is there is used again
      match populateTmpl r al (tmAlignment al sub) sub.minSize
          (fun base v l => populateAtts heapAddr r al sub 0 (i :: path) base v l)
          (st.getD (cloneTemplate sub)) l.notes with
      | (c, n, _, .stop why) => (((s, some c), v), { l with notes := n }, .stop why)
      | (c, n, env, _) =>
        let (s, l) := setStruct aligned name c.dataSize env s { l with notes := n }
        let (v, l, flow) := populateAtts heapAddr r aligned rest (i + 1) path base v l
        (((s, some c), v), l, flow)
  | .structs _ al sub dim delim rest, i, path, base, ((s, list), v), l =>
    match startAtt r aligned base (some (tmAlignment al sub)) l with
    | (l, true) => (((s, list), v), l, .leave)
    | (l, false) =>
      let p := l.notes.next
      let s := { s with rawdata := .data (r.addr + p) }
      match structsExpected heapAddr r dim delim l.env s l.notes with
      | (s, n, none) => (((s, list), v), { l with notes := n }, .stop .assertion)
      | (s, n, some nel) =>
        if dim.type.fromAtt ∧ nel ≤ 0 then
          let (v, l, flow) :=
            populateAtts heapAddr r aligned rest (i + 1) path base v
              (nextAttr aligned { l with notes := n })
          (((s, list), v), l, flow)
        else
          let run (ns : Nat) (n : Notes) :=
            populateTmpl r al (tmAlignment al sub) sub.minSize
              (fun base v l => populateAtts heapAddr r al sub 0 (ns :: i :: path) base v l)
              (cloneTemplate sub) n
          match populateArrayOfStructs run (freeStruct sub (i :: path)) nel.toNat 0 n with
          | (list, n, .stop why) => (((s, list), v), { l with notes := n }, .stop why)
          | (list, n, _) =>
            let (s, n) := setList dim p list.length s n
            let (v, l, flow) :=
              populateAtts heapAddr r aligned rest (i + 1) path base v
                (nextAttr aligned { l with notes := n })
            (((s, list), v), l, flow)

/-! ## Whole records -/

def createExtraDataAtt (r : Record) (n : Notes) : AttState × Notes :=
  (⟨true, .null, .array (.data (r.addr + n.next)) [], (r.size - n.next : Nat), .null⟩,
    { n with next := r.size, log := n.log ++ [.extra n.next (r.size - n.next)] })

/-- `populateTemplate`, on a template that is not populated. -/
def populateRecord (heapAddr : Nat → Nat) {t : Tmpl} (r : Record) (c : Clone t) (n : Notes) :
    Clone t × Notes × Flow :=
  if r.size = 0 then ({ c with dataSize := 0, populated := true }, n, .next)
  else
    match populateTmpl r t.aligned (tmAlignment t.aligned t.atts) t.atts.minSize
        (populateAtts heapAddr r t.aligned t.atts 0 []) c { n with next := 0, outOfData := false } with
    | (c, n, _, .stop why) => (c, n, .stop why)
    | (c, n, _, _) =>
      if n.next < r.size then
        let (extra, n) := createExtraDataAtt r n
        ({ c with extra := some extra }, n, .next)
      else (c, n, .next)

def populateTemplate (heapAddr : Nat → Nat) {t : Tmpl} (r : Record) (c : Clone t) (n : Notes) :
    Option (Clone t × Notes × Flow) :=
  (depopulateTemplate c n).map fun (c, n) => populateRecord heapAddr r c n

end Evlog.Template
