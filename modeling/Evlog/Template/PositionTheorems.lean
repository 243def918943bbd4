/-
Evlog.Template.PositionTheorems — where the loop is in the struct of an
aligned template.

`Atts.members` is the struct that a template describes. The position in it
is kept as a storage unit and a number of bits of it (`At`). A scalar or an
array of a record of the machine itself is found where the compiler puts
the member. A bit-field is found where the members before it have left the
loop (`AtCursor`).
-/
import Evlog.Template.Cursor
import Evlog.Template.RunTheorems

namespace Evlog.Template

open Evlog.Lib Evlog.Posix

/-! ## The struct of a template -/

def DimType.constant : DimType → Nat
  | .const n => n
  | _ => 0

/-- The members of the struct that the attributes describe. -/
def Atts.members : Atts → Members
  | .nil => .nil
  | .field name f rest =>
    match f with
    | .const => rest.members
    | .scalar ty =>
      .scalar (archTypeInfo .noArch ty).size (archTypeInfo .noArch ty).align 1 rest.members
    | .array ty dim _ =>
      .scalar (archTypeInfo .noArch ty).size (archTypeInfo .noArch ty).align dim.type.constant
        rest.members
    | .bitField ty width => .bits (archTypeInfo .noArch ty).size width name.isSome rest.members
  | .struct _ _ sub rest => .struct sub.members 1 rest.members
  | .structs _ _ sub dim _ rest => .struct sub.members dim.type.constant rest.members

def Record.Local (r : Record) : Prop := r.arch = .noArch ∨ r.arch = .x86_64

theorem Record.Local.archTypeInfo {r : Record} (h : r.Local) (ty : BaseType) :
    archTypeInfo r.arch ty = archTypeInfo .noArch ty := by
  rcases h with h | h
  · rw [h]
  · rw [h]
    cases ty <;> rfl

variable {ty : BaseType}

theorem align_pos_of_scalar (h : ty.isScalar = true) : 0 < (archTypeInfo .noArch ty).align := by
  cases ty <;> first | decide | cases h

theorem align_of_integer (h : ty.isInteger = true) :
    (archTypeInfo .noArch ty).align = (archTypeInfo .noArch ty).size := by
  cases ty <;> first | rfl | cases h

theorem constant_of_accepted {d : DimType} (h : d.accepted true = true) :
    d = .const d.constant ∧ 0 < d.constant ∧ d.constant ≤ intMax := by
  cases d with
  | const n =>
    rw [DimType.accepted, Bool.and_eq_true, decide_eq_true_eq, decide_eq_true_eq] at h
    exact ⟨rfl, h⟩
  | _ => cases h

variable {name : Option String} {width pos p nel size : Nat}

/-- What is accepted as an attribute of an aligned template. -/
theorem Field.accepted_bitField (h : Field.accepted true name (.bitField ty width) = true) :
    ty.isInteger = true ∧ width ≤ 8 * (archTypeInfo .noArch ty).size ∧
      (name.isSome = true → 0 < width) := by
  simp only [Field.accepted, Bool.and_eq_true, Bool.or_eq_true, decide_eq_true_eq] at h
  obtain ⟨⟨⟨-, hint⟩, hwidth⟩, hname⟩ := h
  refine ⟨hint, hwidth, fun hsome => ?_⟩
  rcases hname with hne | hnone
  · omega
  · rw [Option.isNone_iff_eq_none] at hnone
    rw [hnone] at hsome
    cases hsome

theorem Field.accepted_scalar (h : Field.accepted true name (.scalar ty) = true) :
    ty.isScalar = true := by
  simp only [Field.accepted, Bool.not_true, Bool.or_false, Bool.and_eq_true] at h
  exact h.2

theorem Field.accepted_array {dim : Dimension} {delim : Option Delimiter}
    (h : Field.accepted true name (.array ty dim delim) = true) :
    ty.isScalar = true ∧ dim.type.accepted true = true := by
  simp only [Field.accepted, Bool.not_true, Bool.or_false, Bool.and_eq_true] at h
  exact ⟨h.1.2, h.2⟩

theorem Atts.members_wellFormed {atts : Atts} (h : atts.accepted true = true) :
    atts.members.WellFormed := by
  induction atts with
  | nil => trivial
  | field name f rest ih =>
    rw [Atts.accepted, Bool.and_eq_true] at h
    obtain ⟨hf, hrest⟩ := h
    cases f with
    | const => exact ih hrest
    | scalar ty =>
      exact ⟨⟨size_pos _ ty, align_pos_of_scalar (Field.accepted_scalar hf), Nat.one_pos⟩,
        ih hrest⟩
    | array ty dim delim =>
      obtain ⟨hty, hdim⟩ := Field.accepted_array hf
      exact ⟨⟨size_pos _ ty, align_pos_of_scalar hty, (constant_of_accepted hdim).2.1⟩, ih hrest⟩
    | bitField ty width =>
      obtain ⟨-, hwidth, hname⟩ := Field.accepted_bitField hf
      exact ⟨⟨size_pos _ ty, hwidth, hname⟩, ih hrest⟩
  | struct name al sub rest ihsub ihrest =>
    simp only [Atts.accepted, Bool.not_true, Bool.or_false, Bool.and_eq_true] at h
    obtain ⟨⟨rfl, hsub⟩, hrest⟩ := h
    exact ⟨Nat.one_pos, ihsub hsub, ihrest hrest⟩
  | structs name al sub dim delim rest ihsub ihrest =>
    simp only [Atts.accepted, Bool.not_true, Bool.or_false, Bool.and_eq_true] at h
    obtain ⟨⟨⟨rfl, hsub⟩, hdim⟩, hrest⟩ := h
    exact ⟨(constant_of_accepted hdim).2.1, ihsub hsub, ihrest hrest⟩

/-- `tm_alignment` is the alignment of the struct. -/
theorem Atts.tmplAlign_eq {atts : Atts} (h : atts.accepted true = true) :
    atts.tmplAlign = atts.members.align := by
  induction atts with
  | nil => rfl
  | field name f rest ih =>
    rw [Atts.accepted, Bool.and_eq_true] at h
    obtain ⟨hf, hrest⟩ := h
    cases f with
    | const => exact ih hrest
    | scalar ty =>
      cases name with
      | none => cases hf
      | some name =>
        change max _ rest.tmplAlign = max _ rest.members.align
        rw [ih hrest]
        rfl
    | array ty dim delim =>
      cases name with
      | none => cases hf
      | some name =>
        change max _ rest.tmplAlign = max _ rest.members.align
        rw [ih hrest]
        rfl
    | bitField ty width =>
      have halign := align_of_integer (Field.accepted_bitField hf).1
      cases name with
      | none => exact ih hrest
      | some name =>
        change max (archTypeInfo .noArch ty).align rest.tmplAlign = max _ rest.members.align
        rw [ih hrest, halign]
  | struct name al sub rest ihsub ihrest =>
    simp only [Atts.accepted, Bool.not_true, Bool.or_false, Bool.and_eq_true] at h
    obtain ⟨⟨rfl, hsub⟩, hrest⟩ := h
    rw [Atts.tmplAlign, if_pos rfl, ihsub hsub, ihrest hrest]
    rfl
  | structs name al sub dim delim rest ihsub ihrest =>
    simp only [Atts.accepted, Bool.not_true, Bool.or_false, Bool.and_eq_true] at h
    obtain ⟨⟨⟨rfl, hsub⟩, hdim⟩, hrest⟩ := h
    rw [Atts.tmplAlign, if_pos rfl, ihsub hsub, ihrest hrest]
    rfl

/-! ## Where things are found -/

def Event.place : Event → Option Place
  | .att p n => some (.bytes p n)
  | .struct p n => some (.struct p n)
  | .bits base pos width => some (.bits (8 * base + pos) width)
  | _ => none

def placesOf (es : List Event) : List Place := es.filterMap Event.place

theorem placesOf_append (es es' : List Event) : placesOf (es ++ es') = placesOf es ++ placesOf es' :=
  List.filterMap_append

variable {r : Record}

def Placed (n n' : Notes) (ps : List Place) : Prop :=
  ∃ es, n'.log = n.log ++ es ∧ placesOf es = ps

section Placed

variable {n n' n'' : Notes} {ps ps' : List Place}

theorem Placed.of_eq (h : n'.log = n.log) : Placed n n' [] := ⟨[], by rw [h, List.append_nil], rfl⟩

theorem Placed.refl (n : Notes) : Placed n n [] := .of_eq rfl

theorem Placed.trans (h : Placed n n' ps) (h' : Placed n' n'' ps') : Placed n n'' (ps ++ ps') := by
  obtain ⟨es, hlog, rfl⟩ := h
  obtain ⟨es', hlog', rfl⟩ := h'
  exact ⟨es ++ es', by rw [hlog', hlog, List.append_assoc], placesOf_append es es'⟩

theorem Placed.after (h : Placed n n' []) (h' : Placed n' n'' ps) : Placed n n'' ps := h.trans h'

theorem Placed.before (h : Placed n n' ps) (h' : Placed n' n'' []) : Placed n n'' ps := by
  simpa using h.trans h'

theorem placed_emit (e : Event) : Placed n (n.emit e) e.place.toList := by
  refine ⟨[e], rfl, ?_⟩
  cases h : e.place <;> simp [placesOf, h]

theorem placed_setNext (p : Nat) : Placed n (n.setNext p) [] := ⟨[.next p], rfl, rfl⟩

end Placed

/-! ## The position in a struct -/

/-- The loop has come to a position in the struct. Where the record is at
its end, nothing may follow. -/
structure At (r : Record) (base pos : Nat) (l : Loop) : Prop where
  base_le : base ≤ l.bfStart
  bits : 8 * (l.bfStart - base) + l.bfOffset = pos
  le_next : base ≤ l.notes.next
  next : 8 * (l.notes.next - base) ≤ pos
  out : l.notes.outOfData = true → l.notes.next = r.size

/-- The loop is where the members before have left it. At the end of the
record, `pn_next` is there. -/
structure AtCursor (r : Record) (base : Nat) (c : Cursor) (l : Loop) : Prop extends
    At r base c.pos l where
  valid : c.Valid
  unit : l.bfStart = base + c.unit
  pn_next : l.notes.outOfData = false → l.notes.next = base + c.next

/-- `pn_next` is at a place in the record. -/
structure NextAt (r : Record) (p : Nat) (n : Notes) : Prop where
  next : n.next = p
  le : p ≤ r.size
  out : n.outOfData = true → p = r.size

section Moving

variable {base pos q a : Nat} {l : Loop} {n : Notes}

theorem alignDataPtr_eq {p : Nat} (hp : base ≤ p) (ha : 0 < a) :
    alignDataPtr p base a = base + roundUp (p - base) a := by
  unfold alignDataPtr
  split
  · rename_i h
    rw [roundUp_of_dvd ha (Nat.dvd_of_mod_eq_zero h)]
    omega
  · rename_i h
    rw [roundUp_eq_add ha fun hdvd => h (Nat.mod_eq_zero_of_dvd hdvd)]
    omega

theorem NextAt.align (h : NextAt r (base + q) n) (ha : 0 < a) (hfits : base + roundUp q a ≤ r.size) :
    NextAt r (base + roundUp q a) (alignNextPtr r base a n) ∧
      Placed n (alignNextPtr r base a n) [] := by
  have hle := le_roundUp ha q
  have hout := h.out
  have hp : alignDataPtr n.next base a = base + roundUp q a := by
    rw [h.next, alignDataPtr_eq (Nat.le_add_right _ _) ha, Nat.add_sub_cancel_left]
  unfold alignNextPtr
  dsimp only
  rw [hp]
  split
  · exact ⟨⟨by dsimp only [out_next, setNext_next]; omega, hfits, fun _ => by omega⟩,
      placed_setNext _⟩
  · refine ⟨⟨rfl, hfits, fun hn => ?_⟩, placed_setNext _⟩
    have := hout hn
    omega

theorem bitsToBytes_eq (b : Nat) : bitsToBytes b = byteEnd b := rfl

theorem At.folded (h : At r base pos l) :
    l.bfStart + bitsToBytes l.bfOffset = base + byteEnd pos := by
  have hbase := h.base_le
  have hpos := h.bits
  rw [bitsToBytes_eq]
  unfold byteEnd
  omega

theorem At.adjust (h : At r base pos l) (hfits : base + byteEnd pos ≤ r.size) :
    NextAt r (base + byteEnd pos) (adjustNextPerBitFields l.notes l.bfStart l.bfOffset) := by
  refine ⟨h.folded, hfits, fun hout => ?_⟩
  have hsize := h.out hout
  have hnext := h.next
  have hle := h.le_next
  have hbyte := le_byteEnd pos
  omega

/-- An attribute starts at the next multiple of its alignment. -/
theorem At.startsAt (h : At r base pos l) (ha : 0 < a)
    (hfits : base + roundUp (byteEnd pos) a ≤ r.size) :
    NextAt r (base + roundUp (byteEnd pos) a) (startNotes r true base a l) ∧
      Placed l.notes (startNotes r true base a l) [] := by
  have hle := le_roundUp ha (byteEnd pos)
  have hadjust := h.adjust (by omega)
  obtain ⟨hnext, hplaced⟩ := hadjust.align ha hfits
  exact ⟨hnext, (placed_setNext _).after hplaced⟩

/-- The loop has taken whole bytes up to `pn_next`. -/
theorem NextAt.at (h : NextAt r (base + q) l.notes) (hle : base ≤ l.bfStart)
    (hbits : 8 * (l.bfStart - base) + l.bfOffset = 8 * q) : At r base (8 * q) l where
  base_le := hle
  bits := hbits
  le_next := by
    have hnext := h.next
    omega
  next := by
    have hnext := h.next
    omega
  out := fun hout => h.next.trans (h.out hout)

theorem NextAt.started (h : NextAt r (base + q) n) (l : Loop) : At r base (8 * q) (l.started n) := by
  have hnext := h.next
  refine NextAt.at h ?_ ?_
  · dsimp only [Loop.started]
    omega
  · dsimp only [Loop.started]
    omega

theorem NextAt.startedUnit (h : NextAt r (base + q) n) (l : Loop) :
    AtCursor r base (.behind q 0) (l.started n) :=
  ⟨h.started l, Cursor.valid_behind q 0, h.next, fun _ => h.next⟩

theorem NextAt.nextAttr {n₀ : Notes} {size : Nat} (h : NextAt r (base + (q + size)) n)
    (h₀ : NextAt r (base + q) n₀) (l : Loop) :
    AtCursor r base (.behind q size) (nextAttr true { l.started n₀ with notes := n }) := by
  have hnext := h.next
  have hnext₀ := h₀.next
  unfold Template.nextAttr
  rw [if_pos rfl]
  refine ⟨NextAt.at h ?_ ?_, Cursor.valid_behind q size, hnext₀, fun _ => hnext⟩
  · dsimp only [Loop.started]
    omega
  · dsimp only [Loop.started]
    omega

theorem At.of_bf {l' : Loop} (h : At r base pos l) (hnotes : l'.notes = l.notes)
    (hstart : l'.bfStart = l.bfStart) (hoffset : l'.bfOffset = l.bfOffset) : At r base pos l' :=
  ⟨hstart ▸ h.base_le, hstart ▸ hoffset ▸ h.bits, hnotes ▸ h.le_next, hnotes ▸ h.next, hnotes ▸ h.out⟩

theorem AtCursor.of_bf {c : Cursor} {l' : Loop} (h : AtCursor r base c l) (hnotes : l'.notes = l.notes)
    (hstart : l'.bfStart = l.bfStart) (hoffset : l'.bfOffset = l.bfOffset) : AtCursor r base c l' :=
  ⟨h.toAt.of_bf hnotes hstart hoffset, h.valid, hstart ▸ h.unit, hnotes ▸ h.pn_next⟩

/-- The turn of an attribute starts, or the record is at its end. -/
theorem At.startAtt (h : At r base pos l) (ha : 0 < a)
    (hfits : base + roundUp (byteEnd pos) a ≤ r.size) :
    (base + roundUp (byteEnd pos) a = r.size ∧ ∃ l',
        startAtt r true base (some a) l = (l', true) ∧
        At r base (8 * roundUp (byteEnd pos) a) l' ∧ Placed l.notes l'.notes []) ∨
      (base + roundUp (byteEnd pos) a < r.size ∧
        (startNotes r true base a l).outOfData = false ∧
        startAtt r true base (some a) l = (l.started (startNotes r true base a l), false)) := by
  obtain ⟨hnext, hplaced⟩ := h.startsAt ha hfits
  rcases Nat.lt_or_ge (base + roundUp (byteEnd pos) a) r.size with hlt | hge
  · have hout : (startNotes r true base a l).outOfData = false := by
      cases hout : (startNotes r true base a l).outOfData with
      | false => rfl
      | true =>
        have := hnext.out hout
        omega
    refine .inr ⟨hlt, hout, ?_⟩
    rw [startAtt_some, if_neg, hout]
    rw [hnext.next, bytesRemaining_of_le hlt.le]
    omega
  · refine .inl ⟨by omega, { l.started (startNotes r true base a l) with
      notes := (startNotes r true base a l).out }, ?_, ?_, ?_⟩
    · rw [startAtt_some, if_pos]
      rw [hnext.next, bytesRemaining_of_le hfits]
      omega
    · exact NextAt.started (n := (startNotes r true base a l).out)
        ⟨hnext.next, hfits, fun _ => by omega⟩ l
    · exact hplaced

end Moving

/-! ## One attribute -/

/-- A turn of the loop that goes on, past some places. -/
structure Stepped (r : Record) (base : Nat) (c : Cursor) (l l' : Loop) (ps : List Place) : Prop where
  reached : AtCursor r base c l'
  placed : Placed l.notes l'.notes ps

theorem AtCursor.found {base : Nat} {c : Cursor} {l : Loop} (h : AtCursor r base c l)
    (name : Option String) (ty : BaseType) (s : AttState) : AtCursor r base c (l.found name ty s) := by
  unfold Loop.found
  split
  · split
    · exact h.of_bf rfl rfl rfl
    · exact h
  · exact h

theorem populateValue_layout (hlocal : r.Local) (owner : List Nat) (hty : ty.isScalar = true)
    (s : AttState) {n : Notes} (h : NextAt r p n) (hout : n.outOfData = false)
    (hfits : p + (archTypeInfo .noArch ty).size ≤ r.size) :
    (populateValue r owner ty s n).2.2 = .next ∧
      NextAt r (p + (archTypeInfo .noArch ty).size) (populateValue r owner ty s n).2.1 ∧
      Placed n (populateValue r owner ty s n).2.1 [.bytes p (archTypeInfo .noArch ty).size] := by
  have hnext := h.next
  have hle := h.le
  rcases populateValue_scalar owner hty s (by rw [hnext]; exact hle) with ⟨hlt, -⟩ | ⟨-, heq⟩
  · rw [hlocal.archTypeInfo] at hlt
    omega
  · rw [heq, hlocal.archTypeInfo, hnext]
    refine ⟨rfl, ⟨rfl, hfits, fun hn => ?_⟩, _, rfl, rfl⟩
    rw [hout] at hn
    cases hn

theorem convScalarArray_layout (owner : List Nat) (ty : BaseType) (p nel : Nat) (n : Notes) :
    (convScalarArray r owner ty p nel n).1.next = n.next ∧
      (convScalarArray r owner ty p nel n).1.outOfData = n.outOfData ∧
      Placed n (convScalarArray r owner ty p nel n).1 [] := by
  unfold convScalarArray
  split
  · exact ⟨rfl, rfl, .refl n⟩
  · exact ⟨rfl, rfl, (placed_emit (.read _ _)).after (placed_emit (.alloc owner _))⟩

theorem toLong_of_lt {x : Int} (h₀ : 0 ≤ x) (h : x < 2 ^ 63) : toLong x = x :=
  Int.bmod_eq_of_le (by omega) (by omega)

theorem toInt_toLong (h : nel ≤ intMax) : toInt (toLong nel) = nel := by
  have hintMax : intMax = 2 ^ 31 - 1 := rfl
  rw [toLong_of_lt (by omega) (by omega), toInt_of_lt (by omega) (by omega)]

theorem populateArray_layout (hlocal : r.Local) (heapAddr : Nat → Nat) (owner : List Nat)
    (hty : ty.isScalar = true) {dim : Dimension} (hdim : dim.type = .const nel) (hpos : 0 < nel)
    (hmax : nel ≤ intMax) (delim : Option Delimiter) (env : Env) (s : AttState) {n : Notes}
    (h : NextAt r p n) (hout : n.outOfData = false)
    (hfits : p + (archTypeInfo .noArch ty).size * nel ≤ r.size) :
    (populateArray heapAddr r owner ty dim delim env s n).2.2 = .next ∧
      NextAt r (p + (archTypeInfo .noArch ty).size * nel)
        (populateArray heapAddr r owner ty dim delim env s n).2.1 ∧
      Placed n (populateArray heapAddr r owner ty dim delim env s n).2.1
        [.bytes p ((archTypeInfo .noArch ty).size * nel)] := by
  have hnext := h.next
  have hsize := r.size_le
  have hposs := size_pos .noArch ty
  have hmaxlen : posixLogEntryMaxlen = 8192 := rfl
  obtain ⟨s₁, n₁, hnext₁, hout₁, hlog₁, hcases⟩ :=
    populateArray_cases (r := r) (n := n) heapAddr owner ty dim delim env s
  have hmul : (((archTypeInfo .noArch ty).size * nel : Nat) : Int) =
      (archTypeInfo .noArch ty).size * (nel : Int) := Nat.cast_mul ..
  have hint : toInt ((archTypeInfo .noArch ty).size * (nel : Int)) =
      ((archTypeInfo .noArch ty).size * nel : Nat) := by
    rw [← hmul]
    exact toInt_of_lt (by omega) (by omega)
  rw [hdim] at hcases
  dsimp only [DimType.value, DimType.fromAtt] at hcases
  rcases hcases with ⟨hno, -⟩ | ⟨d, hd, ⟨hno, -, -⟩ | ⟨-, heq⟩⟩
  · cases hno
  · cases hno
  · cases hd
    rw [heq, toInt_toLong hmax]
    dsimp only
    rw [populateElems_scalar owner hty]
    obtain ⟨n₂, hnext₂, hlog₂, hout₂, heq₂⟩ :=
      populateScalars_eq (r := r) (n := n₁) owner ty dim (nel : Int) s₁ rfl rfl
    rw [hlocal.archTypeInfo, hnext₁, hnext, bytesRemaining_of_le h.le] at *
    have hshort : ¬r.size - p < (toInt ((archTypeInfo .noArch ty).size * (nel : Int)) % 2 ^ 64).toNat := by
      rw [short_iff (by omega), hint]
      omega
    rw [scalarsCount, if_neg hshort, if_pos (by omega), Int.toNat_natCast] at heq₂
    rw [heq₂, hint]
    obtain ⟨hnext₃, hout₃, hplaced⟩ := convScalarArray_layout (r := r) owner ty p nel n₂
    refine ⟨rfl, ⟨?_, hfits, fun hn => ?_⟩, ?_⟩
    · dsimp only [emit_next, setNext_next]
      omega
    · have hn₂ := hout₂.resolve_left hshort
      dsimp only [emit_outOfData, setNext_outOfData] at hn
      rw [hout₃, hn₂, hout₁, hout] at hn
      cases hn
    · have hstart : Placed n n₂ [] := .of_eq (hlog₂.trans hlog₁)
      exact ((hstart.after hplaced).after (placed_setNext _)).after
        ((placed_emit (.att p _)).before (placed_emit (.array _)))

/-! ### Bit-fields -/

section BitFields

variable {base size : Nat} {c : Cursor} {l : Loop} {named : Bool}

/-- In the first `room` bytes, there is not enough data for the bit-field. -/
def Cursor.Lacks (c : Cursor) (size width room : Nat) : Prop :=
  if width = 0 then room ≤ roundUp (byteEnd c.pos) size ∧ c.pos % (8 * size) ≠ 0
  else 8 * room < (c.unitFor size width).pos + width

/-- The data suffices for what is put where it belongs. -/
theorem Cursor.Follows.not_lacks {room : Nat} (h : c.Follows size width room named) (hsize : 0 < size)
    (hfits : Members.bitStart size width c.pos + width ≤ 8 * room) : ¬c.Lacks size width room := by
  have hstart := Members.le_bitStart hsize width c.pos
  unfold Cursor.Follows at h
  unfold Cursor.Lacks
  by_cases hw : width = 0
  · rw [if_pos hw] at h ⊢
    omega
  · rw [if_neg hw] at h ⊢
    by_cases hstarts : c.startsUnit size width = true
    · rw [if_pos hstarts, ← bitStart_eq_roundUp_iff hsize hw] at h
      rw [unitFor_pos hsize hstarts]
      omega
    · rw [unitFor, if_neg hstarts]
      omega

/-- A bit-field that is not there, because the record has come to its end. -/
structure Ended (r : Record) (base : Nat) (c : Cursor) (size width : Nat) (l l' : Loop) : Prop where
  lacks : 8 * (r.size - base) < c.pos ∨ c.Lacks size width (r.size - base)
  pn_next : l'.notes.next = r.size
  unit : width = 0 → l'.bfStart = l.bfStart ∧ l'.bfOffset = l.bfOffset
  placed : Placed l.notes l'.notes []

theorem AtCursor.offset (h : AtCursor r base c l) : l.bfOffset = c.offset := by
  have hbits := h.bits
  have hunit := h.unit
  unfold Cursor.offset
  omega

theorem AtCursor.takeBits (h : AtCursor r base c l) (ty : BaseType) {width : Nat} (hw : width ≠ 0)
    (name : Option String) (s : AttState) (hout : l.notes.outOfData = false) :
    Stepped r base (c.taken width) l (takeBits r base ty width name s l).2
      (if name.isSome then Members.bitPlaces base c.pos width else []) := by
  have hbase := h.base_le
  have hbits := h.bits
  have hle := h.le_next
  have hunit := h.unit
  have hnext := h.pn_next hout
  have hoffset := h.offset
  have hvalid := h.valid.taken width
  have hunit_le := h.valid.unit_le
  have hnext_le := h.valid.next_le
  unfold Template.takeBits
  obtain ⟨sn, hsn⟩ : ∃ sn, sn =
      if name.isSome then extractDataFromBitField r base ty l.bfStart l.bfOffset width s l.notes
      else (s, l.notes) := ⟨_, rfl⟩
  have hn : sn.2.next = l.notes.next ∧ sn.2.outOfData = false ∧
      Placed l.notes sn.2 (if name.isSome then Members.bitPlaces base c.pos width else []) := by
    rw [hsn]
    split
    · refine ⟨rfl, hout, ?_⟩
      have hfirst : l.bfStart + l.bfOffset / 8 = base + c.pos / 8 := by omega
      have hlen : l.bfStart + (l.bfOffset + width - 1) / 8 + 1 - (l.bfStart + l.bfOffset / 8) =
          (c.pos + width - 1) / 8 + 1 - c.pos / 8 := by omega
      unfold extractDataFromBitField Members.bitPlaces
      dsimp only
      rw [hlen, hfirst, hbits]
      exact ((placed_emit (.read _ _)).after (placed_emit (.att _ _))).trans
        (placed_emit (.bits base c.pos width))
    · exact ⟨rfl, hout, .refl _⟩
  obtain ⟨hsnext, hsout, hplaced⟩ := hn
  rw [← hsn]
  dsimp only
  unfold Cursor.taken at hvalid ⊢
  rw [← hoffset] at hvalid ⊢
  split
  · rename_i hfull
    rw [if_pos hfull] at hvalid
    refine ⟨⟨⟨?_, ?_, ?_, ?_, fun hno => ?_⟩, hvalid, ?_, fun _ => ?_⟩, hplaced.before (placed_setNext _)⟩
    · dsimp only
      omega
    · dsimp only
      omega
    · dsimp only [setNext_next]
      omega
    · dsimp only [setNext_next]
      omega
    · dsimp only [setNext_outOfData] at hno
      rw [hsout] at hno
      cases hno
    · dsimp only
      omega
    · dsimp only [setNext_next]
      omega
  · rename_i hfull
    rw [if_neg hfull] at hvalid
    refine ⟨⟨⟨hbase, ?_, ?_, ?_, fun hno => ?_⟩, hvalid, hunit, fun _ => ?_⟩, hplaced⟩
    · dsimp only
      omega
    · dsimp only
      omega
    · dsimp only
      omega
    · dsimp only at hno
      rw [hsout] at hno
      cases hno
    · dsimp only
      omega

theorem AtCursor.noted (h : AtCursor r base c l) (ty : BaseType) (width : Nat) :
    Stepped r base c l (l.noted base ty width) [] :=
  ⟨⟨⟨h.base_le, h.bits, h.le_next, h.next, h.out⟩, h.valid, h.unit, h.pn_next⟩,
    placed_emit (.bitField _)⟩

/-- A bit-field without a width moves to the next multiple. -/
theorem AtCursor.zeroWidth (h : AtCursor r base c l) {p : Nat} (hsize : 0 < size)
    (hp : p = alignDataPtr (l.bfStart + bitsToBytes l.bfOffset) base size) (s : AttState)
    (hlacks : ¬c.Lacks size 0 (r.size - base)) (hroom : base ≤ r.size) :
    Stepped r base (c.pastBits size 0) l
      (if r.size ≤ p then (s, outOfData r l) else (s, { l with bfOffset := 8 * (p - l.bfStart) })).2
      [] := by
  have hbase := h.base_le
  have hbits := h.bits
  have hle := h.le_next
  have hnextle := h.next
  have hunit := h.unit
  have hunit_le := h.valid.unit_le
  have hnext_le := h.valid.next_le
  have hbyte := h.folded
  have hup := le_roundUp hsize (byteEnd c.pos)
  have hbytes := le_byteEnd c.pos
  have hvalid := h.valid.pastBits hsize 0
  unfold Cursor.Lacks at hlacks
  rw [if_pos rfl] at hlacks
  have hpast : c.pastBits size 0 = { c with pos := 8 * roundUp (byteEnd c.pos) size } := if_pos rfl
  rw [hpast] at hvalid ⊢
  rw [hbyte, alignDataPtr_eq (Nat.le_add_right _ _) hsize, Nat.add_sub_cancel_left] at hp
  split
  · rename_i hend
    have hdvd : c.pos % (8 * size) = 0 := by
      by_contra hno
      exact hlacks ⟨by omega, hno⟩
    have hpos : roundUp c.pos (8 * size) = c.pos :=
      roundUp_of_dvd (by omega) (Nat.dvd_of_mod_eq_zero hdvd)
    rw [roundUp_bits hsize] at hpos
    refine ⟨⟨⟨hbase, hpos.symm ▸ hbits, ?_, ?_, fun _ => rfl⟩, hvalid, hunit, fun hno => nomatch hno⟩,
      placed_setNext _⟩
    · dsimp only [outOfData, out_next, setNext_next]
      omega
    · dsimp only [outOfData, out_next, setNext_next]
      omega
  · refine ⟨⟨⟨hbase, ?_, hle, ?_, h.out⟩, hvalid, hunit, h.pn_next⟩, .refl _⟩
    · dsimp only
      omega
    · dsimp only
      omega

theorem AtCursor.startsUnit (h : AtCursor r base c l) (size width : Nat) :
    startsUnit (8 * size) base l.bfStart l.bfOffset width = c.startsUnit size width := by
  have hstart : l.bfStart - base = c.unit := by
    have hunit := h.unit
    omega
  have hend (p : Nat) : l.bfStart + p - base = c.unit + p := by
    have hunit := h.unit
    omega
  rw [Cursor.startsUnit, ← h.offset]
  unfold Template.startsUnit bigMisalignedBitField
  rw [hstart, hend, Nat.sub_zero, Nat.sub_zero]

/-- A new storage unit starts at the end of the record, or is where the
cursor has it. -/
theorem AtCursor.storageUnit (h : AtCursor r base c l) {ty : BaseType}
    (hinfo : archTypeInfo r.arch ty = ⟨size, size⟩) (hsize : 0 < size) (width : Nat)
    (hout : l.notes.outOfData = false) (hroom : base ≤ r.size) :
    (8 * (r.size - base) ≤ (c.unitFor size width).pos ∧
        (storageUnit r base ty width l).bfStart = r.size ∧
        Placed l.notes (Template.storageUnit r base ty width l).notes []) ∨
      ((8 * (r.size - base) < c.pos ∨ (Template.storageUnit r base ty width l).bfStart ≤ r.size) ∧
        (Template.storageUnit r base ty width l).notes.outOfData = false ∧
        Stepped r base (c.unitFor size width) l (Template.storageUnit r base ty width l) []) := by
  have hbase := h.base_le
  have hbits := h.bits
  have hbyte := le_byteEnd c.pos
  unfold Template.storageUnit Cursor.unitFor
  rw [hinfo]
  dsimp only
  rw [h.startsUnit size width]
  by_cases hstarts : c.startsUnit size width = true
  · rw [if_pos hstarts, if_pos hstarts]
    rcases Nat.lt_or_ge (base + roundUp (byteEnd c.pos) size) r.size with hlt | hge
    · obtain ⟨hnext, hplaced⟩ := h.toAt.startsAt hsize hlt.le
      rw [startNotes, if_pos rfl] at hnext hplaced
      refine .inr ⟨?_, ?_, hnext.startedUnit l, hplaced⟩
      · dsimp only
        rw [hnext.next]
        exact .inr hlt.le
      · dsimp only
        cases hno :
          (alignNextPtr r base size (adjustNextPerBitFields l.notes l.bfStart l.bfOffset)).outOfData with
        | false => rfl
        | true =>
          have := hnext.out hno
          omega
    · have hp : alignDataPtr (l.bfStart + bitsToBytes l.bfOffset) base size =
          base + roundUp (byteEnd c.pos) size := by
        rw [h.folded, alignDataPtr_eq (Nat.le_add_right _ _) hsize, Nat.add_sub_cancel_left]
      have hend : alignNextPtr r base size (adjustNextPerBitFields l.notes l.bfStart l.bfOffset) =
          ((adjustNextPerBitFields l.notes l.bfStart l.bfOffset).setNext r.size).out := by
        unfold alignNextPtr adjustNextPerBitFields
        dsimp only [setNext_next]
        rw [hp, if_pos hge]
      refine .inl ⟨?_, ?_, ?_⟩
      · dsimp only [Cursor.behind]
        omega
      · dsimp only
        rw [hend]
        rfl
      · dsimp only
        rw [hend]
        exact (placed_setNext _).after (placed_setNext _)
  · rw [if_neg hstarts, if_neg hstarts]
    have hunit := h.unit
    have hunit_le := h.valid.unit_le
    have hnext_le := h.valid.next_le
    exact .inr ⟨by omega, hout, h, .refl _⟩

/-- A bit-field is taken from where the cursor has it, or the record ends. -/
theorem AtCursor.populateBitField (h : AtCursor r base c l) (hlocal : r.Local) {ty : BaseType}
    (hint : ty.isInteger = true) (width : Nat) (name : Option String)
    (hname : name.isSome = true → 0 < width) (s : AttState) (hout : l.notes.outOfData = false)
    (hroom : base ≤ r.size) :
    Ended r base c (archTypeInfo .noArch ty).size width l (populateBitField r base ty width name s l).2 ∨
      (width = 0 → ¬c.Lacks (archTypeInfo .noArch ty).size width (r.size - base)) ∧
      Stepped r base (c.pastBits (archTypeInfo .noArch ty).size width) l
        (populateBitField r base ty width name s l).2
        (if name.isSome then
          Members.bitPlaces base (c.unitFor (archTypeInfo .noArch ty).size width).pos width
        else []) := by
  have hsize := size_pos .noArch ty
  have hinfo : archTypeInfo r.arch ty =
      ⟨(archTypeInfo .noArch ty).size, (archTypeInfo .noArch ty).size⟩ := by
    rw [hlocal.archTypeInfo]
    exact congrArg (TypeInfo.mk _) (align_of_integer hint)
  generalize (archTypeInfo .noArch ty).size = size at *
  have hbase := h.base_le
  obtain ⟨hnoted, hplaced⟩ := h.noted ty width
  rw [populateBitField_eq]
  by_cases hw : width = 0
  · subst hw
    rw [if_pos rfl]
    have hsome : name.isSome = false := by
      cases hsome : name.isSome with
      | false => rfl
      | true => exact absurd (hname hsome) (Nat.lt_irrefl 0)
    have hend : zeroWidthEnd r base ty l =
        alignDataPtr ((l.noted base ty 0).bfStart + bitsToBytes (l.noted base ty 0).bfOffset) base size := by
      rw [zeroWidthEnd, hinfo]
      rfl
    rw [hend]
    by_cases hlacks : c.Lacks size 0 (r.size - base)
    · have hfull : r.size ≤ alignDataPtr ((l.noted base ty 0).bfStart +
          bitsToBytes (l.noted base ty 0).bfOffset) base size := by
        have hzero := hlacks
        rw [Cursor.Lacks, if_pos rfl] at hzero
        rw [hnoted.folded, alignDataPtr_eq (Nat.le_add_right _ _) hsize, Nat.add_sub_cancel_left]
        omega
      rw [if_pos hfull]
      exact .inl ⟨.inr hlacks, rfl, fun _ => ⟨rfl, rfl⟩, hplaced.after (placed_setNext _)⟩
    · obtain ⟨hat, hplaced'⟩ := hnoted.zeroWidth hsize rfl s hlacks hroom
      rw [hsome]
      exact .inr ⟨fun _ => hlacks, hat, hplaced.after hplaced'⟩
  · rw [if_neg hw]
    have hpast : c.pastBits size width = (c.unitFor size width).taken width := if_neg hw
    have hlacks : c.Lacks size width (r.size - base) =
        (8 * (r.size - base) < (c.unitFor size width).pos + width) := if_neg hw
    rw [hpast]
    dsimp only
    rcases hnoted.storageUnit hinfo hsize width hout hroom with
      ⟨hend, hstart, hplaced'⟩ | ⟨hle, hout', hat, hplaced'⟩
    · have hbytes : 0 <
          bitsToBytes ((Template.storageUnit r base ty width (l.noted base ty width)).bfOffset + width) := by
        unfold bitsToBytes
        omega
      rw [hstart, bytesRemaining_of_le le_rfl, Nat.sub_self, if_pos hbytes]
      refine .inl ⟨.inr ?_, rfl, fun hzero => absurd hzero hw,
        (hplaced.after hplaced').after (placed_setNext _)⟩
      rw [hlacks]
      omega
    · have hfolded : (Template.storageUnit r base ty width (l.noted base ty width)).bfStart +
          bitsToBytes ((Template.storageUnit r base ty width (l.noted base ty width)).bfOffset + width) =
            base + byteEnd ((c.unitFor size width).pos + width) := by
        have hb := hat.base_le
        have hp := hat.bits
        rw [bitsToBytes_eq]
        unfold byteEnd
        omega
      split
      · rename_i hshort
        refine .inl ⟨?_, rfl, fun hzero => absurd hzero hw, (hplaced.after hplaced').after (placed_setNext _)⟩
        refine hle.imp_right fun hle => ?_
        rw [hlacks]
        rw [bytesRemaining_of_le hle] at hshort
        unfold byteEnd at hfolded
        omega
      · obtain ⟨hat', hplaced''⟩ := hat.takeBits ty hw name s hout'
        exact .inr ⟨fun hzero => absurd hzero hw, hat', (hplaced.after hplaced').after hplaced''⟩

end BitFields

end Evlog.Template
