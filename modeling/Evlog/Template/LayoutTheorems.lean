/-
Evlog.Template.LayoutTheorems — an aligned template follows the layout of a
C struct.

`Members.places` says where a C compiler puts the members of a struct. In a
record of the machine itself that is as long as the struct, the attributes
are found there, in all structs and arrays of structs too. Where the struct
has bit-fields, this takes that every one of them is put where it belongs
(`Atts.Follows`).
-/
import Evlog.Template.PositionTheorems

namespace Evlog.Template

open Evlog.Lib Evlog.Posix

/-! ## What is laid out -/

/-- No array of structs is one of structs without a size. -/
def Atts.sized : Atts → Bool
  | .nil => true
  | .field _ _ rest => rest.sized
  | .struct _ _ sub rest => sub.sized && rest.sized
  | .structs _ _ sub _ _ rest => 0 < sub.members.sizeof && sub.sized && rest.sized

/-- Where an attribute that is no struct leaves the loop. -/
def Field.past (f : Field) (c : Cursor) : Cursor :=
  match f with
  | .const => c
  | .scalar ty =>
    .behind (roundUp (byteEnd c.pos) (archTypeInfo .noArch ty).align) ((archTypeInfo .noArch ty).size * 1)
  | .array ty dim _ =>
    .behind (roundUp (byteEnd c.pos) (archTypeInfo .noArch ty).align)
      ((archTypeInfo .noArch ty).size * dim.type.constant)
  | .bitField ty width => c.pastBits (archTypeInfo .noArch ty).size width

/-- The same of all attributes. -/
def Atts.past : Atts → Cursor → Cursor
  | .nil, c => c
  | .field _ f rest, c => rest.past (f.past c)
  | .struct _ _ sub rest, c =>
    rest.past (.behind (roundUp (byteEnd c.pos) sub.members.align) (sub.members.sizeof * 1))
  | .structs _ _ sub dim _ rest, c =>
    rest.past (.behind (roundUp (byteEnd c.pos) sub.members.align)
      (sub.members.sizeof * dim.type.constant))

def Field.Follows (f : Field) (name : Option String) (room : Nat) (c : Cursor) : Prop :=
  match f with
  | .bitField ty width => c.Follows (archTypeInfo .noArch ty).size width room name.isSome
  | _ => True

instance (f : Field) (name : Option String) (room : Nat) (c : Cursor) : Decidable (f.Follows name room c) := by
  unfold Field.Follows
  cases f <;> infer_instance

/-- With `room` bytes from the start of the struct on, all bit-fields are
put where they belong, those of the structs in it too. -/
def Atts.Follows : Atts → Nat → Cursor → Prop
  | .nil, _, _ => True
  | .field name f rest, room, c => f.Follows name room c ∧ rest.Follows room (f.past c)
  | .struct _ _ sub rest, room, c =>
    sub.Follows (room - roundUp (byteEnd c.pos) sub.members.align) .start ∧
      rest.Follows room
        (.behind (roundUp (byteEnd c.pos) sub.members.align) (sub.members.sizeof * 1))
  | .structs _ _ sub dim _ rest, room, c =>
    (∀ k < dim.type.constant,
        sub.Follows (room - (roundUp (byteEnd c.pos) sub.members.align + sub.members.sizeof * k)) .start) ∧
      rest.Follows room
        (.behind (roundUp (byteEnd c.pos) sub.members.align)
          (sub.members.sizeof * dim.type.constant))

instance Atts.decidableFollows : (atts : Atts) → (room : Nat) → (c : Cursor) →
    Decidable (atts.Follows room c)
  | .nil, _, _ => .isTrue trivial
  | .field _ _ rest, room, _ => @instDecidableAnd _ _ inferInstance (decidableFollows rest room _)
  | .struct _ _ sub rest, _, _ =>
    @instDecidableAnd _ _ (decidableFollows sub _ _) (decidableFollows rest _ _)
  | .structs _ _ sub dim _ rest, _, _ =>
    @instDecidableAnd _ _
      (@Nat.decidableBallLT dim.type.constant _ fun _ _ => decidableFollows sub _ _)
      (decidableFollows rest _ _)

def Atts.append : Atts → Atts → Atts
  | .nil, post => post
  | .field name f rest, post => .field name f (rest.append post)
  | .struct name al sub rest, post => .struct name al sub (rest.append post)
  | .structs name al sub dim delim rest, post => .structs name al sub dim delim (rest.append post)

theorem Atts.append_nil (atts : Atts) : atts.append .nil = atts := by
  induction atts with
  | nil => rfl
  | field name f rest ih => exact congrArg (Atts.field name f) ih
  | struct name al sub rest _ ih => exact congrArg (Atts.struct name al sub) ih
  | structs name al sub dim delim rest _ ih => exact congrArg (Atts.structs name al sub dim delim) ih

theorem Atts.append_members (pre post : Atts) (pos : Nat) :
    (pre.append post).members.endBit pos = post.members.endBit (pre.members.endBit pos) := by
  induction pre generalizing pos with
  | nil => rfl
  | field name f rest ih => cases f <;> exact ih _
  | struct name al sub rest _ ih => exact ih _
  | structs name al sub dim delim rest _ ih => exact ih _

theorem Atts.accepted_append {pre post : Atts} (h : (pre.append post).accepted true = true) :
    pre.accepted true = true ∧ post.accepted true = true := by
  induction pre with
  | nil => exact ⟨rfl, h⟩
  | field name f rest ih =>
    rw [Atts.append, Atts.accepted, Bool.and_eq_true] at h
    rw [Atts.accepted, Bool.and_eq_true]
    exact ⟨⟨h.1, (ih h.2).1⟩, (ih h.2).2⟩
  | struct name al sub rest _ ih =>
    rw [Atts.append, Atts.accepted, Bool.and_eq_true] at h
    rw [Atts.accepted, Bool.and_eq_true]
    exact ⟨⟨h.1, (ih h.2).1⟩, (ih h.2).2⟩
  | structs name al sub dim delim rest _ ih =>
    rw [Atts.append, Atts.accepted, Bool.and_eq_true] at h
    rw [Atts.accepted, Bool.and_eq_true]
    exact ⟨⟨h.1, (ih h.2).1⟩, (ih h.2).2⟩

theorem Atts.sized_append {pre post : Atts} (h : (pre.append post).sized = true) : pre.sized = true := by
  induction pre with
  | nil => rfl
  | field name f rest ih => exact ih h
  | struct name al sub rest _ ih =>
    rw [Atts.append, Atts.sized, Bool.and_eq_true] at h
    rw [Atts.sized, Bool.and_eq_true]
    exact ⟨h.1, ih h.2⟩
  | structs name al sub dim delim rest _ ih =>
    rw [Atts.append, Atts.sized, Bool.and_eq_true] at h
    rw [Atts.sized, Bool.and_eq_true]
    exact ⟨h.1, ih h.2⟩

variable {heapAddr : Nat → Nat} {r : Record}

/-- What is put where it belongs leaves the loop where the member ends. -/
theorem Atts.past_pos {atts : Atts} {room : Nat} {c : Cursor} (hacc : atts.accepted true = true)
    (hc : c.Valid) (h : atts.Follows room c) : (atts.past c).pos = atts.members.endBit c.pos := by
  induction atts generalizing c with
  | nil => rfl
  | field name f rest ih =>
    rw [Atts.accepted, Bool.and_eq_true] at hacc
    cases f with
    | const => exact ih hacc.2 hc h.2
    | scalar ty => exact ih hacc.2 (Cursor.valid_behind ..) h.2
    | array ty dim delim => exact ih hacc.2 (Cursor.valid_behind ..) h.2
    | bitField ty width =>
      have hsize := size_pos .noArch ty
      have hbits : c.Follows _ width room name.isSome := h.1
      have hpos := hbits.pastBits_pos hc hsize (Field.accepted_bitField hacc.1).2.1
      have hrest := ih hacc.2 (hc.pastBits hsize width) h.2
      rw [hpos] at hrest
      exact hrest
  | struct name al sub rest _ ih =>
    rw [Atts.accepted, Bool.and_eq_true] at hacc
    exact ih hacc.2 (Cursor.valid_behind ..) h.2
  | structs name al sub dim delim rest _ ih =>
    rw [Atts.accepted, Bool.and_eq_true] at hacc
    exact ih hacc.2 (Cursor.valid_behind ..) h.2

/-! ### What a turn, and the rest, come to -/

/-- The loop has come to the end of the members, or of the record, and all
members were found at their places. -/
structure Laid (r : Record) (base A : Nat) (ms : Members) (pos : Nat) (l : Loop)
    (out : Loop × Flow) : Prop where
  goes : out.2.goes = true
  reached : ∃ q, At r base q out.1 ∧ roundUp (byteEnd q) A = roundUp (byteEnd (ms.endBit pos)) A
  placed : Placed l.notes out.1.notes (ms.places base pos)

/-- A member that goes from one position to another, with these places. -/
structure Headed (head : Members → Members) (base pos pos₁ : Nat) (ps : List Place) : Prop where
  endBit : ∀ ms, (head ms).endBit pos = ms.endBit pos₁
  places : ∀ ms, (head ms).places base pos = ps ++ ms.places base pos₁

/-- The loop is at the end of the record, and might as well be where the
member starts. -/
structure LeftAt (r : Record) (base : Nat) (head : Members → Members) (pos : Nat) (l l' : Loop) :
    Prop where
  reached : ∃ q, At r base q l' ∧ 8 * (r.size - base) ≤ q ∧
    ∀ ms, (head ms).endBit q = (head ms).endBit pos ∧ (head ms).places base q = (head ms).places base pos
  placed : Placed l.notes l'.notes []

/-- The loop goes on with the attributes behind, or the record has ended
before. -/
def Reaches (heapAddr : Nat → Nat) (r : Record) (pre post : Atts) (path : List Nat) (base A : Nat)
    (c : Cursor) (l : Loop) (out : Loop × Flow) : Prop :=
  (Laid r base A (pre.append post).members c.pos l out ∧ 8 * (r.size - base) ≤ pre.members.endBit c.pos) ∨
    ∃ i v l', Stepped r base (pre.past c) l l' (pre.members.places base c.pos) ∧
      out = (populateAtts heapAddr r true post i path base v l').2

section Reaches

variable {α β : Type} {pre pre' post : Atts} {path : List Nat} {base A : Nat} {c c₁ : Cursor} {l l₁ : Loop}
  {ps : List Place} {head : Members → Members} {out : Loop × Flow}

theorem andThen_next {rest : Loop → β × Loop × Flow} {v : β} {turn : α × Loop × Flow}
    (h : turn.2.2 = .next) : (andThen rest v turn).2 = (rest turn.2.1).2 := by
  obtain ⟨st, l, flow⟩ := turn
  dsimp only at h
  subst h
  rfl

theorem andThen_leave {rest : Loop → β × Loop × Flow} {v : β} {turn : α × Loop × Flow}
    (h : turn.2.2 = .leave) : (andThen rest v turn).2 = turn.2 := by
  obtain ⟨st, l, flow⟩ := turn
  dsimp only at h
  subst h
  rfl

theorem Stepped.reaches (hstep : Stepped r base c₁ l l₁ ps) (hpre : pre.members = head pre'.members)
    (hall : (pre.append post).members = head (pre'.append post).members)
    (hpast : pre.past c = pre'.past c₁) (hhead : Headed head base c.pos c₁.pos ps)
    (h : Reaches heapAddr r pre' post path base A c₁ l₁ out) :
    Reaches heapAddr r pre post path base A c l out := by
  rcases h with ⟨⟨hgoes, ⟨q, hat, hq⟩, hplaced⟩, hfull⟩ | ⟨i, v, l', hstep', hout⟩
  · refine .inl ⟨⟨hgoes, ⟨q, hat, ?_⟩, ?_⟩, ?_⟩
    · rw [hall, hhead.endBit]
      exact hq
    · rw [hall, hhead.places]
      exact hstep.placed.trans hplaced
    · rw [hpre, hhead.endBit]
      exact hfull
  · refine .inr ⟨i, v, l', ⟨?_, ?_⟩, hout⟩
    · rw [hpast]
      exact hstep'.reached
    · rw [hpre, hhead.places]
      exact hstep.placed.trans hstep'.placed

theorem LeftAt.reaches (h : LeftAt r base head c.pos l out.1) (hleave : out.2 = .leave)
    (hpre : pre.members = head pre'.members)
    (hall : (pre.append post).members = head (pre'.append post).members)
    (hwfPre : pre.members.WellFormed) (hwf : (pre.append post).members.WellFormed) (hA : 0 < A)
    (hfits : base + roundUp (byteEnd ((pre.append post).members.endBit c.pos)) A ≤ r.size) :
    Reaches heapAddr r pre post path base A c l out := by
  obtain ⟨q, hat, hq, hsame⟩ := h.reached
  have hle := Members.le_endBit hwf q
  have hlePre := Members.le_endBit hwfPre q
  have hbyte := le_byteEnd ((pre.append post).members.endBit q)
  have hup := le_roundUp hA (byteEnd ((pre.append post).members.endBit q))
  have hend : (pre.append post).members.endBit q = (pre.append post).members.endBit c.pos := by
    rw [hall]
    exact (hsame _).1
  have hendPre : pre.members.endBit q = pre.members.endBit c.pos := by
    rw [hpre]
    exact (hsame _).1
  rw [← hend] at hfits
  have heq : (pre.append post).members.endBit q = q := by omega
  refine .inl ⟨⟨by rw [hleave]; rfl, ⟨q, hat, by rw [← hend, heq]⟩, ?_⟩, by omega⟩
  have hplaces : (pre.append post).members.places base c.pos = [] := by
    rw [← Members.places_nil hwf heq.le, hall]
    exact (hsame _).2.symm
  rw [hplaces]
  exact h.placed

end Reaches

/-! ## One attribute -/

section Turns

variable {base pos : Nat} {l : Loop}

/-- The turn of an attribute ends where it has taken its bytes. -/
theorem NextAt.turnEnd {n₀ : Notes} {q size : Nat} {ps : List Place} (h₀ : NextAt r (base + q) n₀)
    (l : Loop) (hplaced : Placed l.notes n₀ []) (name : Option String) (ty : BaseType)
    {out : AttState × Notes × Flow} (hnext : out.2.2 = .next) (h : NextAt r (base + (q + size)) out.2.1)
    (hout : Placed n₀ out.2.1 ps) :
    (turnEnd true name ty (l.started n₀) out).2.2 = .next ∧
      Stepped r base (.behind q size) l (turnEnd true name ty (l.started n₀) out).2.1 ps := by
  obtain ⟨s, n, flow⟩ := out
  dsimp only at hnext
  subst hnext
  refine ⟨rfl, (h.nextAttr h₀ l).found name ty s, ?_⟩
  dsimp only [Template.turnEnd]
  rw [found_notes, nextAttr_notes]
  exact hplaced.after hout

variable {ty : BaseType}

theorem At.populateField_scalar (h : At r base pos l) (heapAddr : Nat → Nat) (hlocal : r.Local)
    (owner : List Nat) (name : Option String) (hty : ty.isScalar = true) (s : AttState)
    (hfits : base + (roundUp (byteEnd pos) (archTypeInfo .noArch ty).align +
      (archTypeInfo .noArch ty).size * 1) ≤ r.size) :
    (populateField heapAddr r owner true base name (.scalar ty) s l).2.2 = .next ∧
      Stepped r base (.behind (roundUp (byteEnd pos) (archTypeInfo .noArch ty).align)
          ((archTypeInfo .noArch ty).size * 1)) l
        (populateField heapAddr r owner true base name (.scalar ty) s l).2.1
        [.bytes (base + roundUp (byteEnd pos) (archTypeInfo .noArch ty).align)
          ((archTypeInfo .noArch ty).size * 1)] := by
  have hsize := size_pos .noArch ty
  have ha := align_pos_of_scalar hty
  obtain ⟨hnext₀, hplaced₀⟩ := h.startsAt ha (by omega)
  rw [Nat.mul_one] at *
  rw [Template.populateField_scalar, hlocal.archTypeInfo]
  rcases h.startAtt ha (by omega) with ⟨hfull, -⟩ | ⟨-, hout, heq⟩
  · omega
  · rw [heq]
    obtain ⟨hnext, hat, hplaced⟩ := populateValue_layout hlocal owner hty
      { s with rawdata := .data (r.addr + (startNotes r true base (archTypeInfo .noArch ty).align l).next) }
      hnext₀ hout (by omega)
    rw [Nat.add_assoc] at hat
    exact hnext₀.turnEnd l hplaced₀ name ty hnext hat hplaced

theorem At.populateField_array (h : At r base pos l) (heapAddr : Nat → Nat) (hlocal : r.Local)
    (owner : List Nat) (name : Option String) (hty : ty.isScalar = true) {dim : Dimension}
    {nel : Nat} (hdim : dim.type = .const nel) (hpos : 0 < nel) (hmax : nel ≤ intMax)
    (delim : Option Delimiter) (s : AttState)
    (hfits : base + (roundUp (byteEnd pos) (archTypeInfo .noArch ty).align +
      (archTypeInfo .noArch ty).size * nel) ≤ r.size) :
    (populateField heapAddr r owner true base name (.array ty dim delim) s l).2.2 = .next ∧
      Stepped r base (.behind (roundUp (byteEnd pos) (archTypeInfo .noArch ty).align)
          ((archTypeInfo .noArch ty).size * nel)) l
        (populateField heapAddr r owner true base name (.array ty dim delim) s l).2.1
        [.bytes (base + roundUp (byteEnd pos) (archTypeInfo .noArch ty).align)
          ((archTypeInfo .noArch ty).size * nel)] := by
  have hsize := Nat.mul_pos (size_pos .noArch ty) hpos
  have ha := align_pos_of_scalar hty
  obtain ⟨hnext₀, hplaced₀⟩ := h.startsAt ha (by omega)
  rw [Template.populateField_array, hlocal.archTypeInfo]
  rcases h.startAtt ha (by omega) with ⟨hfull, -⟩ | ⟨-, hout, heq⟩
  · omega
  · rw [heq]
    obtain ⟨hnext, hat, hplaced⟩ := populateArray_layout hlocal heapAddr owner hty hdim hpos hmax
      delim l.env
      { s with rawdata := .data (r.addr + (startNotes r true base (archTypeInfo .noArch ty).align l).next) }
      hnext₀ hout (by omega)
    rw [Nat.add_assoc] at hat
    exact hnext₀.turnEnd l hplaced₀ name ty hnext hat hplaced

/-- The turn of a bit-field comes at the end of the record, or takes it there,
or goes on where the cursor has it. -/
theorem AtCursor.populateField_bits {c : Cursor} (h : AtCursor r base c l) (heapAddr : Nat → Nat)
    (hlocal : r.Local) (owner : List Nat) {name : Option String} {width : Nat}
    (hf : Field.accepted true name (.bitField ty width) = true) (s : AttState) (hroom : base ≤ r.size) :
    ((populateField heapAddr r owner true base name (.bitField ty width) s l).2.2 = .leave ∧
        (r.size < l.notes.next ∨ l.notes.next = r.size) ∧
        (populateField heapAddr r owner true base name (.bitField ty width) s l).2.1 =
          { l with notes := l.notes.out }) ∨
      ((populateField heapAddr r owner true base name (.bitField ty width) s l).2.2 = .next ∧
        Ended r base c (archTypeInfo .noArch ty).size width l
          (populateField heapAddr r owner true base name (.bitField ty width) s l).2.1) ∨
      ((populateField heapAddr r owner true base name (.bitField ty width) s l).2.2 = .next ∧
        (width = 0 → ¬c.Lacks (archTypeInfo .noArch ty).size width (r.size - base)) ∧
        Stepped r base (c.pastBits (archTypeInfo .noArch ty).size width) l
          (populateField heapAddr r owner true base name (.bitField ty width) s l).2.1
          (if name.isSome then
            Members.bitPlaces base (c.unitFor (archTypeInfo .noArch ty).size width).pos width
          else [])) := by
  obtain ⟨hint, -, hname⟩ := Field.accepted_bitField hf
  unfold Template.populateField
  dsimp only
  rw [startAtt_none]
  by_cases hleft : bytesRemaining r l.notes.next = 0
  · rw [if_pos hleft]
    refine .inl ⟨rfl, ?_, rfl⟩
    rcases Nat.lt_or_ge r.size l.notes.next with hlt | hge
    · exact .inl hlt
    · rw [bytesRemaining_of_le hge] at hleft
      omega
  · rw [if_neg hleft]
    cases hout : l.notes.outOfData with
    | true =>
      rw [h.out hout, bytesRemaining_of_le le_rfl, Nat.sub_self] at hleft
      exact absurd rfl hleft
    | false =>
      dsimp only
      rcases h.populateBitField hlocal hint width name hname
        { s with rawdata := .data (r.addr + l.notes.next) } hout hroom with
        ⟨hlacks, hend, hunit, hplaced⟩ | ⟨hzero, hat, hplaced⟩
      · refine .inr (.inl ⟨rfl, hlacks, ?_, ?_, ?_⟩)
        · rw [found_notes]
          exact hend
        · rw [found_bfStart, found_bfOffset]
          exact hunit
        · rw [found_notes]
          exact hplaced
      · exact .inr (.inr ⟨rfl, hzero, hat.found .., by rw [found_notes]; exact hplaced⟩)

end Turns

/-! ## Structs -/

/-- The loop over the attributes follows the layout of their members. -/
def LaysOut (heapAddr : Nat → Nat) (r : Record) (atts : Atts) : Prop :=
  ∀ (i : Nat) (path : List Nat) (v : Vals atts) (base A : Nat) (c : Cursor) (l : Loop),
    AtCursor r base c l → 0 < A → base + roundUp (byteEnd (atts.members.endBit c.pos)) A ≤ r.size →
    atts.Follows (r.size - base) c →
    Laid r base A atts.members c.pos l (populateAtts heapAddr r true atts i path base v l).2

structure StructAt {α : Type} (r : Record) (ms : Members) (p : Nat) (n : Notes)
    (out : CloneOf α × Notes × Env × Flow) : Prop where
  goes : out.2.2.2 = .next
  next : NextAt r (p + ms.sizeof) out.2.1
  placed : Placed n out.2.1 (ms.places p 0)
  dataSize : out.1.dataSize = ms.sizeof

variable {atts sub : Atts}

theorem minSize_le_align (h : atts.accepted true = true) : atts.minSize ≤ atts.members.align := by
  induction atts with
  | nil => exact Nat.zero_le _
  | field name f rest ih =>
    rw [Atts.accepted, Bool.and_eq_true] at h
    have hrest := ih h.2
    cases f with
    | const => exact hrest
    | scalar ty => exact hrest.trans (le_max_right _ _)
    | array ty dim delim => exact hrest.trans (le_max_right _ _)
    | bitField ty width =>
      cases name with
      | none => exact hrest
      | some name => exact max_le_max le_rfl hrest
  | struct name al sub rest _ ih =>
    rw [Atts.accepted, Bool.and_eq_true] at h
    exact (ih h.2).trans (le_max_right _ _)
  | structs name al sub dim delim rest _ ih =>
    rw [Atts.accepted, Bool.and_eq_true] at h
    exact (ih h.2).trans (le_max_right _ _)

theorem endBit_pos_of_minSize (h : atts.accepted true = true) (hmin : 0 < atts.minSize) (pos : Nat) :
    0 < atts.members.endBit pos := by
  induction atts generalizing pos with
  | nil => cases hmin
  | field name f rest ih =>
    rw [Atts.accepted, Bool.and_eq_true] at h
    cases f with
    | const => exact ih h.2 hmin _
    | scalar ty => exact ih h.2 hmin _
    | array ty dim delim => exact ih h.2 hmin _
    | bitField ty width =>
      cases name with
      | none => exact ih h.2 hmin _
      | some name =>
        have hwidth := (Field.accepted_bitField h.1).2.2 rfl
        have hle := Members.le_endBit (Atts.members_wellFormed h.2)
          (Members.bitStart (archTypeInfo .noArch ty).size width pos + width)
        exact lt_of_lt_of_le (by omega) hle
  | struct name al sub rest _ ih =>
    rw [Atts.accepted, Bool.and_eq_true] at h
    exact ih h.2 hmin _
  | structs name al sub dim delim rest _ ih =>
    rw [Atts.accepted, Bool.and_eq_true] at h
    exact ih h.2 hmin _

/-- `enforceMinSize` has nothing to do. -/
theorem minSize_le_sizeof (h : atts.accepted true = true) : atts.minSize ≤ atts.members.sizeof := by
  rcases Nat.eq_zero_or_pos atts.minSize with hzero | hpos
  · omega
  · exact Members.le_sizeof _ (endBit_pos_of_minSize h hpos 0) (minSize_le_align h)

variable {base q p nel pos : Nat} {l : Loop}

theorem NextAt.atStart {n : Notes} (h : NextAt r n.next n) :
    AtCursor r n.next .start ⟨n, n.next, 0, []⟩ := by
  refine ⟨⟨le_rfl, ?_, le_rfl, ?_, h.out⟩, ⟨le_rfl, le_rfl⟩, rfl, fun _ => rfl⟩
  · dsimp only [Cursor.start]
    omega
  · dsimp only [Cursor.start]
    omega

theorem finishTmpl_layout {ms : Members} {minSize : Nat} (h : At r base q l)
    (hq : roundUp (byteEnd q) ms.align = ms.sizeof) (hmin : minSize ≤ ms.sizeof)
    (hfits : base + ms.sizeof ≤ r.size) :
    NextAt r (base + ms.sizeof) (finishTmpl r base ms.align minSize l) ∧
      Placed l.notes (finishTmpl r base ms.align minSize l) [] := by
  have hle := le_roundUp ms.align_pos (byteEnd q)
  have hadjust := h.adjust (by omega)
  rw [← hq] at hfits hmin ⊢
  obtain ⟨hnext, hplaced⟩ := hadjust.align ms.align_pos hfits
  have hp := hnext.next
  unfold finishTmpl enforceMinSize
  rw [if_neg (by omega)]
  exact ⟨hnext, (placed_setNext _).after hplaced⟩

theorem LaysOut.populateStruct (hsub : LaysOut heapAddr r sub) (hacc : sub.accepted true = true)
    (path : List Nat) (c : CloneOf (Vals sub)) {n : Notes} (h : NextAt r p n)
    (hfits : p + sub.members.sizeof ≤ r.size) (hfollow : sub.Follows (r.size - p) .start) :
    StructAt r sub.members p n (populateStruct heapAddr r true sub path c n) := by
  have hnext := h.next
  subst hnext
  have hlaid := hsub 0 path c.atts n.next sub.members.align .start ⟨n, n.next, 0, []⟩ h.atStart
    sub.members.align_pos hfits hfollow
  have halign : tmAlignment true sub = sub.members.align := Atts.tmplAlign_eq hacc
  unfold Template.populateStruct
  rw [halign, populateTmpl_goes hlaid.goes]
  obtain ⟨q, hq, heq⟩ := hlaid.reached
  obtain ⟨hend, hplaced⟩ := finishTmpl_layout hq heq (minSize_le_sizeof hacc) hfits
  refine ⟨rfl, hend, hlaid.placed.before hplaced, ?_⟩
  dsimp only [endNotes]
  rw [if_pos rfl, hend.next]
  omega

theorem StructAt.structEnd {n₀ : Notes} (name : String) (s : AttState)
    {out : CloneOf (Vals sub) × Notes × Env × Flow} (h : StructAt r sub.members (base + q) n₀ out)
    (h₀ : NextAt r (base + q) n₀) (hplaced : Placed l.notes n₀ []) :
    (structEnd true name s (l.started n₀) out).2.2 = .next ∧
      Stepped r base (.behind q (sub.members.sizeof * 1)) l
        (structEnd true name s (l.started n₀) out).2.1
        (sub.members.places (base + q) 0 ++
          if 0 < sub.members.sizeof then [.struct (base + q) sub.members.sizeof] else []) := by
  obtain ⟨c, n, env, flow⟩ := out
  obtain ⟨hgoes, hnext, hstruct, hsize⟩ := h
  dsimp only at hgoes hnext hstruct hsize
  subst hgoes
  rw [Nat.mul_one]
  rw [Nat.add_assoc] at hnext
  refine ⟨rfl, ?_⟩
  dsimp only [Template.structEnd]
  have hend := hnext.nextAttr h₀ l
  unfold setStruct
  rw [hsize]
  have hp : n.next - sub.members.sizeof = base + q := by
    have := hnext.next
    omega
  split
  · dsimp only
    rw [hp]
    refine ⟨?_, ?_⟩
    · have hemit : NextAt r (base + (q + sub.members.sizeof))
          (n.emit (.struct (base + q) sub.members.sizeof)) := ⟨hnext.next, hnext.le, hnext.out⟩
      exact (hemit.nextAttr h₀ l).of_bf rfl rfl rfl
    · rw [nextAttr_notes]
      exact hplaced.after (hstruct.trans (placed_emit (.struct _ _)))
  · refine ⟨hend, ?_⟩
    dsimp only
    rw [nextAttr_notes, List.append_nil]
    exact hplaced.after hstruct

/-! ### Arrays of structs -/

theorem LaysOut.populateArrayOfStructs (hsub : LaysOut heapAddr r sub)
    (hacc : sub.accepted true = true) (hsize : 0 < sub.members.sizeof) (path : List Nat)
    (nel ns : Nat) {n : Notes} (h : NextAt r p n) (hfits : p + sub.members.sizeof * nel ≤ r.size)
    (hfollow : ∀ k < nel, sub.Follows (r.size - (p + sub.members.sizeof * k)) .start) :
    ∃ list n', populateArrayOfStructs
        (fun ns n => Template.populateStruct heapAddr r true sub (ns :: path) (cloneTemplate sub) n)
        (freeStruct sub path) nel ns n = (list, n', .next) ∧
      list.length = nel ∧ NextAt r (p + sub.members.sizeof * nel) n' ∧
      Placed n n' ((List.range nel).flatMap fun k =>
        sub.members.places (p + sub.members.sizeof * k) 0) := by
  induction nel generalizing ns p n with
  | zero => exact ⟨[], n, rfl, rfl, h, .refl n⟩
  | succ nel ih =>
    rw [Nat.mul_succ] at hfits
    obtain ⟨hgoes, hnext, hplaced, hdata⟩ :=
      hsub.populateStruct hacc (ns :: path) (cloneTemplate sub) h (by omega)
        (hfollow 0 (Nat.zero_lt_succ nel))
    have hfollow' (k : Nat) (hk : k < nel) :
        sub.Follows (r.size - (p + sub.members.sizeof + sub.members.sizeof * k)) .start := by
      have hnth := hfollow (k + 1) (Nat.succ_lt_succ hk)
      rwa [Nat.mul_succ, Nat.add_comm (_ * k), ← Nat.add_assoc] at hnth
    have hplaces : ((List.range (nel + 1)).flatMap fun k =>
        sub.members.places (p + sub.members.sizeof * k) 0) =
        sub.members.places p 0 ++ (List.range nel).flatMap fun k =>
          sub.members.places (p + sub.members.sizeof + sub.members.sizeof * k) 0 := by
      rw [List.range_succ_eq_map, List.flatMap_cons, List.flatMap_map]
      simp only [Nat.mul_zero, Nat.add_zero, Nat.mul_succ, Nat.add_assoc, Nat.add_comm]
    have hne := hsize.ne'
    rw [← hdata] at hne
    rw [populateArrayOfStructs_goes (by rw [hgoes]; rfl), if_neg hne, hplaces]
    split
    · rename_i hfull
      have hsize' := hnext.out hfull
      have hnel : nel = 0 := by
        rcases Nat.eq_zero_or_pos nel with hzero | hpos
        · exact hzero
        · have := Nat.mul_pos hsize hpos
          omega
      subst hnel
      rw [Nat.zero_add, Nat.mul_one]
      exact ⟨_, _, rfl, rfl, hnext, by simpa using hplaced⟩
    · rename_i hfull
      obtain ⟨list, n', heq, hlength, hnext', hplaced'⟩ :=
        ih (ns + 1) hnext (by omega) hfollow'
      rw [heq]
      refine ⟨_, _, rfl, congrArg (· + 1) hlength, ?_, hplaced.trans hplaced'⟩
      rwa [Nat.mul_succ, Nat.add_comm (_ * nel), ← Nat.add_assoc]

theorem structsExpected_const {dim : Dimension} (hdim : dim.type = .const nel) (hmax : nel ≤ intMax)
    (delim : Option Delimiter) (env : Env) (s : AttState) (n : Notes) :
    structsExpected heapAddr r dim delim env s n =
      ((populateDelimiter env delim s n).1, (populateDelimiter env delim s n).2, some (nel : Int)) := by
  unfold structsExpected
  rw [hdim]
  dsimp only [DimType.value]
  rw [Option.map_some, toInt_toLong hmax]

/-- The turn of an array of structs ends where the last one ends. -/
theorem LaysOut.structsTurn (hsub : LaysOut heapAddr r sub) (hacc : sub.accepted true = true)
    (hsize : 0 < sub.members.sizeof) {dim : Dimension} (hdim : dim.type = .const nel)
    (hpos : 0 < nel) (hmax : nel ≤ intMax) (delim : Option Delimiter) (path : List Nat)
    (s : AttState) (list : List (CloneOf (Vals sub))) {n₀ : Notes} (h₀ : NextAt r (base + q) n₀)
    (hplaced : Placed l.notes n₀ []) (hfits : base + (q + sub.members.sizeof * nel) ≤ r.size)
    (hfollow : ∀ k < nel, sub.Follows (r.size - (base + q + sub.members.sizeof * k)) .start) :
    (structsTurn heapAddr r true true sub dim delim path s list (l.started n₀)).2.2 = .next ∧
      Stepped r base (.behind q (sub.members.sizeof * nel)) l
        (structsTurn heapAddr r true true sub dim delim path s list (l.started n₀)).2.1
        (((List.range nel).flatMap fun k =>
            sub.members.places (base + q + sub.members.sizeof * k) 0) ++
          if 0 < sub.members.sizeof * nel then
            [.struct (base + q) (sub.members.sizeof * nel)] else []) := by
  have hn₁ : NextAt r (base + q) (populateDelimiter l.env delim s n₀).2 :=
    ⟨by rw [populateDelimiter_next, h₀.next], h₀.le, by rw [populateDelimiter_outOfData]; exact h₀.out⟩
  have hplaced₁ : Placed n₀ (populateDelimiter l.env delim s n₀).2 [] :=
    .of_eq (populateDelimiter_log ..)
  have hatt : ¬(dim.type.fromAtt = true ∧ (nel : Int) ≤ 0) := by
    rw [hdim]
    exact fun h => Bool.false_ne_true h.1
  unfold Template.structsTurn
  rw [structsExpected_const hdim hmax]
  dsimp only [Loop.started]
  generalize populateDelimiter l.env delim s n₀ = out at hn₁ hplaced₁ ⊢
  obtain ⟨s₁, n₁⟩ := out
  dsimp only at hn₁ hplaced₁ ⊢
  rw [if_neg hatt, Int.toNat_natCast]
  obtain ⟨list', n₂, heq, hlength, hn₂, hplaced₂⟩ :=
    hsub.populateArrayOfStructs hacc hsize path nel 0 hn₁ (by omega) hfollow
  rw [heq]
  dsimp only
  rw [hlength]
  rw [Nat.add_assoc] at hn₂
  have hcount := Nat.mul_pos hsize hpos
  have hsetList : NextAt r (base + (q + sub.members.sizeof * nel)) (setList dim n₀.next nel s₁ n₂).2 ∧
      Placed n₂ (setList dim n₀.next nel s₁ n₂).2 [.struct (base + q) (sub.members.sizeof * nel)] := by
    unfold setList
    rw [if_pos hpos]
    have hstruct : (setDimension2 dim nel s₁ n₂).2.next - n₀.next = sub.members.sizeof * nel := by
      rw [setDimension2_next, hn₂.next, h₀.next]
      omega
    dsimp only
    rw [hstruct, h₀.next]
    refine ⟨⟨?_, hfits, ?_⟩, ?_⟩
    · rw [emit_next, setDimension2_next, hn₂.next]
    · rw [emit_outOfData, setDimension2_outOfData]
      exact hn₂.out
    · exact (Placed.of_eq (setDimension2_log ..)).after (placed_emit (.struct _ _))
  refine ⟨rfl, ?_, ?_⟩
  · exact hsetList.1.nextAttr h₀ l
  · rw [nextAttr_notes, if_pos hcount]
    exact (hplaced.after hplaced₁).after (hplaced₂.trans hsetList.2)

/-! ## All attributes -/

theorem fits_of_le {ms : Members} {pos₁ A : Nat} (hwf : ms.WellFormed) (hA : 0 < A)
    (hfits : base + roundUp (byteEnd (ms.endBit pos₁)) A ≤ r.size) (hpos : pos ≤ pos₁) :
    base + byteEnd pos ≤ r.size := by
  have hle := byteEnd_mono (hpos.trans (Members.le_endBit hwf pos₁))
  have hup := le_roundUp hA (byteEnd (ms.endBit pos₁))
  omega

/-- The loop is left at the end of the record, where a struct would start. -/
theorem leftAt_struct {sub : Members} {count : Nat} {l' : Loop}
    (hat : At r base (8 * roundUp (byteEnd pos) sub.align) l')
    (hfull : base + roundUp (byteEnd pos) sub.align = r.size) (hplaced : Placed l.notes l'.notes []) :
    LeftAt r base (.struct sub count) pos l l' := by
  have hround : roundUp (byteEnd (8 * roundUp (byteEnd pos) sub.align)) sub.align =
      roundUp (byteEnd pos) sub.align := by
    rw [byteEnd_bytes, roundUp_of_dvd sub.align_pos (dvd_roundUp _ _)]
  refine ⟨⟨_, hat, by omega, fun ms => ⟨?_, ?_⟩⟩, hplaced⟩
  · simp only [Members.endBit, hround]
  · simp only [Members.places, hround]

/-- Attributes at the end of the members, before some others. -/
def Leads (heapAddr : Nat → Nat) (r : Record) (pre post : Atts) : Prop :=
  ∀ (i : Nat) (path : List Nat) (v : Vals (pre.append post)) (base A : Nat) (c : Cursor) (l : Loop),
    AtCursor r base c l → 0 < A →
    base + roundUp (byteEnd ((pre.append post).members.endBit c.pos)) A ≤ r.size →
    pre.Follows (r.size - base) c →
    Reaches heapAddr r pre post path base A c l
      (populateAtts heapAddr r true (pre.append post) i path base v l).2

theorem Leads.laysOut (h : Leads heapAddr r atts .nil) (hacc : atts.accepted true = true) :
    LaysOut heapAddr r atts := by
  have hnil : LaysOut heapAddr r (atts.append .nil) := by
    intro i path v base A c l hat hA hfits hfollow
    rw [Atts.append_nil] at hfollow
    rcases h i path v base A c l hat hA hfits hfollow with ⟨hlaid, -⟩ | ⟨j, u, l', hstep, hout⟩
    · exact hlaid
    · have hat' := hstep.reached.toAt
      rw [Atts.past_pos hacc hat.valid hfollow] at hat'
      rw [hout, Atts.append_nil]
      exact ⟨rfl, ⟨_, hat', rfl⟩, hstep.placed⟩
  rwa [Atts.append_nil] at hnil

/-- The loop over the attributes follows the layout of a C struct,
whatever the members are, and however structs are nested. -/
theorem leads (heapAddr : Nat → Nat) (hlocal : r.Local) {pre post : Atts}
    (hacc : (pre.append post).accepted true = true) (hsized : pre.sized = true) :
    Leads heapAddr r pre post := by
  have hnil {sub : Atts} (h : sub.accepted true = true) : (sub.append .nil).accepted true = true := by
    rwa [Atts.append_nil]
  induction pre generalizing post with
  | nil => exact fun i path v base A c l hat _ _ _ => .inr ⟨i, v, l, ⟨hat, .refl _⟩, rfl⟩
  | field name f rest ih =>
    intro i path (v : Vals (.field name f (rest.append post))) base A c l hat hA hfits hfollow
    have hwf := Atts.members_wellFormed hacc
    have hwfPre := Atts.members_wellFormed (Atts.accepted_append hacc).1
    rw [Atts.append, Atts.accepted, Bool.and_eq_true] at hacc
    obtain ⟨hf, hrest⟩ := hacc
    have hwfRest := Atts.members_wellFormed hrest
    have hih := ih hrest hsized (i + 1) path v.2 base A
    change Reaches heapAddr r _ post path base A c l
      (populateAtts heapAddr r true (.field name f (rest.append post)) i path base v l).2
    rw [populateAtts_field]
    cases f with
    | const => exact hih c l hat hA hfits hfollow.2
    | scalar ty =>
      have hplace := fits_of_le hwfRest hA hfits le_rfl
      rw [byteEnd_bytes] at hplace
      obtain ⟨hnext, hstep⟩ := hat.toAt.populateField_scalar heapAddr hlocal (i :: path) name
        (Field.accepted_scalar hf) v.1 hplace
      rw [andThen_next hnext]
      exact hstep.reaches rfl rfl rfl ⟨fun _ => rfl, fun _ => rfl⟩
        (hih _ _ hstep.reached hA hfits hfollow.2)
    | array ty dim delim =>
      obtain ⟨hty, hdim⟩ := Field.accepted_array hf
      obtain ⟨hnel, hpos, hmax⟩ := constant_of_accepted hdim
      have hplace := fits_of_le hwfRest hA hfits le_rfl
      rw [byteEnd_bytes] at hplace
      obtain ⟨hnext, hstep⟩ := hat.toAt.populateField_array heapAddr hlocal (i :: path) name hty hnel
        hpos hmax delim v.1 hplace
      rw [andThen_next hnext]
      exact hstep.reaches rfl rfl rfl ⟨fun _ => rfl, fun _ => rfl⟩
        (hih _ _ hstep.reached hA hfits hfollow.2)
    | bitField ty width =>
      have hbits : c.Follows _ width (r.size - base) name.isSome := hfollow.1
      have hsize := size_pos .noArch ty
      have hplace := fits_of_le hwfRest hA hfits le_rfl
      have hstart := Members.le_bitStart hsize width c.pos
      have hbyte := byteEnd_mono (hstart.trans (Nat.le_add_right _ width))
      have hend := le_byteEnd (Members.bitStart (archTypeInfo .noArch ty).size width c.pos + width)
      have hpast := hbits.pastBits_pos hat.valid hsize (Field.accepted_bitField hf).2.1
      have hnext_le := hat.next
      rcases hat.populateField_bits heapAddr hlocal (i :: path) hf v.1 (by omega) with
        ⟨hleave, hfull, hout⟩ | ⟨-, hended⟩ | ⟨hnext, -, hstep⟩
      · rw [andThen_leave hleave]
        have hat' : At r base c.pos { l with notes := l.notes.out } :=
          ⟨hat.base_le, hat.bits, hat.le_next, hat.next, fun _ => by dsimp only [out_next]; omega⟩
        have hleft : LeftAt r base (.bits (archTypeInfo .noArch ty).size width name.isSome) c.pos l
            { l with notes := l.notes.out } :=
          ⟨⟨c.pos, hat', by omega, fun _ => ⟨rfl, rfl⟩⟩, .of_eq rfl⟩
        rw [← hout] at hleft
        exact hleft.reaches hleave rfl rfl hwfPre hwf hA hfits
      · rcases hended.lacks with hpast | hlacks
        · omega
        · exact absurd hlacks (hbits.not_lacks hsize (by omega))
      · rw [andThen_next hnext]
        obtain ⟨-, hwidth, hname⟩ := Field.accepted_bitField hf
        rw [hbits.places hat.valid hsize hwidth hname] at hstep
        refine hstep.reaches rfl rfl rfl ⟨fun ms => ?_, fun ms => ?_⟩
          (hih _ _ hstep.reached hA (by rw [hpast]; exact hfits) hfollow.2)
        · rw [hpast]
          rfl
        · rw [hpast]
          rfl
  | struct name al sub rest ihsub ihrest =>
    intro i path (v : Vals (.struct name al sub (rest.append post))) base A c l hat hA hfits hfollow
    have hwf := Atts.members_wellFormed hacc
    have hwfPre := Atts.members_wellFormed (Atts.accepted_append hacc).1
    simp only [Atts.append, Atts.accepted, Bool.not_true, Bool.or_false, Bool.and_eq_true] at hacc
    obtain ⟨⟨rfl, hsub⟩, hrest⟩ := hacc
    rw [Atts.sized, Bool.and_eq_true] at hsized
    obtain ⟨hfollowSub, hfollow⟩ := hfollow
    have hplace := fits_of_le (Atts.members_wellFormed hrest) hA hfits le_rfl
    rw [byteEnd_bytes] at hplace
    change base + (_ + sub.members.sizeof * 1) ≤ r.size at hplace
    have halign : tmAlignment true sub = sub.members.align := Atts.tmplAlign_eq hsub
    change Reaches heapAddr r _ post path base A c l
      (populateAtts heapAddr r true (.struct name true sub (rest.append post)) i path base v l).2
    rw [populateAtts_struct, halign]
    have hpos := sub.members.align_pos
    rcases hat.toAt.startAtt hpos (by omega) with ⟨hfull, l', heq, hat', hplaced⟩ | ⟨-, hout, heq⟩
    · rw [heq]
      exact (leftAt_struct hat' hfull hplaced).reaches rfl rfl rfl hwfPre hwf hA hfits
    · obtain ⟨hnext₀, hplaced₀⟩ := hat.toAt.startsAt hpos (by omega)
      rw [heq]
      have hlays := (ihsub (hnil hsub) hsized.1).laysOut hsub
      have hstruct := hlays.populateStruct hsub (i :: path)
        (v.1.2.getD (cloneTemplate sub)) hnext₀ (by omega) (by rw [Nat.sub_add_eq]; exact hfollowSub)
      obtain ⟨hnext, hstep⟩ := hstruct.structEnd name _ hnext₀ hplaced₀
      dsimp only [Loop.started_notes]
      rw [andThen_next hnext]
      exact hstep.reaches rfl rfl rfl ⟨fun _ => rfl, fun ms => Members.places_struct_one ..⟩
        (ihrest hrest hsized.2 _ _ _ base A _ _ hstep.reached hA hfits hfollow)
  | structs name al sub dim delim rest ihsub ihrest =>
    intro i path (v : Vals (.structs name al sub dim delim (rest.append post))) base A c l hat hA hfits
      hfollow
    have hwf := Atts.members_wellFormed hacc
    have hwfPre := Atts.members_wellFormed (Atts.accepted_append hacc).1
    simp only [Atts.append, Atts.accepted, Bool.not_true, Bool.or_false, Bool.and_eq_true] at hacc
    obtain ⟨⟨⟨rfl, hsub⟩, hdim⟩, hrest⟩ := hacc
    obtain ⟨hnel, hnelpos, hmax⟩ := constant_of_accepted hdim
    simp only [Atts.sized, Bool.and_eq_true, decide_eq_true_eq] at hsized
    obtain ⟨⟨hsize, hsubsized⟩, hrestsized⟩ := hsized
    obtain ⟨hfollowSub, hfollow⟩ := hfollow
    have hplace := fits_of_le (Atts.members_wellFormed hrest) hA hfits le_rfl
    rw [byteEnd_bytes] at hplace
    change base + (_ + sub.members.sizeof * dim.type.constant) ≤ r.size at hplace
    have halign : tmAlignment true sub = sub.members.align := Atts.tmplAlign_eq hsub
    change Reaches heapAddr r _ post path base A c l
      (populateAtts heapAddr r true (.structs name true sub dim delim (rest.append post)) i path base v l).2
    rw [populateAtts_structs, halign]
    have hpos := sub.members.align_pos
    rcases hat.toAt.startAtt hpos (by omega) with ⟨hfull, l', heq, hat', hplaced⟩ | ⟨-, hout, heq⟩
    · rw [heq]
      exact (leftAt_struct hat' hfull hplaced).reaches rfl rfl rfl hwfPre hwf hA hfits
    · obtain ⟨hnext₀, hplaced₀⟩ := hat.toAt.startsAt hpos (by omega)
      rw [heq]
      dsimp only
      have hlays := (ihsub (hnil hsub) hsubsized).laysOut hsub
      have hfollowNth (k : Nat) (hk : k < dim.type.constant) : sub.Follows
          (r.size - (base + roundUp (byteEnd c.pos) sub.members.align + sub.members.sizeof * k)) .start := by
        have hnth := hfollowSub k hk
        rwa [← Nat.sub_add_eq, ← Nat.add_assoc] at hnth
      obtain ⟨hnext, hstep⟩ := hlays.structsTurn hsub hsize hnel hnelpos hmax
        delim (i :: path) _ v.1.2 hnext₀ hplaced₀ hplace hfollowNth
      rw [andThen_next hnext]
      exact hstep.reaches rfl rfl rfl ⟨fun _ => rfl, fun _ => rfl⟩
        (ihrest hrest hrestsized _ _ _ base A _ _ hstep.reached hA hfits hfollow)

/-! ## Whole records -/

/-- What is found of a record, and how large the template is then. -/
structure FollowsLayout (heapAddr : Nat → Nat) {t : Tmpl} (r : Record) (c : Clone t) (n : Notes) :
    Prop where
  goes : (populateRecord heapAddr r c { n with log := [] }).2.2 = .next
  places : placesOf (populateLog heapAddr r c n) = t.atts.members.places 0 0
  dataSize : (populateRecord heapAddr r c { n with log := [] }).1.dataSize = t.atts.members.sizeof
  alignment : tmAlignment t.aligned t.atts = t.atts.members.align

def recordNotes (n : Notes) : Notes := { n with next := 0, outOfData := false, log := [] }

theorem nextAt_recordNotes (r : Record) (n : Notes) : NextAt r 0 (recordNotes n) :=
  ⟨rfl, Nat.zero_le _, fun hout => absurd hout Bool.false_ne_true⟩

/-- The struct of a record, as the compiler lays it out. -/
structure ShownAs {α : Type} (ms : Members) (n : Notes) (out : CloneOf α × Notes × Env × Flow) :
    Prop where
  goes : out.2.2.2.goes = true
  placed : Placed n out.2.1 (ms.places 0 0)
  dataSize : out.1.dataSize = ms.sizeof

theorem followsLayout_iff (heapAddr : Nat → Nat) {t : Tmpl} (ht : t.accepted = true)
    (haligned : t.aligned = true) (hsize : r.size ≠ 0) (c : Clone t) (n : Notes) :
    FollowsLayout heapAddr r c n ↔
      ShownAs t.atts.members (recordNotes n)
        (populateStruct heapAddr r t.aligned t.atts [] c (recordNotes n)) := by
  have halign : tmAlignment t.aligned t.atts = t.atts.members.align := by
    rw [haligned]
    exact Atts.tmplAlign_eq (haligned ▸ ht)
  have hplaced (n' : Notes) (ps : List Place) :
      Placed (recordNotes n) n' ps ↔ placesOf n'.log = ps := by
    unfold Placed recordNotes
    simp only [List.nil_append, exists_eq_left']
  rcases populateRecord_cases heapAddr r c { n with log := [] } with
    ⟨hzero, -⟩ | ⟨-, c₁, n₁, env, flow, hout, hcases⟩
  · exact absurd hzero hsize
  · change populateStruct heapAddr r t.aligned t.atts [] c (recordNotes n) = _ at hout
    rw [hout]
    have hshown : ShownAs t.atts.members (recordNotes n) (c₁, n₁, env, flow) ↔
        flow.goes = true ∧ placesOf n₁.log = t.atts.members.places 0 0 ∧
          c₁.dataSize = t.atts.members.sizeof :=
      ⟨fun h => ⟨h.goes, (hplaced ..).1 h.placed, h.dataSize⟩,
        fun h => ⟨h.1, (hplaced ..).2 h.2.1, h.2.2⟩⟩
    rw [hshown]
    rcases hcases with ⟨why, rfl, heq⟩ | ⟨hgoes, -, heq⟩ | ⟨hgoes, -, heq⟩
    · constructor
      · intro h
        have hgoes := h.goes
        rw [heq] at hgoes
        cases hgoes
      · exact fun h => nomatch h.1
    · constructor
      · intro h
        have hplaces := h.places
        have hdata := h.dataSize
        unfold populateLog at hplaces
        rw [heq] at hplaces hdata
        exact ⟨hgoes, hplaces, hdata⟩
      · rintro ⟨-, hplaces, hdata⟩
        refine ⟨by rw [heq], ?_, by rw [heq]; exact hdata, halign⟩
        unfold populateLog
        rw [heq]
        exact hplaces
    · have hextra : placesOf (createExtraDataAtt r n₁).2.log = placesOf n₁.log := by
        dsimp only [createExtraDataAtt]
        rw [placesOf_append]
        exact List.append_nil _
      constructor
      · intro h
        have hplaces := h.places
        have hdata := h.dataSize
        unfold populateLog at hplaces
        rw [heq] at hplaces hdata
        exact ⟨hgoes, hextra ▸ hplaces, hdata⟩
      · rintro ⟨-, hplaces, hdata⟩
        refine ⟨by rw [heq], ?_, by rw [heq]; exact hdata, halign⟩
        unfold populateLog
        rw [heq]
        exact hextra.trans hplaces

/-- A record without data is one of a struct without members. -/
theorem followsLayout_of_structAt (heapAddr : Nat → Nat) {t : Tmpl} (ht : t.accepted = true)
    (haligned : t.aligned = true) (hfits : t.atts.members.sizeof ≤ r.size) (c : Clone t) (n : Notes)
    (h : StructAt r t.atts.members 0 (recordNotes n)
      (populateStruct heapAddr r t.aligned t.atts [] c (recordNotes n))) :
    FollowsLayout heapAddr r c n := by
  by_cases hsize : r.size = 0
  · have hacc : t.atts.accepted true = true := haligned ▸ ht
    have hzero : t.atts.members.sizeof = 0 := by omega
    have heq : populateRecord heapAddr r c { n with log := [] } =
        ({ c with dataSize := 0, populated := true }, { n with log := [] }, .next) := if_pos hsize
    refine ⟨by rw [heq], ?_, by rw [heq, hzero], ?_⟩
    · unfold populateLog
      rw [heq, Members.places_nil (Atts.members_wellFormed hacc) (Members.endBit_of_sizeof hzero).le]
      rfl
    · rw [haligned]
      exact Atts.tmplAlign_eq hacc
  · exact (followsLayout_iff heapAddr ht haligned hsize c n).2
      ⟨by rw [h.goes]; rfl, h.placed, h.dataSize⟩

/-! ### Without bit-fields -/

/-- Scalars, arrays, structs and arrays of structs, and no struct without
members. -/
def Atts.ordinary : Atts → Bool
  | .nil => true
  | .field _ f rest =>
    match f with
    | .scalar _ | .array _ _ _ => rest.ordinary
    | _ => false
  | .struct _ _ sub rest => sub ≠ .nil && sub.ordinary && rest.ordinary
  | .structs _ _ sub _ _ rest => sub ≠ .nil && sub.ordinary && rest.ordinary

theorem Atts.ordinary_room (hacc : atts.accepted true = true) (hord : atts.ordinary = true)
    (hne : atts ≠ .nil) (pos : Nat) : pos < atts.members.endBit pos := by
  have hbyte := le_byteEnd pos
  induction atts generalizing pos with
  | nil => exact absurd rfl hne
  | field name f rest _ =>
    rw [Atts.accepted, Bool.and_eq_true] at hacc
    have hrest := Members.le_endBit (Atts.members_wellFormed hacc.2)
    cases f with
    | const => cases hord
    | bitField ty width => cases hord
    | scalar ty =>
      have hup := le_roundUp (align_pos_of_scalar (Field.accepted_scalar hacc.1)) (byteEnd pos)
      have hsize := size_pos .noArch ty
      exact lt_of_lt_of_le (by omega) (hrest _)
    | array ty dim delim =>
      obtain ⟨hty, hdim⟩ := Field.accepted_array hacc.1
      have hup := le_roundUp (align_pos_of_scalar hty) (byteEnd pos)
      have hsize := Nat.mul_pos (size_pos .noArch ty) (constant_of_accepted hdim).2.1
      exact lt_of_lt_of_le (by omega) (hrest _)
  | struct name al sub rest ihsub _ =>
    simp only [Atts.accepted, Bool.not_true, Bool.or_false, Bool.and_eq_true] at hacc
    simp only [Atts.ordinary, Bool.and_eq_true, decide_eq_true_eq] at hord
    obtain ⟨⟨rfl, hsub⟩, hrest⟩ := hacc
    have hup := le_roundUp sub.members.align_pos (byteEnd pos)
    have hroom := ihsub hsub hord.1.2 hord.1.1 0 (le_byteEnd 0)
    have hsize := Members.le_sizeof _ hroom sub.members.align_pos
    have hle := Members.le_endBit (Atts.members_wellFormed hrest)
      (8 * (roundUp (byteEnd pos) sub.members.align + sub.members.sizeof * 1))
    exact lt_of_lt_of_le (by omega) hle
  | structs name al sub dim delim rest ihsub _ =>
    simp only [Atts.accepted, Bool.not_true, Bool.or_false, Bool.and_eq_true] at hacc
    simp only [Atts.ordinary, Bool.and_eq_true, decide_eq_true_eq] at hord
    obtain ⟨⟨⟨rfl, hsub⟩, hdim⟩, hrest⟩ := hacc
    have hup := le_roundUp sub.members.align_pos (byteEnd pos)
    have hroom := ihsub hsub hord.1.2 hord.1.1 0 (le_byteEnd 0)
    have hsize := Nat.mul_pos (Members.le_sizeof _ hroom sub.members.align_pos)
      (constant_of_accepted hdim).2.1
    have hle := Members.le_endBit (Atts.members_wellFormed hrest)
      (8 * (roundUp (byteEnd pos) sub.members.align + sub.members.sizeof * dim.type.constant))
    exact lt_of_lt_of_le (by omega) hle

theorem Atts.ordinary_sized (hacc : atts.accepted true = true) (hord : atts.ordinary = true) :
    atts.sized = true := by
  induction atts with
  | nil => rfl
  | field name f rest ih =>
    rw [Atts.accepted, Bool.and_eq_true] at hacc
    cases f with
    | const => cases hord
    | bitField ty width => cases hord
    | scalar ty => exact ih hacc.2 hord
    | array ty dim delim => exact ih hacc.2 hord
  | struct name al sub rest ihsub ihrest =>
    simp only [Atts.accepted, Bool.not_true, Bool.or_false, Bool.and_eq_true] at hacc
    simp only [Atts.ordinary, Bool.and_eq_true] at hord
    obtain ⟨⟨rfl, hsub⟩, hrest⟩ := hacc
    rw [Atts.sized, ihsub hsub hord.1.2, ihrest hrest hord.2]
    rfl
  | structs name al sub dim delim rest ihsub ihrest =>
    simp only [Atts.accepted, Bool.not_true, Bool.or_false, Bool.and_eq_true] at hacc
    simp only [Atts.ordinary, Bool.and_eq_true, decide_eq_true_eq] at hord
    obtain ⟨⟨⟨rfl, hsub⟩, -⟩, hrest⟩ := hacc
    have hsize : 0 < sub.members.sizeof :=
      Members.le_sizeof _ (Atts.ordinary_room hsub hord.1.2 hord.1.1 0) sub.members.align_pos
    rw [Atts.sized, ihsub hsub hord.1.2, ihrest hrest hord.2, decide_eq_true hsize]
    rfl

theorem Atts.ordinary_follows (hord : atts.ordinary = true) (room : Nat) (c : Cursor) :
    atts.Follows room c := by
  induction atts generalizing room c with
  | nil => trivial
  | field name f rest ih =>
    cases f with
    | const => cases hord
    | bitField ty width => cases hord
    | scalar ty => exact ⟨trivial, ih hord _ _⟩
    | array ty dim delim => exact ⟨trivial, ih hord _ _⟩
  | struct name al sub rest ihsub ihrest =>
    simp only [Atts.ordinary, Bool.and_eq_true] at hord
    exact ⟨ihsub hord.1.2 _ _, ihrest hord.2 _ _⟩
  | structs name al sub dim delim rest ihsub ihrest =>
    simp only [Atts.ordinary, Bool.and_eq_true] at hord
    exact ⟨fun k _ => ihsub hord.1.2 _ _, ihrest hord.2 _ _⟩

/-- What a template is shown with, if all its bit-fields are put where they
belong. -/
theorem populateRecord_follows (heapAddr : Nat → Nat) {t : Tmpl} (ht : t.accepted = true)
    (haligned : t.aligned = true) (hsized : t.atts.sized = true) {r : Record} (hlocal : r.Local)
    (hfits : t.atts.members.sizeof ≤ r.size) (hfollow : t.atts.Follows r.size .start) (c : Clone t)
    (n : Notes) : FollowsLayout heapAddr r c n := by
  refine followsLayout_of_structAt heapAddr ht haligned hfits c n ?_
  have hacc : t.atts.accepted true = true := haligned ▸ ht
  have hlays := (@leads r heapAddr hlocal t.atts .nil (by rwa [Atts.append_nil]) hsized).laysOut hacc
  rw [haligned]
  exact hlays.populateStruct hacc [] c (nextAt_recordNotes r n) (by omega) hfollow

/-- Without bit-fields, an aligned template follows the layout of a C
struct. -/
theorem populateRecord_layout (heapAddr : Nat → Nat) {t : Tmpl} (ht : t.accepted = true)
    (haligned : t.aligned = true) (hord : t.atts.ordinary = true) {r : Record} (hlocal : r.Local)
    (hfits : t.atts.members.sizeof ≤ r.size) (c : Clone t) (n : Notes) :
    FollowsLayout heapAddr r c n := by
  have hacc : t.atts.accepted true = true := haligned ▸ ht
  exact populateRecord_follows heapAddr ht haligned (Atts.ordinary_sized hacc hord) hlocal hfits
    (Atts.ordinary_follows hord _ _) c n

def zeros (n : Nat) (h : n ≤ posixLogEntryMaxlen) : Record := ⟨0, fun _ => 0, n, h, .x86_64⟩

/-- `struct { char c; struct { short s; double d; } in; int a[3]; struct { int x; char y; } b[2]; }` -/
def structOfStructs : Tmpl where
  aligned := true
  atts :=
    .field (some "c") (.scalar .char)
      (.struct "in" true (.field (some "s") (.scalar .short) (.field (some "d") (.scalar .double) .nil))
        (.field (some "a") (.array .int ⟨0, .const 3⟩ none)
          (.structs "b" true (.field (some "x") (.scalar .int) (.field (some "y") (.scalar .char) .nil))
            ⟨1, .const 2⟩ none .nil)))

theorem populateRecord_layout_structs :
    FollowsLayout (t := structOfStructs) (fun _ => 0) (zeros 60 (by decide)) (cloneTemplate _) .start :=
  populateRecord_layout (fun _ => 0) (by decide) rfl (by decide) (.inr rfl) (by decide) _ _

end Evlog.Template
