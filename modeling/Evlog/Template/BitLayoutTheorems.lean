/-
Evlog.Template.BitLayoutTheorems — with bit-fields, a template follows the
layout of a C struct as long as each of them is put where it belongs.

One that is not need not be noticed: what is behind it may start at the same
byte all the same, or nothing may be behind it. So the condition is exact up
to what comes behind. Of a single bit there, and the bit-field, one is found
in another place than the compiler's (`follows_of_oneBit`). A bit-field without
a width at the end of the record matters only for the size of the struct
(`follows_zero_iff`).
-/
import Evlog.Template.LayoutTheorems

namespace Evlog.Template

open Evlog.Lib Evlog.Posix

variable {heapAddr : Nat → Nat} {r : Record}

/-! ## A bit-field and a bit behind it -/

theorem Placed.unique {n n' : Notes} {ps ps' : List Place} (h : Placed n n' ps) (h' : Placed n n' ps') :
    ps = ps' := by
  obtain ⟨es, hlog, rfl⟩ := h
  obtain ⟨es', hlog', rfl⟩ := h'
  rw [hlog] at hlog'
  rw [List.append_cancel_left hlog']

theorem Atts.append_places (pre post : Atts) (base pos : Nat) :
    (pre.append post).members.places base pos =
      pre.members.places base pos ++ post.members.places base (pre.members.endBit pos) := by
  induction pre generalizing pos with
  | nil => rfl
  | field name f rest ih =>
    cases f with
    | const => exact ih _
    | scalar ty => exact congrArg (List.cons _) (ih _)
    | array ty dim delim => exact congrArg (List.cons _) (ih _)
    | bitField ty width => exact (congrArg (_ ++ ·) (ih _)).trans (List.append_assoc ..).symm
  | struct name al sub rest _ ih => exact (congrArg (_ ++ ·) (ih _)).trans (List.append_assoc ..).symm
  | structs name al sub dim delim rest _ ih =>
    exact (congrArg (_ ++ ·) (ih _)).trans (List.append_assoc ..).symm

theorem size_of_integer {ty : BaseType} (h : ty.isInteger = true) :
    (archTypeInfo .noArch ty).size ∈ [1, 2, 4, 8] := by
  cases ty <;> first | decide | cases h

def bitsOf (base pos width : Nat) (named : Bool) : List Place :=
  if named then Members.bitPlaces base pos width else []

theorem bitsOf_length (base pos width : Nat) (named : Bool) :
    (bitsOf base pos width named).length = if named then 2 else 0 := by
  cases named <;> rfl

theorem bitPlaces_pos {base pos pos' width : Nat}
    (h : Members.bitPlaces base pos width = Members.bitPlaces base pos' width) : pos = pos' := by
  have hbits := (List.cons.inj (List.cons.inj h).2).1
  rw [Place.bits.injEq] at hbits
  omega

/-- `int x:1;` -/
abbrev oneBit (x : String) : Atts := .field (some x) (.bitField .int 1) .nil

theorem bitStart_one (size pos : Nat) : Members.bitStart size 1 pos = pos :=
  if_neg (by simp)

section One

variable {base i : Nat} {path : List Nat} {c : Cursor} {l : Loop} {name : Option String} {ty : BaseType}
  {width : Nat} {x : String}

/-- At the end of the record, no bit-field is found. -/
theorem bits_ended (rest : Atts) (v : Vals (.field name (.bitField ty width) rest))
    (hend : l.notes.next = r.size) :
    (populateAtts heapAddr r true (.field name (.bitField ty width) rest) i path base v l).2 =
      ({ l with notes := l.notes.out }, .leave) := by
  have hleave : (populateField heapAddr r (i :: path) true base name (.bitField ty width) v.1 l).2 =
      ({ l with notes := l.notes.out }, .leave) := by
    unfold Template.populateField
    dsimp only
    rw [startAtt_none, hend, bytesRemaining_of_le le_rfl, Nat.sub_self, if_pos rfl]
  rw [populateAtts_field, andThen_leave (by rw [hleave]), hleave]

/-- A single bit at the end of the members is found where the cursor has it,
or not at all. -/
theorem AtCursor.populateOneBit (h : AtCursor r base c l) (heapAddr : Nat → Nat) (i : Nat)
    (path : List Nat) (hlocal : r.Local) (hroom : base ≤ r.size)
    (v : Vals (oneBit x)) :
    ∃ ps, (populateAtts heapAddr r true (oneBit x) i path base v l).2.2.goes = true ∧
      Placed l.notes (populateAtts heapAddr r true (oneBit x) i path base v l).2.1.notes ps ∧
      (ps = [] ∨ ps = Members.bitPlaces base (c.unitFor 4 1).pos 1) := by
  have hx : Field.accepted true (some x) (.bitField .int 1) = true := rfl
  rw [populateAtts_field]
  rcases h.populateField_bits heapAddr hlocal (i :: path) hx v.1 hroom with
    ⟨hleave, -, hout⟩ | ⟨hnext, hended⟩ | ⟨hnext, -, hstep⟩
  · rw [andThen_leave hleave, hout]
    exact ⟨[], by rw [hleave]; rfl, .of_eq rfl, .inl rfl⟩
  · rw [andThen_next hnext]
    exact ⟨[], rfl, hended.placed, .inl rfl⟩
  · rw [andThen_next hnext]
    exact ⟨_, rfl, hstep.placed, .inr rfl⟩

/-- A bit-field and the bit behind it are found where the cursor has them, or
the last of them, or both, are not found. -/
theorem AtCursor.populateThenOneBit (h : AtCursor r base c l) (heapAddr : Nat → Nat) (i : Nat)
    (path : List Nat) (hlocal : r.Local) (hroom : base ≤ r.size)
    (hf : Field.accepted true name (.bitField ty width) = true)
    (v : Vals (.field name (.bitField ty width) (oneBit x))) :
    ∃ ps, (populateAtts heapAddr r true (.field name (.bitField ty width) (oneBit x)) i path base v
          l).2.2.goes = true ∧
      Placed l.notes (populateAtts heapAddr r true (.field name (.bitField ty width) (oneBit x)) i path
        base v l).2.1.notes ps ∧
      (ps = [] ∨ ∃ ps',
        ps = bitsOf base (c.unitFor (archTypeInfo .noArch ty).size width).pos width name.isSome ++ ps' ∧
        (ps' = [] ∨ ps' = Members.bitPlaces base
          ((c.pastBits (archTypeInfo .noArch ty).size width).unitFor 4 1).pos 1)) := by
  rw [populateAtts_field]
  rcases h.populateField_bits heapAddr hlocal (i :: path) hf v.1 hroom with
    ⟨hleave, -, hout⟩ | ⟨hnext, hended⟩ | ⟨hnext, -, hstep⟩
  · rw [andThen_leave hleave, hout]
    exact ⟨[], by rw [hleave]; rfl, .of_eq rfl, .inl rfl⟩
  · rw [andThen_next hnext, bits_ended _ _ hended.pn_next]
    exact ⟨[], rfl, hended.placed.after (.of_eq rfl), .inl rfl⟩
  · rw [andThen_next hnext]
    obtain ⟨ps', hgoes, hplaced, hps'⟩ :=
      hstep.reached.populateOneBit heapAddr (i + 1) path hlocal hroom v.2
    exact ⟨_, hgoes, hstep.placed.trans hplaced, .inr ⟨ps', rfl, hps'⟩⟩

end One

/-! ## Whole records -/

theorem placed_finishTmpl (base alignment minSize : Nat) (l : Loop) :
    Placed l.notes (finishTmpl r base alignment minSize l) [] := by
  have halign (n : Notes) : Placed n (alignNextPtr r base alignment n) [] := by
    unfold alignNextPtr
    dsimp only
    split <;> exact placed_setNext _
  have hmin (n : Notes) : Placed n (enforceMinSize r base minSize n) [] := by
    unfold enforceMinSize
    dsimp only
    split
    · split <;> exact placed_setNext _
    · exact .refl _
  exact ((placed_setNext _).after (halign _)).after (hmin _)

theorem finishTmpl_next {base alignment minSize q : Nat} {l : Loop}
    (hfold : l.bfStart + bitsToBytes l.bfOffset = base + q) (ha : 0 < alignment)
    (hmin : minSize ≤ roundUp q alignment) (hfits : base + roundUp q alignment ≤ r.size) :
    (finishTmpl r base alignment minSize l).next = base + roundUp q alignment := by
  have hp : alignDataPtr (adjustNextPerBitFields l.notes l.bfStart l.bfOffset).next base alignment =
      base + roundUp q alignment := by
    unfold adjustNextPerBitFields
    rw [setNext_next, hfold, alignDataPtr_eq (Nat.le_add_right _ _) ha, Nat.add_sub_cancel_left]
  have halign : (alignNextPtr r base alignment
      (adjustNextPerBitFields l.notes l.bfStart l.bfOffset)).next = base + roundUp q alignment := by
    unfold alignNextPtr
    dsimp only
    rw [hp]
    split
    · rw [out_next, setNext_next]
      omega
    · rfl
  unfold finishTmpl enforceMinSize
  rw [if_neg (by omega)]
  exact halign

/-- The loop at the start of a record. -/
def recordLoop (n : Notes) : Loop := ⟨recordNotes n, 0, 0, []⟩

section Record

variable {pre post : Atts} {name : Option String} {ty : BaseType} {width : Nat} {x : String}

/-- The struct of a record, after the loop over its attributes. -/
theorem populateStruct_record (heapAddr : Nat → Nat) {atts : Atts} (hacc : atts.accepted true = true)
    (c : CloneOf (Vals atts)) (n : Notes) {out : Loop × Flow} {ps : List Place}
    (hout : (populateAtts heapAddr r true atts 0 [] 0 c.atts (recordLoop n)).2 = out)
    (hgoes : out.2.goes = true) (hplaced : Placed (recordNotes n) out.1.notes ps) :
    (populateStruct heapAddr r true atts [] c (recordNotes n)).2.2.2.goes = true ∧
      Placed (recordNotes n) (populateStruct heapAddr r true atts [] c (recordNotes n)).2.1 ps ∧
      (populateStruct heapAddr r true atts [] c (recordNotes n)).1.dataSize =
        (finishTmpl r 0 atts.members.align atts.minSize out.1).next := by
  have halign : tmAlignment true atts = atts.members.align := Atts.tmplAlign_eq hacc
  subst hout
  unfold populateStruct
  rw [halign, populateTmpl_goes hgoes]
  exact ⟨rfl, hplaced.before (placed_finishTmpl ..), Nat.sub_zero _⟩

/-- The last attributes belong where the cursor has them. -/
theorem members_append (post : Atts) (hacc : pre.accepted true = true) (hpre : pre.Follows r.size .start) :
    (pre.append post).members.places 0 0 =
        pre.members.places 0 0 ++ post.members.places 0 (pre.past .start).pos ∧
      (pre.append post).members.endBit 0 = post.members.endBit (pre.past .start).pos := by
  rw [Atts.past_pos hacc ⟨le_rfl, le_rfl⟩ hpre]
  exact ⟨Atts.append_places .., Atts.append_members ..⟩

/-- Unless the record ends before, the loop comes to the last attributes
where the others leave it. -/
theorem leads_record (heapAddr : Nat → Nat) (hlocal : r.Local)
    (hacc : (pre.append post).accepted true = true) (hsized : (pre.append post).sized = true)
    (hfits : (pre.append post).members.sizeof ≤ r.size) (hpre : pre.Follows r.size .start)
    (hroom : (pre.past .start).pos < 8 * r.size)
    (c : CloneOf (Vals (pre.append post))) (n : Notes) :
    ∃ i v l, Stepped r 0 (pre.past .start) (recordLoop n) l (pre.members.places 0 0) ∧
      (populateAtts heapAddr r true (pre.append post) 0 [] 0 c.atts (recordLoop n)).2 =
        (populateAtts heapAddr r true post i [] 0 v l).2 := by
  have hpast := Atts.past_pos (Atts.accepted_append hacc).1 ⟨le_rfl, le_rfl⟩ hpre
  have hat : AtCursor r 0 .start (recordLoop n) :=
    @NextAt.atStart r (recordNotes n) (nextAt_recordNotes r n)
  rcases leads heapAddr hlocal hacc (Atts.sized_append hsized) 0 [] c.atts 0 _ .start (recordLoop n) hat
    (Members.align_pos _) (by rw [Nat.zero_add]; exact hfits) hpre with ⟨-, hfull⟩ | hreached
  · rw [← hpast] at hfull
    omega
  · exact hreached

theorem le_size_of_sizeof {ms : Members} (h : ms.sizeof ≤ r.size) : ms.endBit 0 ≤ 8 * r.size := by
  have hbyte := le_byteEnd (ms.endBit 0)
  have hup := le_roundUp ms.align_pos (byteEnd (ms.endBit 0))
  unfold Members.sizeof at h
  omega

/-- If the bits are found where the compiler puts them, the bit-field is one
that is put where it belongs. -/
theorem follows_of_oneBit (heapAddr : Nat → Nat) (hlocal : r.Local)
    (hpost : post = .field name (.bitField ty width) (oneBit x))
    (hacc : (pre.append post).accepted true = true) (hsized : (pre.append post).sized = true)
    (hfits : (pre.append post).members.sizeof ≤ r.size) (hpre : pre.Follows r.size .start)
    (c : Clone ⟨true, pre.append post⟩) (n : Notes) (h : FollowsLayout heapAddr r c n) :
    (pre.past .start).Follows (archTypeInfo .noArch ty).size width r.size name.isSome := by
  obtain ⟨haccPre, haccPost⟩ := Atts.accepted_append hacc
  rw [hpost, Atts.accepted, Bool.and_eq_true] at haccPost
  obtain ⟨hint, hwidth, -⟩ := Field.accepted_bitField haccPost.1
  have hsize := size_pos .noArch ty
  obtain ⟨hplaces, hend⟩ := members_append post haccPre hpre
  have hlast := le_size_of_sizeof hfits
  subst hpost
  obtain ⟨start, hstart⟩ : ∃ start, start =
      Members.bitStart (archTypeInfo .noArch ty).size width (pre.past .start).pos := ⟨_, rfl⟩
  have hle := Members.le_bitStart hsize width (pre.past .start).pos
  change _ = Members.bitStart 4 1 (_ + width) + 1 at hend
  change _ = _ ++ (bitsOf 0 _ width name.isSome ++
    (Members.bitPlaces 0 (Members.bitStart 4 1 (_ + width)) 1 ++ [])) at hplaces
  rw [bitStart_one, ← hstart] at hend
  rw [bitStart_one, List.append_nil, ← hstart] at hplaces
  have hshown := (@followsLayout_iff r heapAddr ⟨true, _⟩ hacc rfl (by omega) c n).1 h
  obtain ⟨i, v, l, hstep, hout⟩ := leads_record heapAddr hlocal hacc hsized hfits hpre (by omega) c n
  obtain ⟨ps, hgoes, hplaced, hps⟩ :=
    hstep.reached.populateThenOneBit heapAddr i [] hlocal (Nat.zero_le _) haccPost.1 v
  rw [← hout] at hgoes hplaced
  obtain ⟨-, hall, -⟩ :=
    populateStruct_record heapAddr hacc c n rfl hgoes (hstep.placed.trans hplaced)
  have hsame := List.append_cancel_left ((hall.unique hshown.placed).trans hplaces)
  rcases hps with rfl | ⟨ps', rfl, rfl | rfl⟩
  · exact absurd (congrArg List.length hsame) (by
      rw [List.length_nil, List.length_append]
      exact fun h => by simp [Members.bitPlaces] at h)
  · exact absurd (congrArg List.length hsame) (by
      rw [List.append_nil, List.length_append, bitsOf_length, bitsOf_length]
      exact fun h => by simp [Members.bitPlaces] at h)
  obtain ⟨hbits, hone⟩ := List.append_inj hsame (by rw [bitsOf_length, bitsOf_length])
  rw [hstart] at hbits hone hend
  by_cases hw : width = 0
  · subst hw
    have hzero := Cursor.bitStart_zero hsize (pre.past .start).pos
    rw [Cursor.Follows, if_pos rfl]
    omega
  · refine (Cursor.follows_iff hstep.reached.valid hsize hw hwidth).2 ⟨fun hnamed => ?_, ?_⟩
    · rw [hnamed] at hbits
      exact bitPlaces_pos hbits
    · by_contra hne
      exact Cursor.unitFor_one_ne hstep.reached.valid (size_of_integer hint) hw hne (bitPlaces_pos hone)

/-- A bit-field without a width that does not move to the end of the record,
as it should, is noticed by the size of the struct alone. -/
theorem follows_zero_iff (heapAddr : Nat → Nat) (hlocal : r.Local)
    (hpost : post = .field none (.bitField ty 0) .nil)
    (hacc : (pre.append post).accepted true = true) (hsized : (pre.append post).sized = true)
    (hfits : (pre.append post).members.sizeof ≤ r.size) (hpre : pre.Follows r.size .start)
    (hno : ¬(pre.past .start).Follows (archTypeInfo .noArch ty).size 0 r.size false)
    (c : Clone ⟨true, pre.append post⟩) (n : Notes) :
    FollowsLayout heapAddr r c n ↔
      roundUp (byteEnd (pre.past .start).pos) (pre.append post).members.align =
        roundUp (byteEnd (pre.past .start).pos) (archTypeInfo .noArch ty).size := by
  obtain ⟨haccPre, haccPost⟩ := Atts.accepted_append hacc
  rw [hpost, Atts.accepted, Bool.and_eq_true] at haccPost
  have hsize := size_pos .noArch ty
  have hA := (pre.append post).members.align_pos
  have hmin := minSize_le_align hacc
  obtain ⟨hplaces, hend⟩ := members_append post haccPre hpre
  have hbyte := le_byteEnd (pre.past .start).pos
  have hup := le_roundUp hsize (byteEnd (pre.past .start).pos)
  have hdvd := dvd_roundUp (byteEnd (pre.past .start).pos) (archTypeInfo .noArch ty).size
  have hzero := Cursor.bitStart_zero hsize (pre.past .start).pos
  generalize hR : roundUp (byteEnd (pre.past .start).pos) (archTypeInfo .noArch ty).size = R at *
  subst hpost
  change _ = Members.bitStart _ 0 _ at hend
  change _ = _ ++ [] at hplaces
  rw [hzero] at hend
  rw [Cursor.Follows, if_pos rfl, hR, not_or] at hno
  obtain ⟨hroom, hne⟩ := hno
  have hlt : (pre.past .start).pos < 8 * R := by
    refine lt_of_le_of_ne (by omega) fun heq => hne ?_
    rw [heq]
    exact Nat.mod_eq_zero_of_dvd (Nat.mul_dvd_mul_left 8 hdvd)
  obtain ⟨whole, hwhole⟩ : ∃ whole, whole = (pre.append (.field none (.bitField ty 0) .nil)).members :=
    ⟨_, rfl⟩
  have hsizeof : whole.sizeof = roundUp R whole.align := by
    rw [hwhole, Members.sizeof, hend, byteEnd_bytes]
  rw [← hwhole] at hfits hA hmin hplaces ⊢
  have hle := le_roundUp hA R
  have hRsize : R = r.size := by omega
  rw [@followsLayout_iff r heapAddr ⟨true, _⟩ hacc rfl (by omega) c n]
  change ShownAs (pre.append (.field none (.bitField ty 0) .nil)).members _
    (populateStruct heapAddr r true (pre.append (.field none (.bitField ty 0) .nil)) [] c _) ↔ _
  obtain ⟨i, v, l, hstep, hout⟩ :=
    leads_record heapAddr hlocal hacc hsized (hwhole ▸ hfits) hpre (by omega) c n
  rw [populateAtts_field] at hout
  have hnext_le := hstep.reached.next
  rcases hstep.reached.populateField_bits heapAddr hlocal (i :: []) haccPost.1 v.1 (Nat.zero_le _) with
    ⟨-, hfull, -⟩ | ⟨hnext, hended⟩ | ⟨-, hlacks, -⟩
  · omega
  · rw [andThen_next hnext] at hout
    obtain ⟨hgoes, hplaced, hdata⟩ := populateStruct_record heapAddr hacc c n hout rfl
      (hstep.placed.trans hended.placed)
    obtain ⟨hstart, hoffset⟩ := hended.unit rfl
    have hfold := hstep.reached.folded
    rw [← hstart, ← hoffset] at hfold
    have hround : roundUp (byteEnd (pre.past .start).pos) whole.align ≤ R := by
      refine roundUp_le hA ?_ hup
      have hsame : roundUp R whole.align = R := by omega
      rw [← hsame]
      exact dvd_roundUp _ _
    have hpos : 0 < roundUp (byteEnd (pre.past .start).pos) whole.align := by
      have hle := le_roundUp hA (byteEnd (pre.past .start).pos)
      have hzero : (pre.past .start).pos ≠ 0 := fun hzero => hne (by rw [hzero, Nat.zero_mod])
      omega
    rw [← hwhole] at hdata ⊢
    replace hdata := hdata.trans (finishTmpl_next hfold hA
      (hmin.trans (Nat.le_of_dvd hpos (dvd_roundUp _ _))) (by omega))
    constructor
    · intro h
      have hshown := h.dataSize
      omega
    · intro h
      exact ⟨hgoes, hplaces ▸ hplaced, by omega⟩
  · have hroom' := hlacks rfl
    rw [Cursor.Lacks, if_pos rfl, hR] at hroom'
    exact absurd ⟨by omega, hne⟩ hroom'

end Record

/-- A template follows the layout of a C struct if all its bit-fields are put
where they belong. If the first that is not is followed by a single bit, it
does not. If that one is the last and has no width, it does as long as the
struct has the same size without it. -/
theorem populateRecord_bitFields (heapAddr : Nat → Nat) {t : Tmpl} (ht : t.accepted = true)
    (haligned : t.aligned = true) (hsized : t.atts.sized = true) {r : Record} (hlocal : r.Local)
    (hfits : t.atts.members.sizeof ≤ r.size) (c : Clone t) (n : Notes) :
    (t.atts.Follows r.size .start → FollowsLayout heapAddr r c n) ∧
      ∀ (pre : Atts) (name : Option String) (ty : BaseType) (width : Nat) (rest : Atts),
        t.atts = pre.append (.field name (.bitField ty width) rest) → pre.Follows r.size .start →
        ¬(pre.past .start).Follows (archTypeInfo .noArch ty).size width r.size name.isSome →
        (∀ x, rest = oneBit x → ¬FollowsLayout heapAddr r c n) ∧
          (width = 0 → rest = .nil →
            (FollowsLayout heapAddr r c n ↔
              roundUp (byteEnd (pre.past .start).pos) t.atts.members.align =
                roundUp (byteEnd (pre.past .start).pos) (archTypeInfo .noArch ty).size)) := by
  refine ⟨fun h => populateRecord_follows heapAddr ht haligned hsized hlocal hfits h c n, ?_⟩
  obtain ⟨al, atts⟩ := t
  dsimp only at haligned hsized hfits
  subst haligned
  rintro pre name ty width rest rfl hpre hno
  constructor
  · rintro x rfl h
    exact hno (follows_of_oneBit heapAddr hlocal rfl ht hsized hfits hpre c n h)
  · rintro rfl rfl
    have hpost := (Atts.accepted_append ht).2
    rw [Atts.accepted, Bool.and_eq_true] at hpost
    cases name with
    | none => exact follows_zero_iff heapAddr hlocal rfl ht hsized hfits hpre hno c n
    | some name => exact absurd ((Field.accepted_bitField hpost.1).2.2 rfl) (Nat.lt_irrefl 0)

/-- `struct { short s; int a:10; int b:5; int :0; char c; unsigned char d:3; }` -/
def someBitFields : Tmpl where
  aligned := true
  atts :=
    .field (some "s") (.scalar .short)
      (.field (some "a") (.bitField .int 10)
        (.field (some "b") (.bitField .int 5)
          (.field none (.bitField .int 0)
            (.field (some "c") (.scalar .char) (.field (some "d") (.bitField .uchar 3) .nil)))))

/-- `struct { short s; int b:16; int x:1; }` -/
def bitBehindWord : Tmpl where
  aligned := true
  atts := .field (some "s") (.scalar .short) (.field (some "b") (.bitField .int 16) (oneBit "x"))

/-- `struct { int i; char c; int :0; }` -/
def zeroWidthAtEnd : Tmpl where
  aligned := true
  atts :=
    .field (some "i") (.scalar .int)
      (.field (some "c") (.scalar .char) (.field none (.bitField .int 0) .nil))

theorem populateRecord_bitFields_follow :
    FollowsLayout (t := someBitFields) (fun _ => 0) (zeros 8 (by decide)) (cloneTemplate _) .start ∧
      ¬FollowsLayout (t := bitBehindWord) (fun _ => 0) (zeros 8 (by decide)) (cloneTemplate _) .start ∧
      FollowsLayout (t := zeroWidthAtEnd) (fun _ => 0) (zeros 8 (by decide)) (cloneTemplate _) .start := by
  refine ⟨?_, ?_, ?_⟩
  · exact (populateRecord_bitFields (fun _ => 0) (by decide) rfl (by decide) (.inr rfl) (by decide) _ _).1
      (by decide)
  · exact ((populateRecord_bitFields (fun _ => 0) (by decide) rfl (by decide) (.inr rfl) (by decide) _ _).2
      (.field (some "s") (.scalar .short) .nil) (some "b") .int 16 _ rfl (by decide) (by decide)).1 "x" rfl
  · exact (((populateRecord_bitFields (fun _ => 0) (by decide) rfl (by decide) (.inr rfl) (by decide) _ _).2
      (.field (some "i") (.scalar .int) (.field (some "c") (.scalar .char) .nil)) none .int 0 _ rfl
      (by decide) (by decide)).2 rfl rfl).2 (by decide)

/-- `struct { char c[5]; int b:3; }` -/
def bitFieldAfterBytes : Tmpl where
  aligned := true
  atts := .field (some "c") (.array .char ⟨0, .const 5⟩ none) (.field (some "b") (.bitField .int 3) .nil)

/-- The bit-field belongs in the byte after the five, but is looked for
behind the eight bytes that there are. -/
theorem populateRecord_not_bitFields :
    bitFieldAfterBytes.accepted = true ∧ bitFieldAfterBytes.aligned = true ∧
      bitFieldAfterBytes.atts.sized = true ∧ (zeros 8 (by decide)).Local ∧
      bitFieldAfterBytes.atts.members.sizeof ≤ 8 ∧
      bitFieldAfterBytes.atts.members.places 0 0 = [.bytes 0 5, .bytes 5 1, .bits 40 3] ∧
      placesOf (populateLog (t := bitFieldAfterBytes) (fun _ => 0) (zeros 8 (by decide))
        (cloneTemplate _) .start) = [.bytes 0 5] :=
  ⟨by decide, rfl, by decide, .inr rfl, by decide, by decide, by decide⟩

end Evlog.Template
