/-
Evlog.Template.FormatTheorems — a clone is formatted as its master would be.

A pointer in the format of a clone is to the attribute at the place of the
one that the master's is to. So what is wanted is found at the same place
(`WantedAlike`), and by induction on the attributes, with the structs among them,
both come to the same text (`formatWanted_alike`): also where the structs
in what is formatted are clones of their masters, and are formatted as
such.

What a segment says is carried over, but for one thing. In a segment with
an attribute `fs_stringfmt` is what `malloc` left, though nothing reads it
there (`clone_alike_iff`).
-/
import Evlog.Template.Format
import Evlog.Template.MasterTheorems

namespace Evlog.Template

open Evlog.Lib Evlog.Util Evlog.Posix
open Evlog.Query (Selector)

/-! ## Attributes that look the same -/

/-- The `template_t`, as that of a master. -/
def StructState.ofMaster (st : StructState) : StructState := { st with owner := .master }

def StructState.Like (st st' : StructState) : Prop := st.ofMaster = st'.ofMaster

namespace StructState.Like

variable {st st' : StructState} (h : st.Like st')

include h

theorem populated : st.populated = st'.populated := (congrArg StructState.populated h :)

theorem arch : st.arch = st'.arch := (congrArg StructState.arch h :)

theorem data : st.data = st'.data := (congrArg StructState.data h :)

theorem dataSize : st.dataSize = st'.dataSize := (congrArg StructState.dataSize h :)

end StructState.Like

section Shown

variable (E : Surroundings) {a a' : AttInfo} (s : AttState)

theorem isArray_shown (a : AttInfo) : a.shown.isArray = a.isArray := by
  rcases a with ⟨_, _, _, _, _, _ | ⟨_, _ | _ | _ | _ | _ | _ | _⟩, _, _⟩ <;> rfl

theorem dimension2_shown (a : AttInfo) : E.dimension2 a.shown s = E.dimension2 a s := by
  rcases a with ⟨_, _, _, _, _, _ | ⟨_, _ | _ | _ | _ | _ | _ | _⟩, _, _⟩ <;> rfl

theorem attDelimiter_shown (a : AttInfo) : E.attDelimiter a.shown s = E.attDelimiter a s := by
  rcases a with ⟨_, _, _, _, _, _, _, _ | _ | _ | _⟩ <;> rfl

variable (h : a.shown = a'.shown)

include h

theorem isArray_alike : a.isArray = a'.isArray := by
  rw [← isArray_shown, h, isArray_shown]

theorem dimension2_alike : E.dimension2 a s = E.dimension2 a' s := by
  rw [← dimension2_shown, h, dimension2_shown]

theorem attDelimiter_alike : E.attDelimiter a s = E.attDelimiter a' s := by
  rw [← attDelimiter_shown, h, attDelimiter_shown]

theorem format_alike : a.format = a'.format := (congrArg AttInfo.format h :)

theorem questioned_alike : questioned a = questioned a' := by
  rw [questioned, questioned, show a.name = a'.name from (congrArg AttInfo.name h :)]

theorem formatBase_alike (arch : Arch) (ty : BaseType) :
    formatBase E arch a ty s = formatBase E arch a' ty s := by
  simp only [formatBase, dumpArray, formatScalars, bprintCharArrAsString, isArray_alike h, format_alike h,
    dimension2_alike E s h, attDelimiter_alike E s h]

theorem formatTmplBase_alike {t t' : StructState} (ht : t.Like t') (ty : BaseType) (fmt : Option String) :
    formatTmplBase E t a ty s fmt = formatTmplBase E t' a' ty s fmt := by
  cases fmt with
  | none => simp only [formatTmplBase, ht.arch, formatBase_alike E s h]
  | some fmt =>
    simp only [formatTmplBase, formatStringAsPrintf, isArray_alike h, questioned_alike h, ht.data, ht.dataSize]

end Shown

/-! ## What is formatted -/

/-- The same values, but that structs may be masters or clones. -/
inductive Values.Like : Values → Values → Prop
  | nil : Like .nil .nil
  | att {s : AttState} {st st' : Option StructState} {sub sub' rest rest' : Values}
      (hst : Option.Rel StructState.Like st st') (hsub : Like sub sub') (hrest : Like rest rest') :
      Like (.att s st sub rest) (.att s st' sub' rest')

theorem Values.Like.refl (v : Values) : v.Like v := by
  induction v with
  | nil => exact .nil
  | att s st sub rest hsub hrest =>
    refine .att ?_ hsub hrest
    cases st with
    | none => exact .none
    | some st => exact .some rfl

theorem Values.Like.symm {v v' : Values} (h : v.Like v') : v'.Like v := by
  induction h with
  | nil => exact .nil
  | att hst _ _ ihsub ihrest =>
    refine .att ?_ ihsub ihrest
    cases hst with
    | none => exact .none
    | some hst => exact .some hst.symm

def Values.ofMaster : Values → Values
  | .nil => .nil
  | .att s st sub rest => .att s (st.map StructState.ofMaster) sub.ofMaster rest.ofMaster

theorem Values.like_ofMaster (v : Values) : v.Like v.ofMaster := by
  induction v with
  | nil => exact .nil
  | att s st sub rest hsub hrest =>
    refine .att ?_ hsub hrest
    cases st with
    | none => exact .none
    | some st => exact .some rfl

section Structs

variable (E : Surroundings) {v v' : Values} {st st' : Option StructState}

theorem structsSize_like (h : v.Like v') : structsSize v = structsSize v' := by
  induction h with
  | nil => rfl
  | att hst _ _ _ ihrest =>
    cases hst with
    | none => simp only [structsSize, ihrest]
    | some hst => simp only [structsSize, ihrest, hst.dataSize]

theorem dumpStructs_like (h : v.Like v') : dumpStructs E v = dumpStructs E v' := by
  have hsize := structsSize_like h
  cases h with
  | nil => rfl
  | att hst _ _ =>
    cases hst with
    | none => rfl
    | some hst => simp only [dumpStructs, hsize, hst.data]

def FormatAlike (format format' : StructState → Values → Text) : Prop :=
  ∀ st st' v v', st.Like st' → v.Like v' → format st v = format' st' v'

variable {format format' : StructState → Values → Text} (hformat : FormatAlike format format')

include hformat

theorem formatElements_like (h : v.Like v') : formatElements format v = formatElements format' v' := by
  induction h with
  | nil => rfl
  | att hst hsub _ _ ihrest =>
    cases hst with
    | none => rfl
    | some hst => simp only [formatElements, hst.populated, hformat _ _ _ _ hst hsub, ihrest]

theorem formatTmplStruct_like {a a' : AttInfo} (hshown : a.shown = a'.shown) (s : AttState)
    (hst : Option.Rel StructState.Like st st') (h : v.Like v') (fmt : Option String) :
    formatTmplStruct E a s st v format fmt = formatTmplStruct E a' s st' v' format' fmt := by
  cases fmt with
  | some fmt => simp only [formatTmplStruct, questioned_alike hshown]
  | none =>
    simp only [formatTmplStruct, formatStruct, formatStructs, isArray_alike hshown, format_alike hshown,
      attDelimiter_alike E s hshown, dumpStructs_like E h, formatElements_like hformat h]
    cases hst with
    | none => rfl
    | some hst => simp only [hst.populated, hformat _ _ _ _ hst h]

end Structs

/-! ## What is wanted is found -/

/-- Attributes that look the same, and one is wanted where the other is. -/
def WantedAlike (w w' : Wanted) (own own' : List (AttPtr × AttInfo)) : Prop :=
  List.Forall₂ (fun x y => x.2.shown = y.2.shown ∧ w.look x.1 x.2 = w'.look y.1 y.2) own own'

variable {own own' src : List (AttPtr × AttInfo)}

theorem alike_path (h : List.Forall₂ Cloned own own') (names : List String) :
    WantedAlike (.path names) (.path names) own own' := by
  refine h.imp fun x y hxy => ⟨hxy.2.symm, ?_⟩
  have hname : y.2.name = x.2.name := (congrArg AttInfo.name hxy.2 :)
  rcases names with _ | ⟨name, _ | _⟩ <;> simp [Wanted.look, hname]

theorem alike_ptr {p p' : AttPtr} (h : List.Forall₂ Cloned own own')
    (hmaster : ∀ x ∈ own, x.1.owner = .master)
    (hunique : ∀ y ∈ own', y.1.index = p'.index → y.1 = p') (hp : p.owner = .master)
    (hindex : p'.index = p.index) : WantedAlike (.ptr p) (.ptr p') own own' := by
  induction h with
  | nil => exact .nil
  | @cons x y _ _ hxy _ ih =>
    refine .cons ⟨hxy.2.symm, ?_⟩ (ih (fun x hx => hmaster x (List.mem_cons_of_mem _ hx))
      fun y hy => hunique y (List.mem_cons_of_mem _ hy))
    have hiff : p = x.1 ↔ p' = y.1 := by
      constructor
      · rintro rfl
        exact (hunique y List.mem_cons_self (hxy.1.trans hindex.symm)).symm
      · rintro rfl
        exact AttPtr.eq_of (hp.trans (hmaster x List.mem_cons_self).symm) (hindex.symm.trans hxy.1)
    simp only [Wanted.look, hiff]

/-! ## Formatting -/

/-- What an attribute holds is the same, but that structs may be masters or
clones. -/
theorem heldBy_like {a a' : AttInfo} (init : Values) (s : AttState) {st st' : Option StructState}
    {sub sub' : Values} (ha : a.shown = a'.shown) (hst : Option.Rel StructState.Like st st')
    (hsub : sub.Like sub') :
    (heldBy a init s st sub).1 = (heldBy a' init s st' sub').1 ∧
      Option.Rel StructState.Like (heldBy a init s st sub).2.1 (heldBy a' init s st' sub').2.1 ∧
      (heldBy a init s st sub).2.2.Like (heldBy a' init s st' sub').2.2 := by
  have hconst : a.isConst = a'.isConst := (congrArg AttInfo.isConst ha :)
  unfold heldBy
  rw [hconst]
  cases a'.isConst with
  | false => exact ⟨rfl, hst, hsub⟩
  | true =>
    cases init with
    | nil => exact ⟨rfl, hst, hsub⟩
    | att s₀ st₀ sub₀ rest₀ =>
      cases st₀ with
      | none => exact ⟨rfl, .none, .refl sub₀⟩
      | some st₀ => exact ⟨rfl, .some rfl, .refl sub₀⟩

section Formatting

variable (E : Surroundings)

/-- Wherever it is looked for, what is wanted is formatted to the same
text. -/
def SameText (m : Members) : Prop :=
  ∀ (own own' : List (AttPtr × AttInfo)) (w w' : Wanted) (v v' : Values) (t t' : StructState)
    (fmt : Option String), WantedAlike w w' own own' → v.Like v' → t.Like t' →
      formatWanted E t m own v w fmt = formatWanted E t' m own' v' w' fmt

variable {E} {m : Members} {fmt : List Segment}

variable {own : List (AttPtr × AttInfo)} {v v' : Values}

/-- A segment for a segment of the master is formatted like it. -/
theorem formatSegment_for (hsame : SameText E m) (hown : List.Forall₂ Cloned m.atts own)
    {seg seg' : Segment} (hseg : SegmentFor own seg seg') (hrefers : seg.Refers m) (hv : v.Like v')
    {t t' : StructState} (ht : t.Like t') (entry : Option PosixLogEntry) :
    formatSegment E entry (fun w f => formatWanted E t m m.atts v w f) seg
      = formatSegment E entry (fun w f => formatWanted E t' m own v' w f) seg' := by
  cases hseg with
  | string text => rfl
  | member m userfmt stringfmt => rfl
  | attname path userfmt stringfmt =>
    simp only [formatSegment, hsame _ _ _ _ v v' t t' userfmt (alike_path hown path) hv ht]
  | null userfmt stringfmt stringfmt' => rfl
  | @attr p p' userfmt stringfmt stringfmt' hmem hindex =>
    obtain ⟨y, hy, rfl⟩ := List.mem_map.1 hmem
    have hunique : ∀ z ∈ own, z.1.index = y.1.index → z.1 = y.1 := fun z hz h =>
      congrArg Prod.fst (Cloned.unique hown hz hy h)
    have halike := alike_ptr hown (fun x hx => attsFrom_master hx) hunique hrefers.1 hindex
    simp only [formatSegment, hsame _ _ _ _ v v' t t' userfmt halike hv ht]

/-- A record or a struct is formatted through segments for those of the
master as through the master's own. -/
theorem formatRecord_for {fmt' : List Segment} (hsame : SameText E m)
    (hrefers : ∀ seg ∈ fmt, seg.Refers m) (hown : List.Forall₂ Cloned m.atts own)
    (hsegs : List.Forall₂ (SegmentFor own) fmt fmt') (hv : v.Like v') {t t' : StructState}
    (ht : t.Like t') (entry : Option PosixLogEntry) :
    formatRecord E entry (fun w f => formatWanted E t m m.atts v w f) fmt
      = formatRecord E entry (fun w f => formatWanted E t' m own v' w f) fmt' := by
  have hloop : formatSegments E entry (fun w f => formatWanted E t m m.atts v w f) fmt
      = formatSegments E entry (fun w f => formatWanted E t' m own v' w f) fmt' := by
    induction hsegs with
    | nil => rfl
    | cons hseg _ ih =>
      rw [formatSegments, formatSegments,
        formatSegment_for hsame hown hseg (hrefers _ List.mem_cons_self) hv ht entry,
        ih fun seg hmem => hrefers seg (List.mem_cons_of_mem _ hmem)]
  have hempty : fmt.isEmpty = fmt'.isEmpty := by cases hsegs <;> rfl
  rw [formatRecord, formatRecord, hempty, hloop]

def formatMembers (E : Surroundings) (m : Members) (fmt : List Segment) (st : StructState) (sub : Values) :
    Text :=
  formatRecord E none (fun w f => formatWanted E st m (templateOf st.owner m fmt).atts sub w f)
    (templateOf st.owner m fmt).parsedFormat

theorem formatMembers_alike (hsame : SameText E m) (hindexed : m.Indexed)
    (hrefers : ∀ seg ∈ fmt, seg.Refers m) :
    FormatAlike (formatMembers E m fmt) (formatMembers E m fmt) := by
  intro st st' v v' hst hv
  unfold formatMembers
  have hmaster {t : StructState} {u u' : Values} (ht : st.Like t) (hu : u.Like u') :=
    formatRecord_for hsame hrefers (templateOf_cloned t.owner m fmt)
      (templateOf_segments t.owner hindexed hrefers) hu ht none
  rw [← hmaster rfl (.refl v), ← hmaster hst hv]

/-- What has a scoped name is found whoever's the struct is. -/
theorem formatWanted_path (hsame : SameText E m) (segs : List Segment) {st st' : StructState}
    (hst : st.Like st') (hv : v.Like v') (names : List String) (f : Option String) :
    formatWanted E st m (templateOf st.owner m segs).atts v (.path names) f
      = formatWanted E st' m (templateOf st'.owner m segs).atts v' (.path names) f := by
  have hmaster {t : StructState} {u u' : Values} (ht : st.Like t) (hu : u.Like u') :=
    hsame _ _ _ _ u u' st t f (alike_path (templateOf_cloned t.owner m segs) names) hu ht
  rw [← hmaster rfl (.refl v), ← hmaster hst hv]

/-- By induction on the attributes of a master, and those of its structs. -/
theorem formatWanted_alike (hcompiled : m.Compiled) : SameText E m := by
  induction m with
  | nil =>
    intro own own' w w' v v' t t' f _ _ _
    simp [formatWanted]
  | base a₀ ty init rest ih =>
    intro own own' w w' v v' t t' f halike hv ht
    cases halike with
    | nil => simp [formatWanted]
    | @cons x y own own' hxy halike =>
      obtain ⟨p, a⟩ := x
      obtain ⟨p', a'⟩ := y
      obtain ⟨hshown, hlook⟩ : a.shown = a'.shown ∧ w.look p a = w'.look p' a' := hxy
      cases hv with
      | nil => simp [formatWanted]
      | @att s _ _ _ _ _ _ hst hsub hrest =>
        obtain ⟨hheld, -, -⟩ := heldBy_like init s hshown hst hsub
        simp only [formatWanted, hheld, formatTmplBase_alike E _ hshown ht]
        rw [hlook]
        cases w'.look p' a' with
        | this => rfl
        | inside _ => rfl
        | no => exact ih hcompiled own own' w w' _ _ t t' f halike hrest ht
  | struct a₀ aligned sub segs init rest ihsub ihrest =>
    obtain ⟨⟨hindexed, hrefers, hsubcompiled⟩, hrestcompiled⟩ := hcompiled
    have hsame := ihsub hsubcompiled
    intro own own' w w' v v' t t' f halike hv ht
    cases halike with
    | nil => simp [formatWanted]
    | @cons x y own own' hxy halike =>
      obtain ⟨p, a⟩ := x
      obtain ⟨p', a'⟩ := y
      obtain ⟨hshown, hlook⟩ : a.shown = a'.shown ∧ w.look p a = w'.look p' a' := hxy
      cases hv with
      | nil => simp [formatWanted]
      | @att s st st' vsub vsub' _ _ hst hsub hrest =>
        have hheld := heldBy_like init s hshown hst hsub
        simp only [formatWanted]
        rw [hlook]
        generalize heldBy a init s st vsub = held at hheld ⊢
        generalize heldBy a' init s st' vsub' = held' at hheld ⊢
        obtain ⟨s₁, st₁, sub₁⟩ := held
        obtain ⟨s₂, st₂, sub₂⟩ := held'
        obtain ⟨hs, hst₁, hsub₁⟩ := hheld
        dsimp only at hs hst₁ hsub₁ ⊢
        subst hs
        cases w'.look p' a' with
        | this =>
          exact congrArg some (formatTmplStruct_like E (formatMembers_alike hsame hindexed hrefers)
            hshown s₁ hst₁ hsub₁ f)
        | inside names =>
          simp only [isArray_alike hshown]
          split
          · rfl
          · cases hst₁ with
            | none => rfl
            | some hst₁ => exact formatWanted_path hsame segs hst₁ hsub₁ names f
        | no => exact ihrest hrestcompiled own own' w w' _ _ t t' f halike hrest ht

end Formatting

/-! ## A clone of a master -/

namespace MasterTmpl

/-- `_evlCloneTemplate`. -/
def clone (t : MasterTmpl) : TmplObj := templateOf .clone t.members t.parsedFormat

def ClonedFormat (t : MasterTmpl) (fmt : List Segment) : Prop :=
  List.Forall₂ (ClonedSegment t.members.atts t.clone.atts) t.parsedFormat fmt

end MasterTmpl

/-- `fs_stringfmt`. -/
def Segment.stringfmt : Segment → Bool
  | .string _ => false
  | .member _ _ stringfmt | .attname _ _ stringfmt | .attr _ _ stringfmt => stringfmt

/-- All that a segment says is in the clone's, and its attribute is one of
the clone's. -/
def CarriedOver (own : List (AttPtr × AttInfo)) (seg seg' : Segment) : Prop :=
  SegmentFor own seg seg' ∧ seg'.stringfmt = seg.stringfmt

/-- A clone is populated as the master is laid out, and formatted as the
master would be, with masters for all its structs; its segments say what the
master's do. -/
structure ClonesAlike (t : MasterTmpl) : Prop where
  shape : t.members.shape t.clone = t.members.shape (templateOf .master t.members t.parsedFormat)
  text : ∀ (E : Surroundings) (entry : PosixLogEntry) (st : StructState) (v : Values) (fmt : List Segment),
    t.ClonedFormat fmt →
      formatRecord E (some entry) (fun w f => formatWanted E st t.members t.clone.atts v w f) fmt
        = formatRecordFromTemplate E entry st.ofMaster t.members t.parsedFormat v.ofMaster
  segments : ∀ fmt, t.ClonedFormat fmt → List.Forall₂ (CarriedOver t.clone.atts) t.parsedFormat fmt

theorem MasterTmpl.text_eq (t : MasterTmpl) (E : Surroundings) (entry : PosixLogEntry) (st : StructState)
    (v : Values) {fmt : List Segment} (h : t.ClonedFormat fmt) :
    formatRecord E (some entry) (fun w f => formatWanted E st t.members t.clone.atts v w f) fmt
      = formatRecordFromTemplate E entry st.ofMaster t.members t.parsedFormat v.ofMaster := by
  have hlike : st.ofMaster.Like st := rfl
  exact (formatRecord_for (formatWanted_alike t.compiled) t.refers
    (templateOf_cloned .clone t.members t.parsedFormat) (clone_segments t.indexed t.refers h)
    v.like_ofMaster.symm hlike (some entry)).symm

theorem carriedOver_of_ne {seg seg' : Segment} (h : ClonedSegment src own seg seg')
    (hne : ∀ p userfmt stringfmt, seg ≠ .attr p userfmt stringfmt) : CarriedOver own seg seg' := by
  obtain ⟨left, rfl⟩ := h
  cases seg with
  | string text => exact ⟨.string text, rfl⟩
  | member m userfmt stringfmt => exact ⟨.member m userfmt stringfmt, rfl⟩
  | attname path userfmt stringfmt => exact ⟨.attname path userfmt stringfmt, rfl⟩
  | attr p userfmt stringfmt => exact absurd rfl (hne p userfmt stringfmt)

theorem carriedOver_of_forall {fmt fmt' : List Segment}
    (h : List.Forall₂ (ClonedSegment src own) fmt fmt')
    (hno : ∀ p userfmt stringfmt, .attr p userfmt stringfmt ∉ fmt) :
    List.Forall₂ (CarriedOver own) fmt fmt' := by
  induction h with
  | nil => exact .nil
  | @cons seg _ fmt _ hseg _ ih =>
    refine .cons (carriedOver_of_ne hseg fun p userfmt stringfmt heq => ?_)
      (ih fun p userfmt stringfmt hmem => hno p userfmt stringfmt (List.mem_cons_of_mem seg hmem))
    exact hno p userfmt stringfmt (heq ▸ List.mem_cons_self)

/-- The format of a clone, where `malloc` leaves the same everywhere. -/
theorem clonedFormat_leftAs (t : MasterTmpl) (left : Bool) :
    t.ClonedFormat (t.parsedFormat.map fun seg => (cloneSegment t.members.atts t.clone.atts seg).leftAs left) :=
  List.forall₂_map_right_iff.2 (List.forall₂_same.2 fun _ _ => ⟨left, rfl⟩)

/-- A clone is like its master, whatever was left in memory, if and only if
no segment of the format has an attribute. -/
theorem clone_alike_iff (t : MasterTmpl) :
    ClonesAlike t ↔ ∀ p userfmt stringfmt, .attr p userfmt stringfmt ∉ t.parsedFormat := by
  constructor
  · rintro ⟨-, -, hcarried⟩ p userfmt stringfmt hmem
    have hsegs := hcarried _ (clonedFormat_leftAs t !stringfmt)
    rw [List.forall₂_map_right_iff, List.forall₂_same] at hsegs
    have hleft : (!stringfmt) = stringfmt := (hsegs _ hmem).2
    cases stringfmt <;> cases hleft
  · intro hno
    refine ⟨shape_clone t.indexed t.earlier t.parsedFormat, fun E entry st v fmt h => t.text_eq E entry st v h,
      fun fmt h => carriedOver_of_forall h hno⟩

/-- A string, and a format that has it in a field of five characters. -/
def paddedTmpl : MasterTmpl where
  members := .base ⟨some "name", false, false, false, 0, none, .default, none⟩ .string .nil .nil
  parsedFormat := [.attr (some ⟨.master, 0⟩) (some "%5s") true]
  indexed := by simp [Members.Indexed, Members.atts, Members.attsFrom]
  earlier := by simp [Members.Earlier, AttInfo.Earlier, Members.atts, Members.attsFrom]
  refers := by simp [Segment.Refers, AttPtr.Refers, Members.atts, Members.attsFrom]
  compiled := trivial

/-- Nothing but zeros was left: in the clone `fs_stringfmt` is not set. -/
theorem paddedTmpl_not_carried : ¬ClonesAlike paddedTmpl := by
  rintro ⟨-, -, hcarried⟩
  have hsegs := hcarried _ (clonedFormat_leftAs paddedTmpl false)
  rw [List.forall₂_map_right_iff, List.forall₂_same] at hsegs
  exact absurd (hsegs _ List.mem_cons_self).2 (by decide)

end Evlog.Template
