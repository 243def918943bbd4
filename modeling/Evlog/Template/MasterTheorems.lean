/-
Evlog.Template.MasterTheorems — what a clone has of its master.

A clone has attributes of its own. What formatting sees of them is what it
sees of the master's (`AttInfo.shown`), and they come in the same order
(`templateOf_cloned`). So for a segment the attribute with the same
`ta_index` is the one at the same place (`clone_segments`). A dimension or
a delimiter refers to an attribute before its own, which the clone has by
then, and so the clone is populated as the master is laid out
(`shape_clone`).

Of a segment all is carried over but `fs_stringfmt`, which is not set where
there is an attribute: it is what `malloc` left (`ClonedSegment`).
-/
import Evlog.Template.Master

namespace Evlog.Template

open Evlog.Query (Selector)

/-! ## What is seen of an attribute -/

def DimSpec.shown : DimSpec → DimSpec
  | .attr _ => .attr none
  | d => d

def DelimObj.shown : DelimObj → DelimObj
  | .attr _ => .attr none
  | d => d

def AttInfo.shown (a : AttInfo) : AttInfo :=
  { a with
    isClone := false
    dim := a.dim.map fun d => { d with spec := d.spec.shown }
    delim := a.delim.map DelimObj.shown }

/-! ## Attributes and their clones -/

def Cloned (x y : AttPtr × AttInfo) : Prop := y.1.index = x.1.index ∧ y.2.shown = x.2.shown

theorem cloneAttribute_cloned (src dst : List (AttPtr × AttInfo)) (x : AttPtr × AttInfo) :
    Cloned x (cloneAttribute src dst x) := by
  obtain ⟨p, a⟩ := x
  unfold cloneAttribute
  split
  · exact ⟨rfl, rfl⟩
  · refine ⟨rfl, ?_⟩
    rcases a with ⟨_, _, _, _, _, _ | ⟨_, _ | _ | _ | _ | _ | _ | _⟩, _, _ | _ | _ | _⟩ <;> rfl

theorem cloneAttributes_cloned (src dst rest : List (AttPtr × AttInfo)) :
    ∃ new, cloneAttributes src dst rest = dst ++ new ∧ List.Forall₂ Cloned rest new := by
  induction rest generalizing dst with
  | nil => exact ⟨[], by simp [cloneAttributes], .nil⟩
  | cons x rest ih =>
    obtain ⟨new, hnew, hcloned⟩ := ih (dst ++ [cloneAttribute src dst x])
    refine ⟨cloneAttribute src dst x :: new, ?_, .cons (cloneAttribute_cloned src dst x) hcloned⟩
    rw [cloneAttributes, hnew, List.append_assoc, List.singleton_append]

theorem cloneAttribute_name (src dst : List (AttPtr × AttInfo)) (x : AttPtr × AttInfo) :
    (cloneAttribute src dst x).2.name = x.2.name :=
  (congrArg AttInfo.name (cloneAttribute_cloned src dst x).2 :)

theorem cloneAttribute_isConst (src dst : List (AttPtr × AttInfo)) (x : AttPtr × AttInfo) :
    (cloneAttribute src dst x).2.isConst = x.2.isConst :=
  (congrArg AttInfo.isConst (cloneAttribute_cloned src dst x).2 :)

variable {src dst new l atts own : List (AttPtr × AttInfo)} {x : AttPtr × AttInfo}

theorem cloneAttribute_eq (h : ¬x.2.isConst = true) : cloneAttribute src dst x =
      ({ x.1 with owner := .clone },
        { x.2 with
          isClone := true
          dim := x.2.dim.map (·.clone src dst)
          delim := x.2.delim.map (·.clone src dst) }) :=
  if_neg h

theorem cloneAttributes_cons (h : cloneAttributes src dst (x :: l) = dst ++ new) :
    ∃ more, new = cloneAttribute src dst x :: more ∧
      cloneAttributes src (dst ++ [cloneAttribute src dst x]) l = dst ++ [cloneAttribute src dst x] ++ more := by
  obtain ⟨more, hmore, -⟩ := cloneAttributes_cloned src (dst ++ [cloneAttribute src dst x]) l
  refine ⟨more, ?_, hmore⟩
  rw [cloneAttributes, hmore, List.append_assoc, List.append_cancel_left_eq] at h
  exact h.symm

/-- Master or clone, the attributes are those of the master. -/
theorem templateOf_cloned (owner : Owner) (m : Members) (fmt : List Segment) :
    List.Forall₂ Cloned m.atts (templateOf owner m fmt).atts := by
  cases owner with
  | master => exact List.forall₂_same.2 fun _ _ => ⟨rfl, rfl⟩
  | clone =>
    obtain ⟨new, hnew, hcloned⟩ := cloneAttributes_cloned m.atts [] m.atts
    rw [List.nil_append] at hnew
    show List.Forall₂ Cloned m.atts (cloneAttributes m.atts [] m.atts)
    rwa [hnew]

theorem attsFrom_index (m : Members) (i : Nat) :
    (m.attsFrom i).map (fun x => x.1.index) = List.range' i (m.attsFrom i).length := by
  induction m generalizing i with
  | nil => rfl
  | base _ _ _ rest ih => simp [Members.attsFrom, List.range'_succ, ih]
  | struct _ _ _ _ _ rest _ ih => simp [Members.attsFrom, List.range'_succ, ih]

variable {m : Members}

theorem attsFrom_master {i : Nat} (hx : x ∈ m.attsFrom i) : x.1.owner = .master := by
  induction m generalizing i with
  | nil => cases hx
  | base _ _ _ rest ih =>
    rcases List.mem_cons.1 hx with rfl | hx
    · rfl
    · exact ih hx
  | struct _ _ _ _ _ rest _ ih =>
    rcases List.mem_cons.1 hx with rfl | hx
    · rfl
    · exact ih hx

theorem index_at {k : Nat} (hx : m.atts[k]? = some x) : x.1.index = k := by
  have hlt : k < m.atts.length := (List.getElem?_eq_some_iff.1 hx).1
  have hindex : (List.range' 0 m.atts.length)[k]? = some x.1.index := by
    rw [Members.atts, ← attsFrom_index, List.getElem?_map, ← Members.atts, hx]
    rfl
  simpa [hlt, eq_comm] using hindex

variable {p : AttPtr}

theorem AttPtr.eq_of {q : AttPtr} (howner : p.owner = q.owner) (hindex : p.index = q.index) :
    p = q := by
  cases p
  cases q
  simp_all

theorem cloned_index (h : List.Forall₂ Cloned atts own) :
    own.map (fun y => y.1.index) = atts.map fun x => x.1.index := by
  induction h with
  | nil => rfl
  | cons hxy _ ih => rw [List.map_cons, List.map_cons, hxy.1, ih]

theorem cloned_at (h : List.Forall₂ Cloned atts own) {k : Nat} (hx : atts[k]? = some x) :
    ∃ y, own[k]? = some y ∧ Cloned x y := by
  induction h generalizing k with
  | nil => cases hx
  | cons hxy _ ih =>
    cases k with
    | zero =>
      cases hx
      exact ⟨_, rfl, hxy⟩
    | succ k => exact ih hx

section Places

variable {m : Members} {own : List (AttPtr × AttInfo)} (hown : List.Forall₂ Cloned m.atts own)

include hown

theorem Cloned.places : own.map (fun y => y.1.index) = List.range' 0 own.length := by
  rw [cloned_index hown, ← hown.length_eq]
  exact attsFrom_index m 0

theorem Cloned.unique {y z : AttPtr × AttInfo} (hy : y ∈ own) (hz : z ∈ own)
    (hindex : y.1.index = z.1.index) : y = z := by
  have hnodup : (own.map fun y => y.1.index).Nodup := by
    rw [Cloned.places hown]
    exact List.nodup_range'
  exact List.inj_on_of_nodup_map hnodup hy hz hindex

theorem Cloned.attributeAt {y : AttPtr × AttInfo} (hy : y ∈ own) : attributeAt own y.1 = some y.2 := by
  obtain ⟨z, hz⟩ : ∃ z, own.find? (·.1 == y.1) = some z :=
    Option.isSome_iff_exists.1 (List.find?_isSome.2 ⟨y, hy, beq_self_eq_true y.1⟩)
  have hptr : z.1 = y.1 := by simpa using List.find?_some hz
  have hzy := Cloned.unique hown (List.mem_of_find?_eq_some hz) hy (congrArg AttPtr.index hptr)
  rw [Template.attributeAt, hz, hzy]
  rfl

end Places

/-! ## Masters -/

/-- `ta_index` says which attribute of the template it is. -/
def Members.Indexed (m : Members) : Prop := ∀ x ∈ m.atts, x.2.index = x.1.index

def AttPtr.Refers (m : Members) (p : AttPtr) : Prop := p.owner = .master ∧ p.index < m.atts.length

/-- The attribute of a segment is one of the master. A name that is left in
a format has a dot, by `_evlTmplParseFormat`. -/
def Segment.Refers (m : Members) : Segment → Prop
  | .attr (some p) _ _ => p.Refers m
  | .attname path _ _ => 2 ≤ path.length
  | _ => True

/-- The dimension and the delimiter refer to attributes before the `i`-th. -/
def AttInfo.Earlier (a : AttInfo) (i : Nat) : Prop :=
  (∀ id p, a.dim = some ⟨id, .attr p⟩ → ∃ q, p = some q ∧ q.owner = .master ∧ q.index < i) ∧
    ∀ p, a.delim = some (.attr p) → ∃ q, p = some q ∧ q.owner = .master ∧ q.index < i

def Members.Earlier (m : Members) : Prop := ∀ x ∈ m.atts, x.2.Earlier x.1.index

/-- The structs among the attributes are masters as the compiler makes
them. -/
def Members.Compiled : Members → Prop
  | .nil => True
  | .base _ _ _ rest => rest.Compiled
  | .struct _ _ sub fmt _ rest =>
    (sub.Indexed ∧ (∀ seg ∈ fmt, seg.Refers sub) ∧ sub.Compiled) ∧ rest.Compiled

structure MasterTmpl where
  members : Members
  parsedFormat : List Segment
  indexed : members.Indexed
  earlier : members.Earlier
  refers : ∀ seg ∈ parsedFormat, seg.Refers members
  compiled : members.Compiled

theorem AttPtr.Refers.at (h : p.Refers m) : ∃ a, m.atts[p.index]? = some (p, a) := by
  have hlt : p.index < m.atts.length := h.2
  have hx : m.atts[p.index]? = some m.atts[p.index] := List.getElem?_eq_getElem h.2
  have howner := attsFrom_master (List.mem_of_getElem? hx)
  refine ⟨m.atts[p.index].2, hx.trans (congrArg some (Prod.ext ?_ rfl))⟩
  exact AttPtr.eq_of (howner.trans h.1.symm) (index_at hx)

theorem AttPtr.Refers.attributeAt (h : p.Refers m) (hindexed : m.Indexed) :
    ∃ a, attributeAt m.atts p = some a ∧ a.index = p.index ∧ m.atts[p.index]? = some (p, a) := by
  obtain ⟨a, ha⟩ := h.at
  have hmem := List.mem_of_getElem? ha
  exact ⟨a, Cloned.attributeAt (templateOf_cloned .master m []) hmem, hindexed _ hmem, ha⟩

/-! ## Segments and their clones -/

/-- A segment of a template with these attributes, for a segment of the
master. -/
inductive SegmentFor (own : List (AttPtr × AttInfo)) : Segment → Segment → Prop
  | string (text : String) : SegmentFor own (.string text) (.string text)
  | member (m : Selector) (userfmt : Option String) (stringfmt : Bool) :
      SegmentFor own (.member m userfmt stringfmt) (.member m userfmt stringfmt)
  | attname (path : List String) (userfmt : Option String) (stringfmt : Bool) :
      SegmentFor own (.attname path userfmt stringfmt) (.attname path userfmt stringfmt)
  | null (userfmt : Option String) (stringfmt stringfmt' : Bool) :
      SegmentFor own (.attr none userfmt stringfmt) (.attr none userfmt stringfmt')
  | attr {p p' : AttPtr} (userfmt : Option String) (stringfmt stringfmt' : Bool)
      (hmem : p' ∈ own.map Prod.fst) (hindex : p'.index = p.index) :
      SegmentFor own (.attr (some p) userfmt stringfmt) (.attr (some p') userfmt stringfmt')

/-- Where there is an attribute, `fs_stringfmt` is what `malloc` left. -/
def Segment.leftAs (left : Bool) : Segment → Segment
  | .attr p userfmt _ => .attr p userfmt left
  | seg => seg

/-- What becomes of a segment, with anything left in memory. -/
def ClonedSegment (src dst : List (AttPtr × AttInfo)) (seg seg' : Segment) : Prop :=
  ∃ left, seg' = (cloneSegment src dst seg).leftAs left

theorem clonedSegment_cloneSegment (src dst : List (AttPtr × AttInfo)) (seg : Segment) :
    ClonedSegment src dst seg (cloneSegment src dst seg) := by
  cases seg <;> exact ⟨false, rfl⟩

/-- `_evlTmplGetNthAttribute` finds the attribute of the clone. -/
theorem sameAttribute_eq (hown : List.Forall₂ Cloned m.atts own) (hindexed : m.Indexed)
    (hp : p.Refers m) :
    ∃ p', sameAttribute m.atts own (some p) = some p' ∧ p' ∈ own.map Prod.fst ∧ p'.index = p.index := by
  obtain ⟨a, ha, hindex, hat⟩ := hp.attributeAt hindexed
  obtain ⟨y, hy, hcloned⟩ := cloned_at hown hat
  refine ⟨y.1, ?_, List.mem_map.2 ⟨y, List.mem_of_getElem? hy, rfl⟩, hcloned.1⟩
  simp [sameAttribute, ha, hindex, hy]

section Segments

variable {m : Members} {fmt : List Segment}

theorem master_segments (hrefers : ∀ seg ∈ fmt, seg.Refers m) : List.Forall₂ (SegmentFor m.atts) fmt fmt := by
  refine List.forall₂_same.2 fun seg hseg => ?_
  have hrefer := hrefers seg hseg
  cases seg with
  | string text => exact .string text
  | member m userfmt stringfmt => exact .member m userfmt stringfmt
  | attname path userfmt stringfmt => exact .attname path userfmt stringfmt
  | attr p userfmt stringfmt =>
    cases p with
    | none => exact .null userfmt stringfmt stringfmt
    | some p =>
      obtain ⟨a, ha⟩ := AttPtr.Refers.at hrefer
      exact .attr userfmt stringfmt stringfmt
        (List.mem_map.2 ⟨_, List.mem_of_getElem? ha, rfl⟩) rfl

/-- The segments of a clone are those of its master, whatever was left in
memory. -/
theorem clone_segments (hindexed : m.Indexed) (hrefers : ∀ seg ∈ fmt, seg.Refers m) {fmt' : List Segment}
    (h : List.Forall₂ (ClonedSegment m.atts (templateOf .clone m fmt).atts) fmt fmt') :
    List.Forall₂ (SegmentFor (templateOf .clone m fmt).atts) fmt fmt' := by
  have hown := templateOf_cloned .clone m fmt
  generalize (templateOf .clone m fmt).atts = own at h hown ⊢
  induction h with
  | nil => exact .nil
  | @cons seg seg' _ _ hseg _ ih =>
    refine .cons ?_ (ih fun seg hmem => hrefers seg (List.mem_cons_of_mem _ hmem))
    have hrefer := hrefers seg List.mem_cons_self
    obtain ⟨left, rfl⟩ := hseg
    cases seg with
    | string text => exact .string text
    | member m userfmt stringfmt => exact .member m userfmt stringfmt
    | attname path userfmt stringfmt => exact .attname path userfmt stringfmt
    | attr p userfmt stringfmt =>
      cases p with
      | none => exact .null userfmt stringfmt left
      | some p =>
        obtain ⟨p', hsame, hmem, hindex⟩ := sameAttribute_eq hown hindexed hrefer
        rw [cloneSegment, hsame]
        exact .attr userfmt stringfmt left hmem hindex

/-- Master or clone, the segments are those of the master. -/
theorem templateOf_segments (owner : Owner) (hindexed : m.Indexed) (hrefers : ∀ seg ∈ fmt, seg.Refers m) :
    List.Forall₂ (SegmentFor (templateOf owner m fmt).atts) fmt (templateOf owner m fmt).parsedFormat := by
  cases owner with
  | master => exact master_segments hrefers
  | clone =>
    refine clone_segments hindexed hrefers ?_
    show List.Forall₂ _ fmt (fmt.map (cloneSegment m.atts (templateOf .clone m fmt).atts))
    exact List.forall₂_map_right_iff.2
      (List.forall₂_same.2 fun seg _ => clonedSegment_cloneSegment _ _ seg)

end Segments

/-! ## What is populated -/

section Shapes

variable {m : Members} {own : List (AttPtr × AttInfo)} (hown : List.Forall₂ Cloned m.atts own)

include hown

/-- The attribute of a clone has the name of the master's. -/
theorem nameAt_sameAttribute (hindexed : m.Indexed) {dst new : List (AttPtr × AttInfo)} (hsplit : own = dst ++ new)
    {q : AttPtr} (howner : q.owner = .master) (hlt : q.index < dst.length) :
    nameAt own (sameAttribute m.atts dst (some q)) = nameAt m.atts (some q) := by
  have hlt' : q.index < m.atts.length := by
    rw [hown.length_eq, hsplit, List.length_append]
    omega
  obtain ⟨a, ha, hindex, hat⟩ := AttPtr.Refers.attributeAt ⟨howner, hlt'⟩ hindexed
  obtain ⟨y, hy, hcloned⟩ := cloned_at hown hat
  have hname : y.2.name = a.name := (congrArg AttInfo.name hcloned.2 :)
  have hdst : dst[q.index]? = some y := by rw [← hy, hsplit, List.getElem?_append_left hlt]
  have hsame : sameAttribute m.atts dst (some q) = some y.1 := by
    simp [sameAttribute, ha, hindex, hdst]
  have hatt := Cloned.attributeAt hown (List.mem_of_getElem? hy)
  simp only [nameAt, hsame, ha, Option.bind_some, hatt, hname]

variable (hindexed : m.Indexed) {dst new : List (AttPtr × AttInfo)} (hsplit : own = dst ++ new) {a : AttInfo}
  (ha : a.Earlier dst.length)

include hindexed hsplit ha

theorem dimension_clone {d : DimObj} (hd : a.dim = some d) :
    (d.clone m.atts dst).dimension own = d.dimension m.atts := by
  obtain ⟨id, spec⟩ := d
  cases spec with
  | attr p =>
    obtain ⟨q, rfl, howner, hlt⟩ := ha.1 id p hd
    simp only [DimObj.clone, DimObj.dimension, nameAt_sameAttribute hown hindexed hsplit howner hlt]
  | _ => rfl

theorem delimiter_clone {d : DelimObj} (hd : a.delim = some d) :
    (d.clone m.atts dst).delimiter own = d.delimiter m.atts := by
  cases d with
  | attr p =>
    obtain ⟨q, rfl, howner, hlt⟩ := ha.2 p hd
    simp only [DelimObj.clone, DelimObj.delimiter, nameAt_sameAttribute hown hindexed hsplit howner hlt]
  | _ => rfl

theorem delimiters_clone :
    (a.delim.map (·.clone m.atts dst)).map (·.delimiter own) = a.delim.map (·.delimiter m.atts) := by
  cases hd : a.delim with
  | none => rfl
  | some d => simp only [Option.map_some, delimiter_clone hown hindexed hsplit ha hd]

theorem field_clone (p : AttPtr) (ty : BaseType) :
    (cloneAttribute m.atts dst (p, a)).2.field own ty = a.field m.atts ty := by
  unfold cloneAttribute AttInfo.field
  by_cases hconst : a.isConst = true
  · simp only [if_pos hconst]
  · rw [if_neg hconst, if_neg hconst]
    dsimp only
    rw [if_neg hconst, delimiters_clone hown hindexed hsplit ha]
    cases hd : a.dim with
    | none => rfl
    | some d =>
      have hdim := dimension_clone hown hindexed hsplit ha hd
      obtain ⟨id, spec⟩ := d
      cases spec <;> simp_all [DimObj.clone]

end Shapes

theorem earlier_tail {c : AttPtr × AttInfo}
    (h : ∀ (k : Nat) (y : AttPtr × AttInfo), (x :: l)[k]? = some y → y.2.Earlier (dst.length + k)) :
    ∀ (k : Nat) (y : AttPtr × AttInfo), l[k]? = some y → y.2.Earlier ((dst ++ [c]).length + k) := by
  intro k y hy
  have hy := h (k + 1) y hy
  rwa [List.length_append, List.length_singleton, Nat.add_assoc, Nat.add_comm 1 k]

/-- By induction on the attributes; those before them have been cloned. -/
theorem shapeWith_clone (hown : List.Forall₂ Cloned m.atts own) (hindexed : m.Indexed)
    (rest : Members) (hsplit : own = dst ++ new)
    (hclone : cloneAttributes m.atts dst l = dst ++ new)
    (hearlier : ∀ (k : Nat) (x : AttPtr × AttInfo), l[k]? = some x → x.2.Earlier (dst.length + k)) :
    rest.shapeWith own new = rest.shapeWith m.atts l := by
  induction rest generalizing l dst new with
  | nil => simp [Members.shapeWith]
  | base a₀ ty init rest ih =>
    cases l with
    | nil =>
      rw [cloneAttributes, List.self_eq_append_right] at hclone
      subst hclone
      simp [Members.shapeWith]
    | cons x l =>
      obtain ⟨more, rfl, hmore⟩ := cloneAttributes_cons hclone
      have hrest := ih (hsplit.trans (List.append_cons ..)) hmore (earlier_tail hearlier)
      have hfield := field_clone hown hindexed hsplit (hearlier 0 x rfl) x.1 ty
      simp only [Members.shapeWith, hrest, hfield, cloneAttribute_name]
  | struct a₀ aligned sub fmt init rest _ ih =>
    cases l with
    | nil =>
      rw [cloneAttributes, List.self_eq_append_right] at hclone
      subst hclone
      simp [Members.shapeWith]
    | cons x l =>
      obtain ⟨more, rfl, hmore⟩ := cloneAttributes_cons hclone
      have hrest := ih (hsplit.trans (List.append_cons ..)) hmore (earlier_tail hearlier)
      simp only [Members.shapeWith, hrest, cloneAttribute_name, cloneAttribute_isConst]
      split
      · rfl
      · next hconst =>
        have hdelims := delimiters_clone hown hindexed hsplit (hearlier 0 x rfl)
        rw [cloneAttribute_eq hconst]
        dsimp only
        rw [hdelims]
        cases hd : x.2.dim with
        | none => rfl
        | some d =>
          simp only [Option.map_some, dimension_clone hown hindexed hsplit (hearlier 0 x rfl) hd]

theorem shape_clone (hindexed : m.Indexed) (hearlier : m.Earlier) (fmt : List Segment) :
    m.shape (templateOf .clone m fmt) = m.shape (templateOf .master m fmt) := by
  have hown := templateOf_cloned .clone m fmt
  refine shapeWith_clone hown hindexed m (List.nil_append _).symm (List.nil_append _).symm fun k x hx => ?_
  rw [List.length_nil, Nat.zero_add, ← index_at hx]
  exact hearlier x (List.mem_of_getElem? hx)

end Evlog.Template
