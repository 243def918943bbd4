/-
Evlog.Query.AttListTheorems — the list of non-standard attributes and the
nodes that point into it.

Normalization builds the list entry by entry, while it walks the tree.
`AttListInvariant` says what the list and the tree then are to each other:
no name is in it twice, an entry knows its position, the nodes point to
the entries of their names, and no entry is there without a node.
The walk comes down to its calls of `registerNonStdAtt`
(`evlQNormalizeTree_calls`), and what a call keeps any number of them
keeps (`runCalls_keeps`). Dividing the tree neither makes nor loses a node
that names an attribute (`DividedFrom.mem_nsaNodes`).
-/
import Evlog.Query.OptimizeTheorems
import Evlog.Query.Create

namespace Evlog.Query

open Evlog.Lib

/-! ## Nodes that name an attribute -/

/-- The `nt_nsaname` nodes in a tree, wherever they stand: the entry each
points to, and its name. -/
def PNode.nsaNodes : PNode → List (Nat × String)
  | .nsaname _ i s => [(i, s)]
  | .op _ _ l r => l.nsaNodes ++ r.nsaNodes
  | _ => []

/-- What is known of the list and a tree that refers to it. -/
structure AttListInvariant (nsAtts : List NonStdAtt) (t : PNode) : Prop where
  names_nodup : (nsAtts.map (·.nsaName)).Nodup
  positionIndexed : PositionIndexed nsAtts
  points : ∀ i s, (i, s) ∈ t.nsaNodes → ∃ nsa, nsAtts[i]? = some nsa ∧ nsa.nsaName = s
  referenced : ∀ i, i < nsAtts.length → ∃ s, (i, s) ∈ t.nsaNodes

variable {r q v v' t q' : PNode}

theorem nsaNodes_of_isVal (h : r.isVal = true) : r.nsaNodes = [] := by
  cases r with
  | val a m v => rfl
  | _ => cases h

theorem nsaNodes_of_isText (h : r.isText = true) : r.nsaNodes = [] := by
  cases r with
  | string a s => rfl
  | regex a s => rfl
  | _ => cases h

theorem nsaNodes_not (a : Nat) (e : PNode) : (PNode.op a .not e .null).nsaNodes = e.nsaNodes := by
  simp [PNode.nsaNodes]

/-- The nodes of a normalized tree are those of its leaves. -/
theorem mem_nsaNodes_iff (h : Normalized q) (x : Nat × String) :
    x ∈ q.nsaNodes ↔ ∃ n ∈ q.leaves, x ∈ n.nsaNodes := by
  induction h with
  | leaf n hn => simp [leaves_of_normalizedLeaf hn]
  | not a e he ih => rw [nsaNodes_not, leaves_not, ih]
  | junct j a l r hl hr ihl ihr =>
    rw [PNode.nsaNodes, List.mem_append, ihl, ihr, leaves_junct]
    simp only [List.mem_append, or_and_right, exists_or]

/-! ## The calls of `registerNonStdAtt` -/

/-- A call: the name, and whether the entry is then marked as compared
with a number. -/
structure AttCall where
  attName : String
  numeric : Bool

/-- The position the call returns, and the list after it. -/
def AttCall.run (c : AttCall) (nsAtts : List NonStdAtt) : Nat × List NonStdAtt :=
  let (i, nsAtts) := registerNonStdAtt c.attName nsAtts
  (i, if c.numeric then nsAtts.modify i fun nsa => { nsa with numeric := true } else nsAtts)

/-- One call after the other: the nodes that hold what they returned, and
the list in the end. -/
def runCalls : List AttCall → List NonStdAtt → List (Nat × String) × List NonStdAtt
  | [], nsAtts => ([], nsAtts)
  | c :: cs, nsAtts =>
    let (i, nsAtts) := c.run nsAtts
    let (nodes, nsAtts) := runCalls cs nsAtts
    ((i, c.attName) :: nodes, nsAtts)

def attCall? : PNode → Option AttCall
  | .name _ s => if (stdSelector s).isNone then some ⟨s, false⟩ else none
  | .op _ _ (.name _ s) v => if (stdSelector s).isNone then some ⟨s, v.isVal⟩ else none
  | _ => none

def attCalls (t : PNode) : List AttCall := t.leaves.filterMap attCall?

theorem runCalls_append (cs cs' : List AttCall) (nsAtts : List NonStdAtt) :
    runCalls (cs ++ cs') nsAtts =
      ((runCalls cs nsAtts).1 ++ (runCalls cs' (runCalls cs nsAtts).2).1,
        (runCalls cs' (runCalls cs nsAtts).2).2) := by
  induction cs generalizing nsAtts with
  | nil => rfl
  | cons c cs ih => simp only [List.cons_append, runCalls, ih]

variable {sys : System}

theorem normalizeStdComparison_nsaNodes {sel : Selector} {attName : String} {op : Op}
    (hv : ParsedVal v) (h : normalizeStdComparison sys sel attName op v = .ok v') :
    v'.nsaNodes = [] := by
  rcases normalizeStdComparison_ok hv h with (hval | ⟨htext, -⟩) | ⟨-, -, ⟨c, m, rfl⟩, rfl⟩
  · exact nsaNodes_of_isVal hval
  · exact nsaNodes_of_isText htext
  · rfl

variable {nsAtts nsAtts' : List NonStdAtt}

theorem normalizeComparisonWithNonStdAtt_calls {i : Nat} {attName : String} {op : Op}
    (hv : ParsedVal v)
    (h : normalizeComparisonWithNonStdAtt sys i attName op v nsAtts = .ok (v', nsAtts')) :
    v'.nsaNodes = [] ∧
      nsAtts' = if v.isVal then nsAtts.modify i fun nsa => { nsa with numeric := true } else nsAtts := by
  cases hv with
  | val a m w =>
    obtain ⟨r₁, h₁, h₂⟩ := except_bind_eq_ok h
    cases h₂
    exact ⟨nsaNodes_of_isVal (normalizeIntegerAtt_ok h₁).2, rfl⟩
  | string a s =>
    obtain ⟨r₁, h₁, h₂⟩ := except_bind_eq_ok h
    cases h₂
    exact ⟨nsaNodes_of_isText (normalizeStringOrRegex_ok h₁), rfl⟩
  | name a s =>
    obtain ⟨r₁, h₁, -⟩ := except_bind_eq_ok h
    exact absurd h₁ not_semanticError

variable {purpose : Purpose}

theorem normalizeComparison_calls {a b : Nat} {o : Op} {s : String} {n : PNode} (hv : ParsedVal v)
    (h : normalizeComparison sys purpose a o (.name b s) v nsAtts = .ok (n, nsAtts')) :
    runCalls (attCall? (.op a o (.name b s) v)).toList nsAtts = (n.nsaNodes, nsAtts') := by
  obtain ⟨⟨left, nsAtts₁⟩, h₁, h₂⟩ := except_bind_eq_ok h
  rcases makeAttnameNode_calls h₁ with ⟨sel, hsel, rfl, rfl⟩ | ⟨hsel, rfl, rfl⟩
  · obtain ⟨v', h₃, h₄⟩ := except_bind_eq_ok h₂
    cases h₄
    simp [attCall?, hsel, runCalls, PNode.nsaNodes, normalizeStdComparison_nsaNodes hv h₃]
  · obtain ⟨⟨v', nsAtts₂⟩, h₃, h₄⟩ := except_bind_eq_ok h₂
    cases h₄
    obtain ⟨hright, rfl⟩ := normalizeComparisonWithNonStdAtt_calls hv h₃
    simp [attCall?, hsel, runCalls, AttCall.run, PNode.nsaNodes, hright]

/-- Normalization makes the calls of the leaves, in their order, and what
they return is in the nodes. -/
theorem evlQNormalizeTree_calls (ht : Parsed t)
    (h : evlQNormalizeTree sys purpose t nsAtts = .ok (q, nsAtts')) :
    runCalls (attCalls t) nsAtts = (q.nsaNodes, nsAtts') := by
  unfold attCalls
  induction ht generalizing nsAtts q nsAtts' with
  | leaf t ht =>
    rw [leaves_of_parsedLeaf ht]
    cases ht with
    | name a s =>
      rcases makeAttnameNode_calls h with ⟨sel, hsel, rfl, rfl⟩ | ⟨hsel, rfl, rfl⟩
      · simp [attCall?, hsel, runCalls, PNode.nsaNodes]
      · simp [attCall?, hsel, runCalls, AttCall.run, PNode.nsaNodes]
    | comparison a b o s v ho hv =>
      rw [evlQNormalizeTree_comparison ho] at h
      have hone : [PNode.op a o (.name b s) v].filterMap attCall?
          = (attCall? (.op a o (.name b s) v)).toList := by
        cases hc : attCall? (.op a o (.name b s) v) <;> simp [hc]
      rw [hone, normalizeComparison_calls hv h]
  | not a e he ih =>
    obtain ⟨⟨e', nsAtts₁⟩, h₁, h₂⟩ := except_bind_eq_ok h
    cases h₂
    rw [leaves_not, nsaNodes_not]
    exact ih h₁
  | junct j a l r hl hr ihl ihr =>
    obtain ⟨l', nsAtts₁, r', h₁, h₂, rfl⟩ := evlQNormalizeTree_junct h
    rw [leaves_junct, List.filterMap_append, runCalls_append, ihl h₁, ihr h₂, PNode.nsaNodes]

/-! ## What a call does to the list -/

/-- An entry is appended only if there is none of that name. -/
theorem registerNonStdAtt_names (attName : String) (h : (nsAtts.map (·.nsaName)).Nodup) :
    ((registerNonStdAtt attName nsAtts).2.map (·.nsaName)).Nodup ∧
      nsAtts.length ≤ (registerNonStdAtt attName nsAtts).2.length ∧
      ∀ k, nsAtts.length ≤ k → k < (registerNonStdAtt attName nsAtts).2.length →
        k = (registerNonStdAtt attName nsAtts).1 := by
  unfold registerNonStdAtt
  split
  · exact ⟨h, le_rfl, fun k h₁ h₂ => absurd h₂ (Nat.not_lt.mpr h₁)⟩
  · next hnone =>
    refine ⟨?_, by simp, fun k h₁ h₂ => ?_⟩
    · have hnew : attName ∉ nsAtts.map (·.nsaName) := by
        intro hin
        obtain ⟨nsa, hnsa, rfl⟩ := List.mem_map.mp hin
        simpa using List.findIdx?_eq_none_iff.mp hnone nsa hnsa
      rw [List.map_append, List.map_singleton]
      refine List.nodup_append.mpr ⟨h, List.nodup_singleton _, fun a ha b hb hab => hnew ?_⟩
      obtain rfl : b = attName := List.mem_singleton.mp hb
      exact hab ▸ ha
    · simp only [List.length_append, List.length_cons, List.length_nil] at h₂
      show k = nsAtts.length
      omega

theorem markNumeric_names (i : Nat) (nsAtts : List NonStdAtt) :
    (nsAtts.modify i fun nsa => { nsa with numeric := true }).map (·.nsaName)
      = nsAtts.map (·.nsaName) := by
  apply List.ext_getElem?
  intro k
  rw [List.getElem?_map, List.getElem?_map, List.getElem?_modify]
  cases nsAtts[k]? with
  | none => rfl
  | some nsa =>
    simp only [Option.map_eq_map, Option.map_some]
    split <;> rfl

/-- What a number of calls does: names stay distinct and positions right,
entries keep their places, and a new one is where one of the returned
positions points. -/
structure CallsKeep (nsAtts nsAtts' : List NonStdAtt) (nodes : List (Nat × String)) : Prop where
  names_nodup : (nsAtts'.map (·.nsaName)).Nodup
  positionIndexed : PositionIndexed nsAtts'
  keeps : Extends nsAtts nsAtts'
  points : ∀ i s, (i, s) ∈ nodes → ∃ nsa, nsAtts'[i]? = some nsa ∧ nsa.nsaName = s
  referenced : ∀ i, nsAtts.length ≤ i → i < nsAtts'.length → ∃ s, (i, s) ∈ nodes

theorem AttCall.run_keeps (c : AttCall) (hnames : (nsAtts.map (·.nsaName)).Nodup)
    (hpos : PositionIndexed nsAtts) :
    CallsKeep nsAtts (c.run nsAtts).2 [((c.run nsAtts).1, c.attName)] := by
  obtain ⟨hpos₁, hext₁, nsa, hi, hname⟩ := registerNonStdAtt_spec c.attName hpos
  obtain ⟨hnames₁, -, hnew⟩ := registerNonStdAtt_names c.attName hnames
  -- the mark changes neither names nor positions
  obtain ⟨hsame, hpos₂, hext₂⟩ : (c.run nsAtts).2.map (·.nsaName)
      = (registerNonStdAtt c.attName nsAtts).2.map (·.nsaName) ∧
        PositionIndexed (c.run nsAtts).2 ∧
        Extends (registerNonStdAtt c.attName nsAtts).2 (c.run nsAtts).2 := by
    unfold AttCall.run
    cases c.numeric with
    | false => exact ⟨rfl, hpos₁, .refl _⟩
    | true => exact ⟨markNumeric_names _ _, modify_numeric_spec _ hpos₁⟩
  have hlen : (c.run nsAtts).2.length = (registerNonStdAtt c.attName nsAtts).2.length := by
    simpa using congrArg List.length hsame
  refine ⟨hsame ▸ hnames₁, hpos₂, hext₁.trans hext₂, fun i s hmem => ?_, fun k h₁ h₂ => ?_⟩
  · obtain ⟨rfl, rfl⟩ := Prod.mk.inj (List.mem_singleton.mp hmem)
    obtain ⟨nsa', hi', hname'⟩ := hext₂ _ nsa hi
    exact ⟨nsa', hi', hname'.trans hname⟩
  · obtain rfl := hnew k h₁ (hlen ▸ h₂)
    exact ⟨c.attName, List.mem_singleton_self _⟩

theorem runCalls_keeps (cs : List AttCall) (hnames : (nsAtts.map (·.nsaName)).Nodup)
    (hpos : PositionIndexed nsAtts) :
    CallsKeep nsAtts (runCalls cs nsAtts).2 (runCalls cs nsAtts).1 := by
  induction cs generalizing nsAtts with
  | nil =>
    exact ⟨hnames, hpos, .refl _, by simp [runCalls], fun i h₁ h₂ => absurd h₂ (Nat.not_lt.mpr h₁)⟩
  | cons c cs ih =>
    have hone := c.run_keeps hnames hpos
    have hrest := ih hone.names_nodup hone.positionIndexed
    refine ⟨hrest.names_nodup, hrest.positionIndexed, hone.keeps.trans hrest.keeps,
      fun i s hmem => ?_, fun i h₁ h₂ => ?_⟩
    · rcases List.mem_cons.mp hmem with heq | hmem
      · obtain ⟨nsa, hi, hname⟩ := hone.points i s (List.mem_singleton.mpr heq)
        obtain ⟨nsa', hi', hname'⟩ := hrest.keeps i nsa hi
        exact ⟨nsa', hi', hname'.trans hname⟩
      · exact hrest.points i s hmem
    · rcases Nat.lt_or_ge i (c.run nsAtts).2.length with hlt | hge
      · obtain ⟨s, hs⟩ := hone.referenced i h₁ hlt
        exact ⟨s, List.mem_cons.mpr (.inl (List.mem_singleton.mp hs))⟩
      · obtain ⟨s, hs⟩ := hrest.referenced i hge h₂
        exact ⟨s, List.mem_cons_of_mem _ hs⟩

/-- Normalization leaves the list and the tree as they should be to each
other. -/
theorem evlQNormalizeTree_invariant (ht : Parsed t)
    (h : evlQNormalizeTree sys purpose t [] = .ok (q, nsAtts)) : AttListInvariant nsAtts q := by
  have hkeep := runCalls_keeps (attCalls t) (by simp) positionIndexed_nil
  rw [evlQNormalizeTree_calls ht h] at hkeep
  exact ⟨hkeep.names_nodup, hkeep.positionIndexed, hkeep.points, fun i hi =>
    hkeep.referenced i (by simp) hi⟩

/-! ## The optimized tree -/

theorem Joined.mem_nsaNodes {j : Junctor} {ns : List PNode} (h : Joined j ns t) (x : Nat × String) :
    x ∈ t.nsaNodes ↔ ∃ n ∈ ns, x ∈ n.nsaNodes := by
  induction h with
  | one n => simp
  | cons a n ns t h ih => simp [PNode.nsaNodes, ih]

theorem mem_nsaNodes_operands (j : Junctor) (h : Normalized q) (x : Nat × String) :
    x ∈ q.nsaNodes ↔ ∃ n ∈ operands j q, x ∈ n.nsaNodes := by
  rw [mem_nsaNodes_iff h]
  constructor
  · rintro ⟨leaf, hleaf, hx⟩
    obtain ⟨n, hn, hln⟩ := (mem_leaves_operands j h leaf).mp hleaf
    exact ⟨n, hn, (mem_nsaNodes_iff (normalized_of_mem_operands j h n hn) x).mpr ⟨leaf, hln, hx⟩⟩
  · rintro ⟨n, hn, hx⟩
    obtain ⟨leaf, hln, hx⟩ := (mem_nsaNodes_iff (normalized_of_mem_operands j h n hn) x).mp hx
    exact ⟨leaf, (mem_leaves_operands j h leaf).mpr ⟨n, hn, hln⟩, hx⟩

/-- The divided tree has the same nodes that name attributes. -/
theorem DividedFrom.mem_nsaNodes (h : DividedFrom q q') (hq : Normalized q) (x : Nat × String) :
    x ∈ q'.nsaNodes ↔ x ∈ q.nsaNodes := by
  cases h with
  | same => rfl
  | later j a left right hl hr =>
    rw [PNode.nsaNodes, List.mem_append, hl.mem_nsaNodes, hr.mem_nsaNodes,
      mem_nsaNodes_operands j hq]
    constructor
    · rintro (⟨n, hn, hx⟩ | ⟨n, hn, hx⟩) <;> exact ⟨n, (List.mem_filter.mp hn).1, hx⟩
    · rintro ⟨n, hn, hx⟩
      cases hpure : isPure n with
      | true => exact .inl ⟨n, List.mem_filter.mpr ⟨hn, hpure⟩, hx⟩
      | false => exact .inr ⟨n, List.mem_filter.mpr ⟨hn, by simp [hpure]⟩, hx⟩

theorem annotate_names (q' : PNode) (nsAtts : List NonStdAtt) :
    (annotate q' nsAtts).nsAtts.map (·.nsaName) = nsAtts.map (·.nsaName) := by
  apply List.ext_getElem?
  intro i
  simp only [annotate, List.getElem?_map, List.getElem?_mapIdx, Option.map_map]
  rfl

/-- Optimization keeps the list and the tree as they should be to each
other. -/
theorem AttListInvariant.optimized (h : AttListInvariant nsAtts q) (hq : Normalized q)
    (hfrom : DividedFrom q q') : AttListInvariant (annotate q' nsAtts).nsAtts q' := by
  have hlen : (annotate q' nsAtts).nsAtts.length = nsAtts.length := by simp [annotate]
  refine ⟨annotate_names q' nsAtts ▸ h.names_nodup, annotate_positionIndexed q' h.positionIndexed,
    fun i s hmem => ?_, fun i hi => ?_⟩
  · obtain ⟨nsa, hi, hname⟩ := h.points i s ((hfrom.mem_nsaNodes hq _).mp hmem)
    exact ⟨_, annotate_getElem? q' hi, hname⟩
  · obtain ⟨s, hs⟩ := h.referenced i (hlen ▸ hi)
    exact ⟨s, (hfrom.mem_nsaNodes hq _).mpr hs⟩

/-! ## The array of attributes -/

theorem length_fixStructRefs (t : Template) (nsAtts : List NonStdAtt) (tmplAtts : List (Option Nat)) :
    (fixStructRefs t nsAtts tmplAtts).length = tmplAtts.length := by
  unfold fixStructRefs
  induction nsAtts generalizing tmplAtts with
  | nil => rfl
  | cons nsa rest ih =>
    rw [List.foldl_cons, ih]
    unfold fixStructRef
    split <;> simp

/-- The array is made for the list's length and stays that long. -/
theorem prepareNonStdAtts_length {flags : TmplMgmtFlags} {ns : NonStdAtts} {t : Template}
    (h : PositionIndexed ns.nsAtts) {fb : EvlFuzzyBoolean} {ec : Prepared}
    (hprep : prepareNonStdAtts flags ns (some t) = some (fb, ec)) :
    ∃ atts, ec.tmplAtts = some atts ∧ atts.length = ns.nsAtts.length := by
  obtain ⟨⟨fb₁, sc⟩, hscreen, hrest⟩ := Option.bind_eq_some_iff.mp hprep
  have hsc : sc.tmplAtts.length = ns.nsAtts.length := by
    have hsame : sc = screeningOf t ns.nsAtts 0 := by
      simp only [screenUnpopulatedTemplate, screenAtts_eq t h, Option.bind_eq_bind,
        Option.bind_some] at hscreen
      split at hscreen
      · exact (congrArg Prod.snd (Option.some.inj hscreen)).symm
      · split at hscreen <;> exact (congrArg Prod.snd (Option.some.inj hscreen)).symm
    rw [hsame, screeningOf_tmplAtts, List.length_map]
  dsimp only at hrest
  split at hrest
  · cases hrest
    exact ⟨_, rfl, by rw [List.length_map, hsc]⟩
  · cases hrest
    refine ⟨_, rfl, ?_⟩
    rw [List.length_map]
    split
    · rw [length_fixStructRefs, hsc]
    · exact hsc

theorem AttListInvariant.tmplAttAt_isSome (h : AttListInvariant nsAtts q)
    {atts : List (Option Attribute)} (hlen : atts.length = nsAtts.length) {i : Nat} {s : String}
    (hmem : (i, s) ∈ q.nsaNodes) : (tmplAttAt nsAtts atts i).isSome := by
  obtain ⟨nsa, hi, -⟩ := h.points i s hmem
  have hlt := (List.getElem?_eq_some_iff.mp hi).1
  have hat : nsa.nsaAtt < atts.length := by rwa [h.positionIndexed i nsa hi, hlen]
  simp only [tmplAttAt, hi, Option.bind_eq_bind, Option.bind_some, List.getElem?_eq_getElem hat,
    Option.isSome_some]

/-- For every record whose template is found, the array of attributes is
as long as the list, and neither an entry nor a node of the tree indexes
past its end. -/
def TmplAttsCover (ns : NonStdAtts) (q : PNode) : Prop :=
  ∀ flags t, ∃ fb ec atts, prepareNonStdAtts flags ns (some t) = some (fb, ec) ∧
    ec.tmplAtts = some atts ∧ atts.length = ns.nsAtts.length ∧
    (∀ nsa ∈ ns.nsAtts, nsa.nsaAtt < atts.length) ∧
    ∀ i s, (i, s) ∈ q.nsaNodes → (tmplAttAt ns.nsAtts atts i).isSome

theorem AttListInvariant.covers {ns : NonStdAtts} (h : AttListInvariant ns.nsAtts q) :
    TmplAttsCover ns q := by
  intro flags t
  obtain ⟨fb, ec, hprep, -⟩ := prepareNonStdAtts_cases flags t h.positionIndexed
  obtain ⟨atts, hatts, hlen⟩ := prepareNonStdAtts_length h.positionIndexed hprep
  refine ⟨fb, ec, atts, hprep, hatts, hlen, fun nsa hnsa => ?_, fun i s hmem =>
    h.tmplAttAt_isSome hlen hmem⟩
  obtain ⟨i, hi⟩ := List.mem_iff_getElem?.mp hnsa
  rw [h.positionIndexed i nsa hi, hlen]
  exact (List.getElem?_eq_some_iff.mp hi).1

end Evlog.Query
