/-
Evlog.Query.OptimizeTheorems — optimization preserves what a query means.

The meaning of a tree is `truth`, the two-valued reading in which a leaf
that would abort counts as false. Three evaluations are measured against
it:

  evaluateTree          where it returns, it returns `truth`
                        (`truth_of_evaluateTree`);
  simulateMissingNsa    computes a strong Kleene value (`missingValue`, of
                        which the C bit patterns are codes), and a
                        definite one is `truth` whenever the attributes
                        assumed missing are missing (`admits_truth`);
  evaluateNsaTree       on the optimized tree returns `truth` of the
                        original one (`evaluateNsaTree_truth`).

Reordering can change which leaf is evaluated first, so a tree whose
evaluation aborts may be answered after optimization. Where the leaves are
of standard attributes, it is not the other way round
(`evaluateNsaTree_isSome`).
-/
import Evlog.Query.DivideTheorems
import Evlog.Query.EvaluateTheorems
import Evlog.Query.ScreenTheorems

namespace Evlog.Query

open Evlog.Lib Evlog.Posix

variable {inp : EvalInput} {nsAtts : List NonStdAtt} {ta : TmplAtts}

/-! ## `evaluateTree` on a junction -/

theorem evaluateTree_operands (j : Junctor) {q : PNode} (h : Normalized q) :
    evaluateTree inp nsAtts ta q = j.seq ((operands j q).map (evaluateTree inp nsAtts ta)) := by
  induction h with
  | leaf n h =>
    rw [operands_of_isOperand (isOperand_of_normalizedLeaf h j), List.map_singleton,
      Junctor.seq_singleton]
  | not a e h ih =>
    rw [operands_of_isOperand (isOperand_not j a e .null), List.map_singleton,
      Junctor.seq_singleton]
  | junct j' a l r hl hr ihl ihr =>
    by_cases hj : j' = j
    · subst hj
      rw [evaluateTree_junct, operands_junct, List.map_append, Junctor.seq_append, ← ihl, ← ihr,
        Junctor.seq_cons, Junctor.seq_singleton]
    · rw [operands_of_isOperand (isOperand_junct_of_ne hj a l r), List.map_singleton,
        Junctor.seq_singleton]

variable {j : Junctor} {t n l r left : PNode}

theorem Joined.evaluateTree_eq {ns : List PNode} (h : Joined j ns t) :
    evaluateTree inp nsAtts ta t = j.seq (ns.map (evaluateTree inp nsAtts ta)) := by
  induction h with
  | one n => rw [List.map_singleton, Junctor.seq_singleton]
  | cons a n ns t h ih =>
    rw [evaluateTree_junct, List.map_cons, Junctor.seq_cons, Junctor.seq_singleton, ih,
      Junctor.seq_cons]

/-! ## The two-valued reading -/

/-- The truth value of a tree; a leaf that aborts counts as false. -/
def truth (inp : EvalInput) (nsAtts : List NonStdAtt) (ta : TmplAtts) : PNode → Bool
  | .op _ .not l _ => !truth inp nsAtts ta l
  | .op _ .and l r | .op _ .andLater l r => truth inp nsAtts ta l && truth inp nsAtts ta r
  | .op _ .or l r | .op _ .orLater l r => truth inp nsAtts ta l || truth inp nsAtts ta r
  | n => (evaluateTree inp nsAtts ta n).getD false

theorem truth_leaf (h : NormalizedLeaf n) :
    truth inp nsAtts ta n = (evaluateTree inp nsAtts ta n).getD false := by
  cases h with
  | attname a sel s => rfl
  | nsaname a i s => rfl
  | stdComparison a b o sel s v ho => cases o <;> first | rfl | cases ho
  | nsaComparison a b o i s v ho => cases o <;> first | rfl | cases ho

theorem truth_junct (j : Junctor) (a : Nat) (l r : PNode) :
    truth inp nsAtts ta (.op a (.ofJunctor j) l r)
      = j.apply (truth inp nsAtts ta l) (truth inp nsAtts ta r) := by
  cases j <;> rfl

theorem truth_later (j : Junctor) (a : Nat) (l r : PNode) :
    truth inp nsAtts ta (.op a (.later j) l r)
      = j.apply (truth inp nsAtts ta l) (truth inp nsAtts ta r) := by
  cases j <;> rfl

/-- Where `evaluateTree` returns, it returns the truth. -/
theorem truth_of_evaluateTree {q : PNode} (hq : Normalized q) {b : Bool}
    (h : evaluateTree inp nsAtts ta q = some b) : truth inp nsAtts ta q = b := by
  induction hq generalizing b with
  | leaf n hn => rw [truth_leaf hn, h, Option.getD_some]
  | not a e he ih =>
    simp only [evaluateTree, Option.bind_eq_bind, Option.bind_eq_some_iff, Option.some.injEq] at h
    obtain ⟨c, hc, rfl⟩ := h
    show (!truth inp nsAtts ta e) = !c
    rw [ih hc]
  | junct j a l r hl hr ihl ihr =>
    rw [evaluateTree_junct, Junctor.seq_cons, Junctor.seq_singleton, Option.bind_eq_some_iff] at h
    obtain ⟨c, hc, h⟩ := h
    rw [truth_junct, ihl hc, Junctor.apply_eq]
    split at h
    · next hcj => simpa [hcj] using h
    · next hcj => rw [if_neg hcj]; exact ihr h

theorem truth_operands (j : Junctor) {q : PNode} (h : Normalized q) :
    truth inp nsAtts ta q = j.fold ((operands j q).map (truth inp nsAtts ta)) := by
  induction h with
  | leaf n h =>
    rw [operands_of_isOperand (isOperand_of_normalizedLeaf h j), List.map_singleton,
      Junctor.fold_singleton]
  | not a e h ih =>
    rw [operands_of_isOperand (isOperand_not j a e .null), List.map_singleton,
      Junctor.fold_singleton]
  | junct j' a l r hl hr ihl ihr =>
    by_cases hj : j' = j
    · subst hj
      rw [truth_junct, operands_junct, List.map_append, Junctor.fold_append, ihl, ihr]
    · rw [operands_of_isOperand (isOperand_junct_of_ne hj a l r), List.map_singleton,
        Junctor.fold_singleton]

theorem Joined.truth_eq {ns : List PNode} (h : Joined j ns t) :
    truth inp nsAtts ta t = j.fold (ns.map (truth inp nsAtts ta)) := by
  induction h with
  | one n => rw [List.map_singleton, Junctor.fold_singleton]
  | cons a n ns t h ih =>
    rw [truth_junct, ih, List.map_cons, Junctor.fold_cons]

/-! ## Three values -/

def code : Kleene → EvlFuzzyBoolean
  | .no => evlFuzzyFalse
  | .maybe => evlFuzzyMaybe
  | .yes => evlFuzzyTrue

theorem code_and (k₁ k₂ : Kleene) : code k₁ &&& code k₂ = code (Kleene.apply .and k₁ k₂) := by
  cases k₁ <;> cases k₂ <;> rfl

theorem code_or (k₁ k₂ : Kleene) : code k₁ ||| code k₂ = code (Kleene.apply .or k₁ k₂) := by
  cases k₁ <;> cases k₂ <;> rfl

theorem code_definite {k : Kleene} {b : Bool} (h : k.Admits b) (hk : code k ≠ evlFuzzyMaybe) :
    decide (code k = evlFuzzyTrue) = b := by
  cases k with
  | no => simp only [Kleene.Admits] at h; rw [h]; rfl
  | maybe => exact absurd rfl hk
  | yes => simp only [Kleene.Admits] at h; rw [h]; rfl

/-- The Kleene value of a tree with one or all of the non-standard
attributes missing. -/
def missingValue (nsa : Option Nat) : PNode → Kleene
  | .op _ .not l _ => (missingValue nsa l).not
  | .op _ .and l r | .op _ .andLater l r =>
    Kleene.apply .and (missingValue nsa l) (missingValue nsa r)
  | .op _ .or l r | .op _ .orLater l r =>
    Kleene.apply .or (missingValue nsa l) (missingValue nsa r)
  | .attname _ sel _ => if sel = .data then .maybe else .yes
  | n =>
    match n.nsaRef? with
    | some i => if nsa = none ∨ nsa = some i then .no else .maybe
    | none => .maybe

/-- A comparison is open unless its attribute is assumed missing. -/
theorem missingValue_comparison (nsa : Option Nat) (a : Nat) {o : Op}
    (ho : o.isComparison = true) (l r : PNode) :
    missingValue nsa (.op a o l r)
      = match (PNode.op a o l r).nsaRef? with
        | some i => if nsa = none ∨ nsa = some i then .no else .maybe
        | none => .maybe := by
  cases o <;> first | rfl | cases ho

theorem missingValue_junct (nsa : Option Nat) (j : Junctor) (a : Nat) (l r : PNode) :
    missingValue nsa (.op a (.ofJunctor j) l r)
      = Kleene.apply j (missingValue nsa l) (missingValue nsa r) := by
  cases j <;> rfl

theorem missingValue_later (nsa : Option Nat) (j : Junctor) (a : Nat) (l r : PNode) :
    missingValue nsa (.op a (.later j) l r)
      = Kleene.apply j (missingValue nsa l) (missingValue nsa r) := by
  cases j <;> rfl

theorem simulateMissingNsa_leaf (nsa : Option Nat) (h : NormalizedLeaf n) :
    simulateMissingNsa nsa n = some (code (missingValue nsa n)) := by
  cases h with
  | attname a sel s =>
    simp only [simulateMissingNsa, missingValue]
    split <;> rfl
  | nsaname a i s =>
    simp only [simulateMissingNsa, missingValue, PNode.nsaRef?]
    split <;> rfl
  | stdComparison a b o sel s v ho => cases o <;> first | rfl | cases ho
  | nsaComparison a b o i s v ho =>
    have hs : simulateMissingNsa nsa (.op a o (.nsaname b i s) v)
        = some (if nsa = none ∨ nsa = some i then evlFuzzyFalse else evlFuzzyMaybe) := by
      cases o <;> first | rfl | cases ho
    rw [hs, missingValue_comparison nsa a ho]
    simp only [PNode.nsaRef?]
    split <;> rfl

/-- `simulateMissingNsa` computes codes of Kleene values. -/
theorem simulateMissingNsa_eq (nsa : Option Nat) {q : PNode} (h : Normalized q) :
    simulateMissingNsa nsa q = some (code (missingValue nsa q)) := by
  induction h with
  | leaf n h => exact simulateMissingNsa_leaf nsa h
  | not a e h ih =>
    simp only [simulateMissingNsa, ih, Option.bind_eq_bind, Option.bind_some, missingValue]
    cases missingValue nsa e <;> rfl
  | junct j a l r hl hr ihl ihr =>
    rw [missingValue_junct]
    cases j <;> simp only [Op.ofJunctor, simulateMissingNsa, ihl, ihr, Option.bind_eq_bind,
      Option.bind_some, code_and, code_or]

theorem simulateMissingNsa_later (nsa : Option Nat) (j : Junctor) (a : Nat) (hl : Normalized l)
    (hr : Normalized r) :
    simulateMissingNsa nsa (.op a (.later j) l r)
      = some (code (missingValue nsa (.op a (.later j) l r))) := by
  rw [missingValue_later]
  cases j <;> simp only [Op.later, simulateMissingNsa, simulateMissingNsa_eq nsa hl,
    simulateMissingNsa_eq nsa hr, Option.bind_eq_bind, Option.bind_some, code_and, code_or]

def AssumedMissing (nsAtts : List NonStdAtt) (ta : TmplAtts) (nsa : Option Nat) (n : PNode) : Prop :=
  ∀ i, n.nsaRef? = some i → nsa = none ∨ nsa = some i → nsaAttr nsAtts ta i = some none

variable {nsa : Option Nat}

theorem admits_truth_leaf (hn : NormalizedLeaf n) (h : AssumedMissing nsAtts ta nsa n) :
    (missingValue nsa n).Admits (truth inp nsAtts ta n) := by
  rw [truth_leaf hn]
  cases hn with
  | attname a sel s =>
    simp only [missingValue]
    split
    · trivial
    · next hsel => simp [Kleene.Admits, evaluateTree, hsel]
  | nsaname a i s =>
    simp only [missingValue, PNode.nsaRef?]
    split
    · next hi =>
      rw [evaluateTree_nsaname, h i rfl hi]
      rfl
    · trivial
  | stdComparison a b o sel s v ho =>
    rw [missingValue_comparison nsa a ho]
    trivial
  | nsaComparison a b o i s v ho =>
    rw [missingValue_comparison nsa a ho]
    simp only [PNode.nsaRef?]
    split
    · next hi =>
      rw [evaluateTree_nsaComparison ho, h i rfl hi]
      rfl
    · trivial

/-- A definite Kleene value is the truth if the attributes assumed missing
are missing. -/
theorem admits_truth {q : PNode} (hq : Normalized q)
    (h : ∀ n ∈ q.leaves, AssumedMissing nsAtts ta nsa n) :
    (missingValue nsa q).Admits (truth inp nsAtts ta q) := by
  induction hq with
  | leaf n hn => exact admits_truth_leaf hn (h n (by rw [leaves_of_normalizedLeaf hn]; simp))
  | not a e he ih => exact Kleene.admits_not (ih (by rwa [leaves_not] at h))
  | junct j a l r hl hr ihl ihr =>
    rw [leaves_junct] at h
    rw [missingValue_junct, truth_junct]
    exact Kleene.admits_apply (ihl fun n hn => h n (List.mem_append_left _ hn))
      (ihr fun n hn => h n (List.mem_append_right _ hn))

/-! ## The optimized tree -/

/-- `q'` is `q` divided by `divideTree`. -/
inductive DividedFrom (q : PNode) : PNode → Prop where
  | same : DividedFrom q q
  | later (j : Junctor) (a : Nat) (left right : PNode)
      (hl : Joined j ((operands j q).filter isPure) left)
      (hr : Joined j ((operands j q).filter fun m => !isPure m) right) :
      DividedFrom q (.op a (.later j) left right)

def annotateEntry (q' : PNode) (i : Nat) (nsa : NonStdAtt) : NonStdAtt :=
  { nsa with nsaResultIfMissing := code (missingValue (some i) q') }

/-- The annotations `_evlQOptimizeTree` leaves with the attributes. -/
def annotate (q' : PNode) (nsAtts : List NonStdAtt) : NonStdAtts where
  nsAtts := nsAtts.mapIdx (annotateEntry q')
  nsResultIfAllAttsMissing := code (missingValue none q')

theorem Joined.normalized_filter {q : PNode} (p : PNode → Bool) (hq : Normalized q)
    (h : Joined j ((operands j q).filter p) t) : Normalized t :=
  h.normalized fun n hn => normalized_of_mem_operands j hq n (List.mem_filter.mp hn).1

theorem DividedFrom.simulateMissingNsa_eq {q q' : PNode} (h : DividedFrom q q')
    (hq : Normalized q) (nsa : Option Nat) :
    simulateMissingNsa nsa q' = some (code (missingValue nsa q')) := by
  cases h with
  | same => exact Query.simulateMissingNsa_eq nsa hq
  | later j a left right hl hr =>
    exact simulateMissingNsa_later nsa j a (hl.normalized_filter _ hq)
      (hr.normalized_filter _ hq)

theorem DividedFrom.truth_eq {q q' : PNode} (h : DividedFrom q q') (hq : Normalized q) :
    truth inp nsAtts ta q' = truth inp nsAtts ta q := by
  cases h with
  | same => rfl
  | later j a left right hl hr =>
    rw [truth_later, hl.truth_eq, hr.truth_eq, ← Junctor.fold_append, ← List.map_append,
      Junctor.fold_filter_append, ← truth_operands j hq]

theorem DividedFrom.mem_leaves {q leaf : PNode} {p : PNode → Bool} (hq : Normalized q)
    (h : Joined j ((operands j q).filter p) t) (hleaf : leaf ∈ t.leaves) : leaf ∈ q.leaves := by
  obtain ⟨n, hn, hln⟩ := (h.mem_leaves leaf).mp hleaf
  exact (mem_leaves_operands j hq leaf).mpr ⟨n, (List.mem_filter.mp hn).1, hln⟩

theorem DividedFrom.admits_truth {q q' : PNode} (h : DividedFrom q q') (hq : Normalized q)
    (hm : ∀ n ∈ q.leaves, AssumedMissing nsAtts ta nsa n) :
    (missingValue nsa q').Admits (truth inp nsAtts ta q') := by
  cases h with
  | same => exact Query.admits_truth hq hm
  | later j a left right hl hr =>
    rw [missingValue_later, truth_later]
    exact Kleene.admits_apply
      (Query.admits_truth (hl.normalized_filter _ hq) fun n hn => hm n (mem_leaves hq hl hn))
      (Query.admits_truth (hr.normalized_filter _ hq) fun n hn => hm n (mem_leaves hq hr hn))

theorem setResultsIfMissing_eq {q' : PNode} {f : Nat → EvlFuzzyBoolean}
    (h : ∀ i, simulateMissingNsa (some i) q' = some (f i)) (s : Nat) (nsAtts : List NonStdAtt) :
    setResultsIfMissing q' s nsAtts
      = some (nsAtts.mapIdx fun i nsa => { nsa with nsaResultIfMissing := f (s + i) }) := by
  induction nsAtts generalizing s with
  | nil => rfl
  | cons nsa rest ih =>
    have hshift : (fun (i : Nat) (nsa : NonStdAtt) =>
        { nsa with nsaResultIfMissing := f (s + 1 + i) })
        = fun i nsa => { nsa with nsaResultIfMissing := f (s + (i + 1)) } := by
      funext i nsa
      rw [Nat.add_assoc, Nat.add_comm 1 i]
    simp only [setResultsIfMissing, h, ih, Option.bind_eq_bind, Option.bind_some,
      List.mapIdx_cons, Nat.add_zero, hshift]

/-- `_evlQOptimizeTree` divides the tree and annotates the attributes. -/
theorem evlQOptimizeTree_eq {q : PNode} {ns : NonStdAtts} (h : Registered ns.nsAtts q) :
    ∃ q', DividedFrom q q' ∧
      evlQOptimizeTree q (some ns) = some (q', some (annotate q' ns.nsAtts)) := by
  have hdiv : ∃ q', DividedFrom q q' ∧ divideTree q = some q' := by
    rcases divideTree_cases h.normalized h.exists_ref with hsame | ⟨j, a, l, r, hd, hl, hr, -⟩
    · exact ⟨q, .same, hsame⟩
    · exact ⟨_, .later j a l r hl hr, hd⟩
  obtain ⟨q', hfrom, hq'⟩ := hdiv
  refine ⟨q', hfrom, ?_⟩
  have hsim := hfrom.simulateMissingNsa_eq h.normalized
  simp only [evlQOptimizeTree, hq', Option.bind_eq_bind, Option.bind_some, hsim,
    setResultsIfMissing_eq (fun i => hsim (some i)), Nat.zero_add, annotate]
  rfl

/-! ## The attributes of a record -/

def resolvedAtt (lookup : Option Template) (nsa : NonStdAtt) : Option Attribute :=
  match lookup with
  | none => none
  | some t => (fixedAtt t nsa).map t.populatedAtt

/-- The array that screening and `fixStructRefs` produce; all NULL when
there is no template. -/
def screenedTmplAtts (lookup : Option Template) (nsAtts : List NonStdAtt) :
    Option (List (Option Attribute)) :=
  match lookup with
  | none => some (List.replicate nsAtts.length none)
  | some t => do
    let sc ← screenAtts t nsAtts
    some ((fixStructRefs t nsAtts sc.tmplAtts).map (·.map t.populatedAtt))

theorem screenedTmplAtts_eq (lookup : Option Template) (h : PositionIndexed nsAtts) :
    screenedTmplAtts lookup nsAtts = some (nsAtts.map (resolvedAtt lookup)) := by
  cases lookup with
  | none =>
    have : resolvedAtt none = fun _ => none := rfl
    simp [screenedTmplAtts, this, List.map_const']
  | some t =>
    simp only [screenedTmplAtts, screenAtts_eq t h, Option.bind_eq_bind, Option.bind_some,
      screeningOf_tmplAtts, fixStructRefs_eq t h, List.map_map]
    rfl

theorem annotate_getElem? (q' : PNode) {i : Nat} {nsa : NonStdAtt} (h : nsAtts[i]? = some nsa) :
    (annotate q' nsAtts).nsAtts[i]? = some (annotateEntry q' i nsa) := by
  simp [annotate, List.getElem?_mapIdx, h]

theorem exists_of_annotate {q' : PNode} {i : Nat} {nsa' : NonStdAtt}
    (h : (annotate q' nsAtts).nsAtts[i]? = some nsa') :
    ∃ nsa, nsAtts[i]? = some nsa ∧ nsa' = annotateEntry q' i nsa := by
  simp only [annotate, List.getElem?_mapIdx, Option.map_eq_some_iff] at h
  obtain ⟨nsa, hi, rfl⟩ := h
  exact ⟨nsa, hi, rfl⟩

theorem annotate_positionIndexed (q' : PNode) (h : PositionIndexed nsAtts) :
    PositionIndexed (annotate q' nsAtts).nsAtts := by
  intro i nsa' hi
  obtain ⟨nsa, hnsa, rfl⟩ := exists_of_annotate hi
  exact h i nsa hnsa

/-! ## `evaluateNsaTree` on the optimized tree -/

variable {flags : TmplMgmtFlags} {lookup : Option Template} {q q' : PNode}

/-- `nsaResultIfMissing` and `nsResultIfAllAttsMissing` answer truthfully,
and if they do not answer, the evaluator gets the record's attributes. -/
theorem prepareNonStdAtts_truth (inp : EvalInput) (flags : TmplMgmtFlags)
    (lookup : Option Template) (hfrom : DividedFrom q q') (h : Registered nsAtts q) :
    ∃ fb ec, prepareNonStdAtts flags (annotate q' nsAtts) lookup = some (fb, ec) ∧
      (fb ≠ evlFuzzyMaybe → decide (fb = evlFuzzyTrue)
        = truth inp nsAtts (some (nsAtts.map (resolvedAtt lookup))) q') ∧
      (fb = evlFuzzyMaybe → ∀ n ∈ q.leaves, ∀ i, n.nsaRef? = some i →
        nsaAttr (annotate q' nsAtts).nsAtts ec.tmplAtts i
          = nsaAttr nsAtts (some (nsAtts.map (resolvedAtt lookup))) i) := by
  have hentry : ∀ n ∈ q.leaves, ∀ i, n.nsaRef? = some i → ∃ nsa, nsAtts[i]? = some nsa :=
    fun n hn i hi => ⟨_, List.getElem?_eq_getElem (h.ref_lt n hn i hi)⟩
  -- the answer for all attributes missing, when they all are
  have hall : (∀ nsa ∈ nsAtts, resolvedAtt lookup nsa = none) →
      code (missingValue none q') ≠ evlFuzzyMaybe →
      decide (code (missingValue none q') = evlFuzzyTrue)
        = truth inp nsAtts (some (nsAtts.map (resolvedAtt lookup))) q' := by
    intro hnone
    refine code_definite (hfrom.admits_truth h.normalized ?_)
    intro n hn i hi _
    obtain ⟨nsa, hnsa⟩ := hentry n hn i hi
    rw [nsaAttr_map h.positionIndexed _ hnsa, hnone nsa (List.mem_of_getElem? hnsa)]
  cases lookup with
  | none =>
    refine ⟨_, _, prepareNonStdAtts_none flags _, hall fun _ _ => rfl, ?_⟩
    intro _ n hn i hi
    obtain ⟨nsa, hnsa⟩ := hentry n hn i hi
    rw [nsaAttr_map h.positionIndexed _ hnsa]
    rfl
  | some t =>
    have hpos := annotate_positionIndexed q' h.positionIndexed
    obtain ⟨fb, ec, heq, hcase⟩ := prepareNonStdAtts_cases flags t hpos
    refine ⟨fb, ec, heq, ?_⟩
    cases hcase with
    | noneUsable hnone =>
      have hres : ∀ nsa ∈ nsAtts, resolvedAtt (some t) nsa = none := by
        intro nsa hnsa
        obtain ⟨i, hi⟩ := List.mem_iff_getElem?.mp hnsa
        have hmem := List.mem_of_getElem? (annotate_getElem? q' hi)
        have hscr : screenedAtt t nsa = none := hnone (annotateEntry q' i nsa) hmem
        simp [resolvedAtt, fixedAtt_of_screenedAtt_none hscr]
      refine ⟨hall hres, ?_⟩
      intro _ n hn i hi
      obtain ⟨nsa, hnsa⟩ := hentry n hn i hi
      rw [nsaAttr_map h.positionIndexed _ hnsa, hres nsa (List.mem_of_getElem? hnsa)]
      exact nsaAttr_map hpos (fun _ => none) (annotate_getElem? q' hnsa)
    | decided nsa' _ hmem hmissing hfb _ _ atts =>
      refine ⟨fun _ => ?_, fun he => absurd he hfb⟩
      obtain ⟨i, hi'⟩ := List.mem_iff_getElem?.mp hmem
      obtain ⟨nsa, hi, rfl⟩ := exists_of_annotate hi'
      have hscr : screenedAtt t nsa = none := hmissing
      refine code_definite (hfrom.admits_truth h.normalized ?_) hfb
      intro n hn k hk hik
      have hki : k = i := by simpa using hik.resolve_left (by simp) |>.symm
      subst hki
      rw [nsaAttr_map h.positionIndexed _ hi]
      simp [resolvedAtt, fixedAtt_of_screenedAtt_none hscr]
    | populated _ _ _ _ =>
      refine ⟨fun he => absurd rfl he, ?_⟩
      intro _ n hn i hi
      obtain ⟨nsa, hnsa⟩ := hentry n hn i hi
      rw [nsaAttr_map h.positionIndexed _ hnsa]
      have hattr := nsaAttr_map hpos (fun nsa => (fixedAtt t nsa).map t.populatedAtt)
        (annotate_getElem? q' hnsa)
      exact hattr

/-- A root that is not AND_LATER or OR_LATER leaves everything open. -/
theorem evaluateLeft_normalized (hq : Normalized q) :
    evaluateLeft inp nsAtts q = some (evlFuzzyMaybe, none) := by
  cases hq with
  | leaf n hn =>
    cases hn with
    | stdComparison a b o sel s v ho => cases o <;> first | rfl | cases ho
    | nsaComparison a b o i s v ho => cases o <;> first | rfl | cases ho
    | _ => rfl
  | not a e he => rfl
  | junct j a l r hl hr => cases j <;> rfl

theorem evaluateLeft_later (inp : EvalInput) (nsAtts : List NonStdAtt) (j : Junctor) (a : Nat) (l r : PNode) :
    evaluateLeft inp nsAtts (.op a (.later j) l r)
      = (evaluateTree inp nsAtts none l).map fun b =>
          (if b = j.absorbing then (if b then evlFuzzyTrue else evlFuzzyFalse)
            else evlFuzzyMaybe, some b) := by
  cases j <;> simp only [Op.later, evaluateLeft, Option.bind_eq_bind, Junctor.absorbing] <;>
    cases evaluateTree inp nsAtts none l <;> first | rfl | (rename_i b; cases b <;> rfl)

variable {lr : Option Bool}

theorem evaluateNsaTree_decided {ns : NonStdAtts} {fb : EvlFuzzyBoolean}
    (h : evaluateLeft inp ns.nsAtts q' = some (fb, lr)) (hfb : fb ≠ evlFuzzyMaybe) :
    evaluateNsaTree inp flags lookup q' ns = some ⟨decide (fb = evlFuzzyTrue), none⟩ := by
  simp [evaluateNsaTree, h, hfb]

/-- Otherwise the template is prepared, and what is left evaluated. -/
theorem evaluateNsaTree_undecided {ns : NonStdAtts} {fb : EvlFuzzyBoolean} {ec : Prepared}
    (h : evaluateLeft inp ns.nsAtts q' = some (evlFuzzyMaybe, lr))
    (hp : prepareNonStdAtts flags ns lookup = some (fb, ec)) :
    evaluateNsaTree inp flags lookup q' ns
      = (if fb ≠ evlFuzzyMaybe then some (decide (fb = evlFuzzyTrue))
          else evaluateTree inp ns.nsAtts ec.tmplAtts (if lr.isSome then q'.right else q')).map
        fun b => ⟨b, ec.clone.map (evlReleasetemplate flags)⟩ := by
  simp only [evaluateNsaTree, h, hp, Option.bind_eq_bind, Option.bind_some, ne_eq,
    not_true_eq_false, if_false]
  split
  · rfl
  · exact (Option.map_eq_bind ..).symm

theorem nsaRef?_of_pure (hl : Joined j ((operands j q).filter isPure) left) :
    ∀ leaf ∈ left.leaves, leaf.nsaRef? = none := by
  intro leaf hleaf
  obtain ⟨n, hn, hln⟩ := (hl.mem_leaves leaf).mp hleaf
  exact isPure_iff.mp (List.mem_filter.mp hn).2 leaf hln

theorem evaluateTree_pure (nsAtts' : List NonStdAtt) (ta' : TmplAtts) (hq : Normalized q)
    (hl : Joined j ((operands j q).filter isPure) left) :
    evaluateTree inp nsAtts ta left = evaluateTree inp nsAtts' ta' left := by
  refine evaluateTree_congr (hl.normalized_filter _ hq) ?_
  intro n hn i hi
  rw [nsaRef?_of_pure hl n hn] at hi
  cases hi

/-- What `evaluateNsaTree` does when the left branch leaves the answer
open: the annotations give the truth, or what is left of the tree is
evaluated with the record's attributes. -/
theorem evaluateNsaTree_rest (hfrom : DividedFrom q q') (h : Registered nsAtts q) (rest : PNode)
    (hleft : evaluateLeft inp (annotate q' nsAtts).nsAtts q' = some (evlFuzzyMaybe, lr))
    (hrest : (if lr.isSome then q'.right else q') = rest) (hnorm : Normalized rest)
    (hleaves : ∀ n ∈ rest.leaves, n ∈ q.leaves) :
    ∃ answer released, evaluateNsaTree inp flags lookup q' (annotate q' nsAtts)
        = answer.map (fun b => ⟨b, released⟩) ∧
      (answer = some (truth inp nsAtts (some (nsAtts.map (resolvedAtt lookup))) q') ∨
        answer = evaluateTree inp nsAtts (some (nsAtts.map (resolvedAtt lookup))) rest) := by
  obtain ⟨fb, ec, hprep, hdef, hmaybe⟩ := prepareNonStdAtts_truth inp flags lookup hfrom h
  refine ⟨_, _, evaluateNsaTree_undecided hleft hprep, ?_⟩
  by_cases hfb : fb = evlFuzzyMaybe
  · right
    rw [if_neg (not_not.mpr hfb), hrest]
    exact evaluateTree_congr hnorm fun n hn => hmaybe hfb n (hleaves n hn)
  · left
    rw [if_pos hfb, hdef hfb]

/-- Whatever `evaluateNsaTree` returns for the optimized tree is the truth
of the original one. -/
theorem evaluateNsaTree_truth (hfrom : DividedFrom q q') (h : Registered nsAtts q)
    {out : NsaOutcome}
    (ho : evaluateNsaTree inp flags lookup q' (annotate q' nsAtts) = some out) :
    out.result = truth inp nsAtts (some (nsAtts.map (resolvedAtt lookup))) q := by
  rw [← hfrom.truth_eq h.normalized]
  cases hfrom with
  | same =>
    obtain ⟨answer, released, heq, hanswer⟩ := evaluateNsaTree_rest .same h q
      (evaluateLeft_normalized h.normalized) rfl h.normalized fun _ hn => hn
    rw [heq, Option.map_eq_some_iff] at ho
    obtain ⟨b, hb, rfl⟩ := ho
    show b = _
    rcases hanswer with rfl | rfl
    · exact (Option.some.inj hb).symm
    · exact (truth_of_evaluateTree h.normalized hb).symm
  | later j a l r hl hr =>
    have hleft := evaluateLeft_later inp (annotate (.op a (.later j) l r) nsAtts).nsAtts j a l r
    rw [evaluateTree_pure nsAtts (some (nsAtts.map (resolvedAtt lookup))) h.normalized hl] at hleft
    cases hbl : evaluateTree inp nsAtts (some (nsAtts.map (resolvedAtt lookup))) l with
    | none =>
      rw [hbl] at hleft
      simp [evaluateNsaTree, hleft] at ho
    | some b =>
      have htl := truth_of_evaluateTree (hl.normalized_filter _ h.normalized) hbl
      rw [hbl, Option.map_some] at hleft
      by_cases hb : b = j.absorbing
      · rw [if_pos hb] at hleft
        rw [evaluateNsaTree_decided hleft (by cases b <;> decide)] at ho
        cases ho
        rw [truth_later, htl, Junctor.apply_eq, if_pos hb]
        cases b <;> rfl
      · rw [if_neg hb] at hleft
        have hr' := hr.normalized_filter _ h.normalized
        obtain ⟨answer, released, heq, hanswer⟩ := evaluateNsaTree_rest (.later j a l r hl hr) h r
          hleft rfl hr' fun _ hn => DividedFrom.mem_leaves h.normalized hr hn
        rw [heq, Option.map_eq_some_iff] at ho
        obtain ⟨c, hc, rfl⟩ := ho
        show c = _
        rcases hanswer with rfl | rfl
        · exact (Option.some.inj hc).symm
        · rw [truth_later, htl, Junctor.apply_eq, if_neg hb]
          exact (truth_of_evaluateTree hr' hc).symm

/-- If no pure operand decides, the impure ones give the value of the
whole. -/
theorem evaluateTree_impure {c : Bool} (hq : Normalized q)
    (hl : Joined j ((operands j q).filter isPure) l)
    (hr : Joined j ((operands j q).filter fun m => !isPure m) r)
    (hc : evaluateTree inp nsAtts ta l = some c) (hcj : c ≠ j.absorbing) :
    evaluateTree inp nsAtts ta r = evaluateTree inp nsAtts ta q := by
  have hpure : ∀ n ∈ operands j q, isPure n = true →
      evaluateTree inp nsAtts ta n = some !j.absorbing := by
    rw [hl.evaluateTree_eq, Bool.eq_not_of_ne hcj] at hc
    intro n hn hp
    exact Junctor.seq_eq_unit hc _ (List.mem_map_of_mem (List.mem_filter.mpr ⟨hn, hp⟩))
  rw [hr.evaluateTree_eq, Junctor.seq_filter_not hpure, ← evaluateTree_operands j hq]

/-- If the comparisons with standard attributes return, optimization adds
no abort. -/
theorem evaluateNsaTree_isSome (hfrom : DividedFrom q q') (h : Registered nsAtts q) {b : Bool}
    (hstd : ∀ n ∈ q.leaves, n.nsaRef? = none → (evaluateTree inp nsAtts none n).isSome)
    (hb : evaluateTree inp nsAtts (some (nsAtts.map (resolvedAtt lookup))) q = some b) :
    (evaluateNsaTree inp flags lookup q' (annotate q' nsAtts)).isSome := by
  cases hfrom with
  | same =>
    obtain ⟨answer, released, heq, hanswer⟩ := evaluateNsaTree_rest .same h q
      (evaluateLeft_normalized h.normalized) rfl h.normalized fun _ hn => hn
    rw [heq, Option.isSome_map]
    rcases hanswer with rfl | rfl
    · rfl
    · rw [hb]
      rfl
  | later j a l r hl hr =>
    have hleft := evaluateLeft_later inp (annotate (.op a (.later j) l r) nsAtts).nsAtts j a l r
    rw [evaluateTree_pure nsAtts none h.normalized hl] at hleft
    have hsome : (evaluateTree inp nsAtts none l).isSome := by
      refine evaluateTree_isSome (hl.normalized_filter _ h.normalized) ?_
      intro n hn
      exact hstd n (DividedFrom.mem_leaves h.normalized hl hn) (nsaRef?_of_pure hl n hn)
    obtain ⟨c, hc⟩ := Option.isSome_iff_exists.mp hsome
    rw [hc, Option.map_some] at hleft
    by_cases hcj : c = j.absorbing
    · rw [if_pos hcj] at hleft
      rw [evaluateNsaTree_decided hleft (by cases c <;> decide)]
      rfl
    · rw [if_neg hcj] at hleft
      obtain ⟨answer, released, heq, hanswer⟩ := evaluateNsaTree_rest (.later j a l r hl hr) h r
        hleft rfl (hr.normalized_filter _ h.normalized)
        fun _ hn => DividedFrom.mem_leaves h.normalized hr hn
      rw [heq, Option.isSome_map]
      rcases hanswer with rfl | rfl
      · rfl
      · rw [evaluateTree_pure nsAtts (some (nsAtts.map (resolvedAtt lookup))) h.normalized hl] at hc
        rw [evaluateTree_impure h.normalized hl hr hc hcj, hb]
        rfl

/-! ## Optimization preserves meaning -/

/-- The optimized query and the original one, evaluated with the attributes
of the record's template, agree where both return. The optimized one
returns whenever the original does and the comparisons with standard
attributes do, and the original returns if all its leaves do. -/
theorem evlQOptimizeTree_preserves_evaluation (inp : EvalInput) (flags : TmplMgmtFlags)
    (lookup : Option Template) (q : PNode) (ns : NonStdAtts) (h : Registered ns.nsAtts q) :
    ∃ q' ns' atts,
      evlQOptimizeTree q (some ns) = some (q', some ns') ∧
      screenedTmplAtts lookup ns.nsAtts = some atts ∧
      (∀ out b, evaluateNsaTree inp flags lookup q' ns' = some out →
        evaluateTree inp ns.nsAtts (some atts) q = some b → out.result = b) ∧
      (∀ b, (∀ n ∈ q.leaves, n.nsaRef? = none →
            (evaluateTree inp ns.nsAtts (some atts) n).isSome) →
        evaluateTree inp ns.nsAtts (some atts) q = some b →
        ∃ out, evaluateNsaTree inp flags lookup q' ns' = some out ∧ out.result = b) ∧
      ((∀ n ∈ q.leaves, (evaluateTree inp ns.nsAtts (some atts) n).isSome) →
        ∃ b, evaluateTree inp ns.nsAtts (some atts) q = some b) := by
  obtain ⟨q', hfrom, hopt⟩ := evlQOptimizeTree_eq h
  have hagree : ∀ out b,
      evaluateNsaTree inp flags lookup q' (annotate q' ns.nsAtts) = some out →
      evaluateTree inp ns.nsAtts (some (ns.nsAtts.map (resolvedAtt lookup))) q = some b →
      out.result = b := by
    intro out b ho hb
    rw [evaluateNsaTree_truth hfrom h ho, truth_of_evaluateTree h.normalized hb]
  refine ⟨q', _, _, hopt, screenedTmplAtts_eq lookup h.positionIndexed, hagree, ?_, ?_⟩
  · intro b hstd hb
    have hstd' : ∀ n ∈ q.leaves, n.nsaRef? = none →
        (evaluateTree inp ns.nsAtts none n).isSome := by
      intro n hn href
      have hsame : evaluateTree inp ns.nsAtts none n
          = evaluateTree inp ns.nsAtts (some (ns.nsAtts.map (resolvedAtt lookup))) n :=
        evaluateLeaf_congr (normalizedLeaf_of_mem_leaves h.normalized n hn) (by simp [href])
      rw [hsame]
      exact hstd n hn href
    obtain ⟨out, ho⟩ := Option.isSome_iff_exists.mp (evaluateNsaTree_isSome hfrom h hstd' hb)
    exact ⟨out, ho, hagree out b ho hb⟩
  · intro hleaves
    exact Option.isSome_iff_exists.mp (evaluateTree_isSome h.normalized hleaves)

/-- `foo = 5 && recid = 1`. -/
def fooAndRecid : PNode :=
  .op 0 .and (.op 1 .eq (.nsaname 2 0 "foo") (.val 3 false 5))
    (.op 4 .eq (.attname 5 .recid "recid") (.val 6 false 1))

/-- The attribute list of a query about a number `foo`. -/
def fooAtts : NonStdAtts := ⟨[⟨"foo", evlFuzzyMaybe, true, false, 0⟩], evlFuzzyMaybe⟩

theorem registered_fooAndRecid : Registered fooAtts.nsAtts fooAndRecid where
  normalized := .junct .and 0 _ _ (.leaf _ (.nsaComparison _ _ _ _ _ _ rfl))
    (.leaf _ (.stdComparison _ _ _ _ _ _ rfl))
  positionIndexed := by
    intro i nsa hi
    cases i with
    | zero => cases hi; rfl
    | succ i => cases hi
  ref_lt := by decide
  exists_ref := by decide

/-- Without a template, `foo = 5 && recid = 1` does not match record 1. -/
theorem evlQOptimizeTree_preserves_evaluation_no_template : Registered fooAtts.nsAtts fooAndRecid ∧
      ∃ q' ns' out, evlQOptimizeTree fooAndRecid (some fooAtts) = some (q', some ns') ∧
        evaluateNsaTree (recordWithId 1) ⟨false, false⟩ none q' ns' = some out ∧
        out.result = false := by
  refine ⟨registered_fooAndRecid, ?_⟩
  obtain ⟨q', ns', atts, hopt, hatts, -, hret, -⟩ :=
    evlQOptimizeTree_preserves_evaluation (recordWithId 1) ⟨false, false⟩ none fooAndRecid fooAtts
      registered_fooAndRecid
  cases hatts
  obtain ⟨out, ho, hres⟩ := hret false (by decide) (by decide)
  exact ⟨q', ns', out, hopt, ho, hres⟩

end Evlog.Query
