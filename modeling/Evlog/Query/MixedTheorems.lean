/-
Evlog.Query.MixedTheorems — comparisons of one attribute with integers and
with strings.

What a query says about a record is read off the text of the query here
(`saysOf`): each comparison by its own operator and operand, the connectives
as usual. A template's attribute counts only if it will do for all that the
query wants of it, which is the one thing that one comparison can do to
another: where a name is compared with an integer, an attribute that is not
numeric is as good as missing.

Normalization keeps a table of names, with `numeric` set once a name is
compared with an integer (`evlQNormalizeTree_table`). With that table every
leaf is worth what it says (`leaf_says`), and the rest is that
optimization changes nothing (`evaluateNsaTree_truth`).
-/
import Evlog.Query.Create
import Evlog.Query.OptimizeTheorems
import Evlog.Query.OperandTheorems

namespace Evlog.Query

open Evlog.Lib Evlog.Posix

/-! ## What a query says -/

def comparesWithInt (s : String) : PNode → Bool
  | .op _ _ (.name _ s') (.val _ _ _) => s' = s
  | _ => false

def PNode.numericIn (t : PNode) (s : String) : Bool := t.leaves.any (comparesWithInt s)

def isMemberName (s : String) : Bool := s.toList.contains '.'

/-- What a template has under a name: an attribute as it is declared, and as
it is in the record. -/
structure NamedAtt where
  declared : Attribute
  value : Option Attribute

def Template.named (t : Template) (s : String) : Option NamedAtt :=
  (if isMemberName s then t.getattMaster s else t.getatt s).map fun a =>
    ⟨t.att a, (if isMemberName s then t.getattPopulated s else some a).map t.populatedAtt⟩

/-- A comparison of an attribute with what stands in the query: false if the
record does not have it, and numbers only with numbers. -/
def comparisonSays (sys : System) (op : Op) (right : PNode) (att : NamedAtt) : Bool :=
  att.value.any fun v =>
    v.attExists &&
      match right with
      | .val _ _ uval => isNumericAtt att.declared && compareAttWithVal op v uval.toInt64
      | .string _ s =>
        match evlattGetstring v evlAttrstrMaxlen with
        | .ok text =>
          if op = .reMatch then sys.regexec s text
          else if op = .reNoMatch then !sys.regexec s text
          else compareStrings op text s
        | .error _ => false
      | _ => false

def stdComparisonSays (sys : System) (inp : EvalInput) (sel : Selector) (attName : String) (op : Op)
    (right : PNode) : Bool :=
  match normalizeStdComparison sys sel attName op right with
  | .ok right => (evaluateStdComparison inp op sel right).getD false
  | .error _ => false

/-- A leaf, given the attribute that the record has under a name. -/
def leafSays (sys : System) (inp : EvalInput) (named : String → Option NamedAtt) : PNode → Bool
  | .name _ s =>
    match stdSelector s with
    | some sel => if sel = .data then inp.entry.logSize > 0 else true
    | none => (named s).any fun att => att.value.any (·.attExists)
  | .op _ op (.name _ s) right =>
    match stdSelector s with
    | some sel => stdComparisonSays sys inp sel s op right
    | none => (named s).any (comparisonSays inp.sys op right)
  | _ => false

def PNode.asserts (leaf : PNode → Bool) : PNode → Bool
  | .op _ .not l _ => !l.asserts leaf
  | .op _ .and l r => l.asserts leaf && r.asserts leaf
  | .op _ .or l r => l.asserts leaf || r.asserts leaf
  | n => leaf n

def namedNumeric (lookup : Option Template) (numeric : String → Bool) (s : String) :
    Option NamedAtt :=
  (lookup.bind (·.named s)).filter fun att => !numeric s || isNumericAtt att.declared

/-- What the query says about a record with this template. -/
def saysOf (sys : System) (inp : EvalInput) (lookup : Option Template) (numeric : String → Bool)
    (t : PNode) : Bool :=
  t.asserts (leafSays sys inp (namedNumeric lookup numeric))

/-! ## The table of names -/

/-- The names of the list are different, and each entry's flag for members
is that of its name. -/
structure AttTable (nsAtts : List NonStdAtt) : Prop where
  positionIndexed : PositionIndexed nsAtts
  nodup : (nsAtts.map (·.nsaName)).Nodup
  strref : ∀ nsa ∈ nsAtts, nsa.strref = isMemberName nsa.nsaName

def numericOf (nsAtts : List NonStdAtt) (s : String) : Bool :=
  nsAtts.any fun nsa => nsa.nsaName = s && nsa.numeric

theorem attTable_nil : AttTable [] where
  positionIndexed := positionIndexed_nil
  nodup := List.nodup_nil
  strref := by simp

variable {nsAtts nsAtts' : List NonStdAtt} {i a b : Nat} {nsa : NonStdAtt}

theorem AttTable.numericOf_eq (h : AttTable nsAtts) (hi : nsAtts[i]? = some nsa) :
    numericOf nsAtts nsa.nsaName = nsa.numeric := by
  have hmem := List.mem_of_getElem? hi
  rw [Bool.eq_iff_iff]
  constructor
  · intro hany
    obtain ⟨nsa', hmem', hand⟩ := List.any_eq_true.1 hany
    rw [Bool.and_eq_true, decide_eq_true_eq] at hand
    rw [← List.inj_on_of_nodup_map h.nodup hmem' hmem hand.1]
    exact hand.2
  · intro hn
    exact List.any_eq_true.2 ⟨nsa, hmem, by simp [hn]⟩

theorem registerNonStdAtt_table (s : String) (h : AttTable nsAtts) :
    AttTable (registerNonStdAtt s nsAtts).2 ∧
      ∀ s', numericOf (registerNonStdAtt s nsAtts).2 s' = numericOf nsAtts s' := by
  have hpos := (registerNonStdAtt_spec s h.positionIndexed).1
  unfold registerNonStdAtt at hpos ⊢
  split
  · exact ⟨h, fun _ => rfl⟩
  · next hnone =>
    rw [hnone] at hpos
    refine ⟨⟨hpos, ?_, ?_⟩, ?_⟩
    · have hnew : ∀ nsa ∈ nsAtts, nsa.nsaName ≠ s := by
        intro nsa hmem
        simpa using List.findIdx?_eq_none_iff.1 hnone nsa hmem
      rw [List.map_append, List.nodup_append']
      refine ⟨h.nodup, List.nodup_singleton _, ?_⟩
      rw [List.map_singleton, List.disjoint_singleton]
      intro hmem
      obtain ⟨nsa, hnsa, hname⟩ := List.mem_map.1 hmem
      exact hnew nsa hnsa hname
    · intro nsa hmem
      rcases List.mem_append.1 hmem with hmem | hmem
      · exact h.strref nsa hmem
      · rw [List.mem_singleton.1 hmem]
        rfl
    · intro s'
      simp [numericOf]

theorem modify_numeric_table (h : AttTable nsAtts) (hi : nsAtts[i]? = some nsa) :
    AttTable (nsAtts.modify i fun nsa => { nsa with numeric := true }) ∧
      ∀ s, numericOf (nsAtts.modify i fun nsa => { nsa with numeric := true }) s
        = (numericOf nsAtts s || decide (nsa.nsaName = s)) := by
  have hnames : (nsAtts.modify i fun nsa => { nsa with numeric := true }).map (·.nsaName)
      = nsAtts.map (·.nsaName) := by
    refine List.ext_getElem? fun k => ?_
    rw [List.getElem?_map, List.getElem?_modify, List.getElem?_map]
    cases nsAtts[k]? with
    | none => rfl
    | some nsa' => by_cases hk : i = k <;> simp [hk]
  -- an entry of the new list is one of the old, with the flag set at `i`
  have hentry : ∀ {nsa'}, nsa' ∈ nsAtts.modify i (fun nsa => { nsa with numeric := true }) ↔
      ∃ k old, nsAtts[k]? = some old ∧ nsa' = if i = k then { old with numeric := true } else old := by
    intro nsa'
    rw [List.mem_iff_getElem?]
    simp only [List.getElem?_modify, Option.map_eq_map, Option.map_eq_some_iff]
    constructor
    · rintro ⟨k, old, hk, rfl⟩
      exact ⟨k, old, hk, rfl⟩
    · rintro ⟨k, old, hk, rfl⟩
      exact ⟨k, old, hk, rfl⟩
  refine ⟨⟨(modify_numeric_spec i h.positionIndexed).1, hnames ▸ h.nodup, ?_⟩, ?_⟩
  · intro nsa' hmem
    obtain ⟨k, old, hk, rfl⟩ := hentry.1 hmem
    have hold := h.strref old (List.mem_of_getElem? hk)
    split <;> exact hold
  · intro s
    rw [Bool.eq_iff_iff, Bool.or_eq_true, decide_eq_true_eq]
    unfold numericOf
    simp only [List.any_eq_true, Bool.and_eq_true, decide_eq_true_eq]
    constructor
    · rintro ⟨nsa', hmem, hname, hnum⟩
      obtain ⟨k, old, hk, rfl⟩ := hentry.1 hmem
      by_cases hik : i = k
      · subst hik
        obtain rfl := Option.some.inj (hi.symm.trans hk)
        rw [if_pos rfl] at hname
        exact .inr hname
      · rw [if_neg hik] at hname hnum
        exact .inl ⟨old, List.mem_of_getElem? hk, hname, hnum⟩
    · rintro (⟨old, hmem, hname, hnum⟩ | hname)
      · obtain ⟨k, hk⟩ := List.mem_iff_getElem?.1 hmem
        exact ⟨_, hentry.2 ⟨k, old, hk, rfl⟩, by split <;> exact hname, by split <;> first | rfl | exact hnum⟩
      · exact ⟨_, hentry.2 ⟨i, nsa, hi, rfl⟩, by rw [if_pos rfl]; exact hname, by rw [if_pos rfl]⟩

/-! ## Normalization -/

/-- What normalization adds to the table. -/
structure TableStep (nsAtts nsAtts' : List NonStdAtt) (compared : String → Bool) : Prop where
  table : AttTable nsAtts'
  keeps : Extends nsAtts nsAtts'
  numeric : ∀ s, stdSelector s = none → numericOf nsAtts' s = (numericOf nsAtts s || compared s)

theorem TableStep.refl (h : AttTable nsAtts) : TableStep nsAtts nsAtts fun _ => false where
  table := h
  keeps := .refl _
  numeric := by simp

theorem TableStep.trans {l₁ l₂ l₃ : List NonStdAtt} {c₁ c₂ : String → Bool} (h₁ : TableStep l₁ l₂ c₁)
    (h₂ : TableStep l₂ l₃ c₂) : TableStep l₁ l₃ fun s => c₁ s || c₂ s where
  table := h₂.table
  keeps := h₁.keeps.trans h₂.keeps
  numeric s hs := by rw [h₂.numeric s hs, h₁.numeric s hs, Bool.or_assoc]

variable {purpose : Purpose} {s attName : String} {n t r' q : PNode}

theorem makeAttnameNode_table (ht : AttTable nsAtts)
    (h : makeAttnameNode purpose a s nsAtts = .ok (n, nsAtts')) :
    TableStep nsAtts nsAtts' fun _ => false := by
  have hkeeps := (makeAttnameNode_ok ht.positionIndexed h).2.keeps
  unfold makeAttnameNode at h
  split at h
  · split at h
    · exact absurd h not_semanticError
    · cases h
      exact .refl ht
  · split at h
    · have hspec := registerNonStdAtt_table s ht
      dsimp only at h
      cases h
      exact ⟨hspec.1, hkeeps, fun s' _ => by rw [hspec.2, Bool.or_false]⟩
    · exact absurd h not_semanticError

theorem numericIn_leaf (ht : ParsedLeaf t) (s : String) : t.numericIn s = comparesWithInt s t := by
  unfold PNode.numericIn
  rw [leaves_of_parsedLeaf ht, List.any_cons, List.any_nil, Bool.or_false]

variable {sys : System}

theorem normalizeComparisonWithNonStdAtt_table {op : Op} {r : PNode} (ht : AttTable nsAtts)
    (hi : nsAtts[i]? = some nsa) (hname : nsa.nsaName = attName) (hr : ParsedVal r)
    (h : normalizeComparisonWithNonStdAtt sys i attName op r nsAtts = .ok (r', nsAtts')) :
    TableStep nsAtts nsAtts' fun s => comparesWithInt s (.op a op (.name b attName) r) := by
  cases hr with
  | val c m v =>
    obtain ⟨r₁, h₁, h₂⟩ := except_bind_eq_ok h
    cases h₂
    obtain ⟨htable, hnum⟩ := modify_numeric_table ht hi
    refine ⟨htable, (modify_numeric_spec i ht.positionIndexed).2, fun s _ => ?_⟩
    rw [hnum, hname]
    rfl
  | string c m =>
    obtain ⟨r₁, h₁, h₂⟩ := except_bind_eq_ok h
    cases h₂
    exact .refl ht
  | name c m =>
    obtain ⟨r₁, h₁, h₂⟩ := except_bind_eq_ok h
    exact absurd h₁ not_semanticError

theorem normalizeComparison_table {o : Op} {v : PNode} (ht : AttTable nsAtts) (hv : ParsedVal v)
    (h : normalizeComparison sys purpose a o (.name b s) v nsAtts = .ok (n, nsAtts')) :
    TableStep nsAtts nsAtts' fun s' => comparesWithInt s' (.op a o (.name b s) v) := by
  obtain ⟨⟨left, nsAtts₁⟩, h₁, h₂⟩ := except_bind_eq_ok h
  have hstep := makeAttnameNode_table ht h₁
  obtain ⟨hleft, -⟩ := makeAttnameNode_ok ht.positionIndexed h₁
  cases hleft with
  | attname _ _ sel hsel =>
    obtain ⟨v', h₃, h₄⟩ := except_bind_eq_ok h₂
    cases h₄
    refine ⟨hstep.table, hstep.keeps, fun s' hs' => ?_⟩
    have hne : s ≠ s' := by
      rintro rfl
      rw [hsel] at hs'
      cases hs'
    rw [hstep.numeric s' hs']
    cases v <;> simp [comparesWithInt, hne]
  | nsaname _ _ i nsa hsel hi hname =>
    obtain ⟨⟨v', nsAtts₂⟩, h₃, h₄⟩ := except_bind_eq_ok h₂
    cases h₄
    have hall := hstep.trans
      (normalizeComparisonWithNonStdAtt_table (a := a) (b := b) hstep.table hi hname hv h₃)
    simpa only [Bool.false_or] using hall

/-- After normalization a name is marked if and only if it was before or the
tree compares it with an integer. -/
theorem evlQNormalizeTree_table (hp : Parsed t) (ht : AttTable nsAtts)
    (h : evlQNormalizeTree sys purpose t nsAtts = .ok (q, nsAtts')) :
    TableStep nsAtts nsAtts' t.numericIn := by
  induction hp generalizing nsAtts q nsAtts' with
  | leaf t hleaf =>
    rw [funext (numericIn_leaf hleaf)]
    cases hleaf with
    | name a s => exact makeAttnameNode_table ht h
    | comparison a b o s v ho hv =>
      rw [evlQNormalizeTree_comparison ho] at h
      exact normalizeComparison_table ht hv h
  | not a e he ih =>
    obtain ⟨⟨e', nsAtts₁⟩, h₁, h₂⟩ := except_bind_eq_ok h
    cases h₂
    have hstep := ih ht h₁
    unfold PNode.numericIn at hstep ⊢
    rwa [leaves_not]
  | junct j a l r hl hr ihl ihr =>
    obtain ⟨l', nsAtts₁, r', h₁, h₂, rfl⟩ := evlQNormalizeTree_junct h
    have hstep := (ihl ht h₁).trans (ihr (ihl ht h₁).table h₂)
    unfold PNode.numericIn at hstep ⊢
    simpa only [leaves_junct, List.any_append] using hstep

/-! ## Evaluation -/

/-- The attribute of a record is the one under its entry's name. -/
theorem resolvedAtt_eq (ht : AttTable nsAtts) (lookup : Option Template)
    (hi : nsAtts[i]? = some nsa) :
    resolvedAtt lookup nsa
      = (namedNumeric lookup (numericOf nsAtts) nsa.nsaName).bind (·.value) := by
  have hmember := ht.strref nsa (List.mem_of_getElem? hi)
  unfold namedNumeric
  rw [ht.numericOf_eq hi]
  cases lookup with
  | none => rfl
  | some t =>
    simp only [resolvedAtt, fixedAtt, screenedAtt, Option.bind_some, Template.named, ← hmember]
    by_cases hs : nsa.strref = true
    · simp only [hs, if_true, Bool.and_true]
      cases t.getattMaster nsa.nsaName with
      | none => rfl
      | some a => cases nsa.numeric <;> cases hn : isNumericAtt (t.att a) <;> simp [Option.filter, hn]
    · simp only [hs, if_false, Bool.and_false, Bool.false_eq_true]
      cases t.getatt nsa.nsaName with
      | none => rfl
      | some a => cases nsa.numeric <;> cases hn : isNumericAtt (t.att a) <;> simp [Option.filter, hn]

theorem normalizeStringOrRegex_cases {op : Op}
    (h : normalizeStringOrRegex sys attName op a s = .ok r') :
    ((op = .reMatch ∨ op = .reNoMatch) ∧ r' = .regex a s) ∨
      ((op ≠ .reMatch ∧ op ≠ .reNoMatch) ∧ r' = .string a s) := by
  obtain ⟨x, hx, h⟩ := except_bind_eq_ok h
  unfold normalizeRegex at hx
  split at hx
  · next hop =>
    split at hx
    · cases hx
      cases h
      exact .inl ⟨hop, rfl⟩
    · exact absurd hx not_semanticError
  · next hop =>
    cases hx
    obtain ⟨-, rfl⟩ := verifyOp_ok h
    exact .inr ⟨not_or.1 hop, rfl⟩

theorem compareExistingAtt_says {sys' : System} {op : Op}
    (h : normalizeStringOrRegex sys attName op a s = .ok r') (v : Attribute) :
    (compareExistingAtt sys' op v r').getD false =
      match evlattGetstring v evlAttrstrMaxlen with
      | .ok text =>
        if op = .reMatch then sys'.regexec s text
        else if op = .reNoMatch then !sys'.regexec s text
        else compareStrings op text s
      | .error _ => false := by
  rcases normalizeStringOrRegex_cases h with ⟨hop, rfl⟩ | ⟨⟨h1, h2⟩, rfl⟩
  · simp only [compareExistingAtt]
    cases evlattGetstring v evlAttrstrMaxlen with
    | error e => rfl
    | ok text => rcases hop with rfl | rfl <;> rfl
  · simp only [compareExistingAtt]
    cases evlattGetstring v evlAttrstrMaxlen with
    | error e => rfl
    | ok text =>
      dsimp only
      rw [if_neg h1, if_neg h2]
      rfl

/-- An integer operand of a non-standard attribute stays as it is. -/
theorem normalizeIntegerAtt_long {op : Op} {m : Bool} {u : UInt64}
    (h : normalizeIntegerAtt true 8 attName op (.val a m u) = .ok r') : r' = .val a m u := by
  obtain ⟨-, w, hw, rfl⟩ := normalizeIntegerAtt_iff.1 h
  have hsame : normalizedWord true 8 m u = some u := by cases m <;> simp [normalizedWord, outOfRange]
  obtain rfl := Option.some.inj (hsame.symm.trans hw)
  simp

section leaves

variable {sys : System} {purpose : Purpose} {inp : EvalInput} {lookup : Option Template}
  {final : List NonStdAtt} {ta : TmplAtts}

def HoldsAtts (lookup : Option Template) (final : List NonStdAtt) (ta : TmplAtts) : Prop :=
  ∀ (i : Nat) (nsa : NonStdAtt), final[i]? = some nsa →
    nsaAttr final ta i = some (resolvedAtt lookup nsa)

variable {nsAtts nsAtts' : List NonStdAtt}

/-- A comparison with a non-standard attribute is worth what it says. -/
theorem nsaComparison_says (hf : AttTable final) (hta : HoldsAtts lookup final ta) {i : Nat}
    {nsa : NonStdAtt} (hi : final[i]? = some nsa) {a b : Nat} {o : Op} (ho : o.isComparison = true)
    {v v' : PNode} (hv : ParsedVal v)
    (h : normalizeComparisonWithNonStdAtt sys i nsa.nsaName o v nsAtts = .ok (v', nsAtts'))
    (hnum : v.isVal = true → nsa.numeric = true) :
    (evaluateTree inp final ta (.op a o (.nsaname b i nsa.nsaName) v')).getD false
      = (namedNumeric lookup (numericOf final) nsa.nsaName).any (comparisonSays inp.sys o v) := by
  rw [evaluateTree_nsaComparison ho, hta i nsa hi, Option.bind_some, resolvedAtt_eq hf lookup hi]
  cases hatt : namedNumeric lookup (numericOf final) nsa.nsaName with
  | none => rfl
  | some att =>
    obtain ⟨declared, value⟩ := att
    cases value with
    | none => rfl
    | some value =>
      rw [Option.any_some]
      simp only [Option.bind_some, comparisonSays, Option.any_some]
      by_cases hex : value.attExists = true
      · rw [if_pos hex, hex, Bool.true_and]
        cases hv with
        | val c m u =>
          obtain ⟨r₁, h₁, h₂⟩ := except_bind_eq_ok h
          cases h₂
          rw [normalizeIntegerAtt_long h₁]
          have hdeclared : isNumericAtt declared = true := by
            unfold namedNumeric at hatt
            rw [hf.numericOf_eq hi, hnum rfl, Option.filter_eq_some_iff] at hatt
            simpa using hatt.2
          simp [compareExistingAtt, hdeclared]
        | string c m =>
          obtain ⟨r₁, h₁, h₂⟩ := except_bind_eq_ok h
          cases h₂
          exact compareExistingAtt_says h₁ value
        | name c m =>
          obtain ⟨r₁, h₁, h₂⟩ := except_bind_eq_ok h
          exact absurd h₁ not_semanticError
      · rw [if_neg hex, Bool.eq_false_iff.2 hex]
        rfl

theorem leaf_says (hf : AttTable final) (hta : HoldsAtts lookup final ta) {t n : PNode}
    (hp : ParsedLeaf t) (hpos : PositionIndexed nsAtts)
    (h : evlQNormalizeTree sys purpose t nsAtts = .ok (n, nsAtts')) (hext : Extends nsAtts' final)
    (hnum : ∀ s, stdSelector s = none → t.numericIn s = true → numericOf final s = true) :
    (evaluateTree inp final ta n).getD false
      = leafSays sys inp (namedNumeric lookup (numericOf final)) t := by
  cases hp with
  | name a s =>
    obtain ⟨hleaf, -⟩ := makeAttnameNode_ok hpos h
    cases hleaf with
    | attname _ _ sel hsel =>
      rw [leafSays, hsel]
      rfl
    | nsaname _ _ i nsa hsel hi hname =>
      obtain ⟨nsa', hi', hname'⟩ := hext i nsa hi
      rw [leafSays, hsel, evaluateTree_nsaname, hta i nsa' hi', resolvedAtt_eq hf lookup hi', hname',
        hname]
      cases namedNumeric lookup (numericOf final) s with
      | none => rfl
      | some att => rfl
  | comparison a b o s v ho hv =>
    rw [evlQNormalizeTree_comparison ho] at h
    obtain ⟨⟨left, nsAtts₁⟩, h₁, h₂⟩ := except_bind_eq_ok h
    obtain ⟨hleft, hstep⟩ := makeAttnameNode_ok hpos h₁
    cases hleft with
    | attname _ _ sel hsel =>
      obtain ⟨v', h₃, h₄⟩ := except_bind_eq_ok h₂
      cases h₄
      rw [leafSays, hsel, evaluateTree_stdComparison ho]
      dsimp only
      rw [stdComparisonSays, h₃]
    | nsaname _ _ i nsa hsel hi hname =>
      obtain ⟨⟨v', nsAtts₂⟩, h₃, h₄⟩ := except_bind_eq_ok h₂
      cases h₄
      have hext₁ := (normalizeComparisonWithNonStdAtt_ok hstep.positionIndexed hv h₃).2.2
      obtain ⟨nsa', hi', hname'⟩ := (hext₁.trans hext) i nsa hi
      obtain rfl := hname'.trans hname
      rw [leafSays, hsel]
      refine nsaComparison_says hf hta hi' ho hv h₃ fun hval => ?_
      rw [← hf.numericOf_eq hi']
      refine hnum _ hsel ?_
      rw [numericIn_leaf (.comparison a b o _ v ho hv)]
      cases hv with
      | val c m u => exact decide_eq_true rfl
      | _ => cases hval

theorem truth_says (hf : AttTable final) (hta : HoldsAtts lookup final ta) {t q : PNode}
    (hp : Parsed t) (hpos : PositionIndexed nsAtts)
    (h : evlQNormalizeTree sys purpose t nsAtts = .ok (q, nsAtts')) (hext : Extends nsAtts' final)
    (hnum : ∀ s, stdSelector s = none → t.numericIn s = true → numericOf final s = true) :
    truth inp final ta q = saysOf sys inp lookup (numericOf final) t := by
  unfold saysOf
  induction hp generalizing nsAtts q nsAtts' with
  | leaf t hleaf =>
    have hn := (evlQNormalizeTree_leaf hleaf hpos h).1.normalizedLeaf
    rw [truth_leaf hn, leaf_says hf hta hleaf hpos h hext hnum]
    cases hleaf with
    | name a s => rfl
    | comparison a b o s v ho hv => cases o <;> first | rfl | cases ho
  | not a e he ih =>
    obtain ⟨⟨e', nsAtts₁⟩, h₁, h₂⟩ := except_bind_eq_ok h
    cases h₂
    unfold PNode.numericIn at hnum
    rw [leaves_not] at hnum
    rw [truth, PNode.asserts, ih hpos h₁ hext hnum]
  | junct j a l r hl hr ihl ihr =>
    obtain ⟨l', nsAtts₁, r', h₁, h₂, rfl⟩ := evlQNormalizeTree_junct h
    have hstep := (evlQNormalizeTree_leaves hl hpos h₁).2.2
    have hkeeps := (evlQNormalizeTree_leaves hr hstep.positionIndexed h₂).2.2.keeps
    unfold PNode.numericIn at hnum
    simp only [leaves_junct, List.any_append, Bool.or_eq_true] at hnum
    have hleft := ihl hpos h₁ (hkeeps.trans hext) fun s hs hc => hnum s hs (.inl hc)
    have hright := ihr hstep.positionIndexed h₂ hext fun s hs hc => hnum s hs (.inr hc)
    cases j with
    | and => rw [Op.ofJunctor, truth, PNode.asserts, hleft, hright]
    | or => rw [Op.ofJunctor, truth, PNode.asserts, hleft, hright]

end leaves

/-! ## Queries -/

theorem asserts_congr {leaf leaf' : PNode → Bool} (hp : Parsed t)
    (h : ∀ n ∈ t.leaves, leaf n = leaf' n) : t.asserts leaf = t.asserts leaf' := by
  induction hp with
  | leaf t hleaf =>
    rw [leaves_of_parsedLeaf hleaf] at h
    have heq := h t (List.mem_singleton_self t)
    cases hleaf with
    | name a s => exact heq
    | comparison a b o s v ho hv => cases o <;> first | exact heq | cases ho
  | not a e he ih =>
    rw [leaves_not] at h
    rw [PNode.asserts, PNode.asserts, ih h]
  | junct j a l r hl hr ihl ihr =>
    rw [leaves_junct] at h
    have hleft := ihl fun n hn => h n (List.mem_append_left _ hn)
    have hright := ihr fun n hn => h n (List.mem_append_right _ hn)
    cases j with
    | and => rw [Op.ofJunctor, PNode.asserts, PNode.asserts, hleft, hright]
    | or => rw [Op.ofJunctor, PNode.asserts, PNode.asserts, hleft, hright]

/-- Only the names of attributes that are not standard ones matter. -/
theorem saysOf_congr {inp : EvalInput} {lookup : Option Template} {numeric numeric' : String → Bool}
    (hp : Parsed t) (h : ∀ s, stdSelector s = none → numeric s = numeric' s) :
    saysOf sys inp lookup numeric t = saysOf sys inp lookup numeric' t := by
  refine asserts_congr hp fun n _ => ?_
  have hnamed : ∀ s, stdSelector s = none →
      namedNumeric lookup numeric s = namedNumeric lookup numeric' s := by
    intro s hs
    unfold namedNumeric
    rw [h s hs]
  cases n with
  | name a s =>
    simp only [leafSays]
    split
    · rfl
    · next hs => rw [hnamed s hs]
  | op a o l r =>
    cases l with
    | name b s =>
      simp only [leafSays]
      split
      · rfl
      · next hs => rw [hnamed s hs]
    | _ => rfl
  | _ => rfl

/-- What a query answers is what it says, with the attributes that must be
numeric because of some comparison in it taken for missing where they are
not. -/
theorem buildQuery_says {ns : Option NonStdAtts} (hp : Parsed t)
    (hq : buildQuery sys purpose t = some (.ok (q, ns))) (inp : EvalInput) (flags : TmplMgmtFlags)
    (lookup : Option Template) {b : Bool} (hb : evlQEvaluateTree inp flags lookup q ns = some b) :
    b = saysOf sys inp lookup t.numericIn t := by
  unfold buildQuery at hq
  split at hq
  · cases hq
  · next qexpr nsAtts hnorm =>
    have hstep := evlQNormalizeTree_table hp attTable_nil hnorm
    have hnum : ∀ s, stdSelector s = none → numericOf nsAtts s = t.numericIn s := by
      intro s hs
      rw [hstep.numeric s hs]
      rfl
    have hmeans : ∀ ta, HoldsAtts lookup nsAtts ta →
        truth inp nsAtts ta qexpr = saysOf sys inp lookup t.numericIn t := by
      intro ta hta
      rw [← saysOf_congr hp hnum]
      exact truth_says hstep.table hta hp positionIndexed_nil hnorm (.refl _)
        fun s hs hc => (hnum s hs).trans hc
    obtain ⟨⟨q', ns'⟩, hopt, hpair⟩ := Option.map_eq_some_iff.1 hq
    cases hpair
    by_cases hne : nsAtts = []
    · rw [if_pos hne, evlQOptimizeTree] at hopt
      cases hopt
      subst hne
      have hn := (evlQNormalizeTree_leaves hp positionIndexed_nil hnorm).1
      rw [← truth_of_evaluateTree hn hb]
      exact hmeans none fun i nsa hi => by cases hi
    · rw [if_neg hne] at hopt
      have hreg := evlQNormalizeTree_registered hp hnorm hne
      obtain ⟨q'', hfrom, hopt'⟩ := @evlQOptimizeTree_eq _ ⟨nsAtts, evlFuzzyMaybe⟩ hreg
      rw [hopt'] at hopt
      cases hopt
      obtain ⟨out, ho, rfl⟩ := Option.map_eq_some_iff.1 hb
      rw [evaluateNsaTree_truth hfrom hreg ho]
      exact hmeans _ fun i nsa hi => nsaAttr_map hreg.positionIndexed _ hi

/-- Comparisons of one attribute with integers and strings do not change one
another, but for this: where a query compares a name with an integer
anywhere, an attribute under that name that is not numeric is taken for
missing everywhere in it. -/
theorem mixed_comparisons_independent {sys : System} {purpose : Purpose} {t q : PNode}
    {ns : Option NonStdAtts} (hp : Parsed t) (hq : buildQuery sys purpose t = some (.ok (q, ns)))
    (inp : EvalInput) (flags : TmplMgmtFlags) (lookup : Option Template) {b : Bool}
    (hb : evlQEvaluateTree inp flags lookup q ns = some b) :
    b = saysOf sys inp lookup t.numericIn t ∧
      ((∀ s att, t.numericIn s = true → lookup.bind (·.named s) = some att →
          isNumericAtt att.declared = true) →
        b = saysOf sys inp lookup (fun _ => false) t) := by
  have hmeans := buildQuery_says hp hq inp flags lookup hb
  refine ⟨hmeans, fun hnum => ?_⟩
  have hsame : namedNumeric lookup t.numericIn = namedNumeric lookup fun _ => false := by
    funext s
    unfold namedNumeric
    cases hatt : lookup.bind (·.named s) with
    | none => rfl
    | some att =>
      cases hs : t.numericIn s with
      | false => simp [Option.filter]
      | true => simp [Option.filter, hnum s att hs hatt]
  rw [hmeans, saysOf, saysOf, hsame]

/-- `x = "abc" || x = 5`. -/
def xIsAbcOrFive : PNode :=
  .op 0 .or (.op 1 .eq (.name 2 "x") (.string 3 "abc")) (.op 4 .eq (.name 5 "x") (.val 6 false 5))

/-- A template of a string `x`, which is "abc" in the record. -/
def abcTemplate : Template where
  getatt s := if s = "x" then some 0 else none
  getattMaster _ := none
  getattPopulated _ := none
  att _ := ⟨false, .string, false, 0, 0, 0, 0, .fin 0, .fin 0, .error .einval⟩
  populatedAtt _ := ⟨false, .string, true, 0, 0, 0, 0, .fin 0, .fin 0, .ok "abc"⟩

theorem parsed_xIsAbcOrFive : Parsed xIsAbcOrFive :=
  .junct .or 0 _ _ (.leaf _ (.comparison 1 2 .eq "x" _ rfl (.string 3 "abc")))
    (.leaf _ (.comparison 4 5 .eq "x" _ rfl (.val 6 false 5)))

/-- The comparison with 5 makes the one with "abc" false. -/
theorem xIsAbcOrFive_does_not_match : Parsed xIsAbcOrFive ∧
      ∃ q ns, buildQuery .bare ⟨true, false⟩ xIsAbcOrFive = some (.ok (q, ns)) ∧
        evlQEvaluateTree (recordWithId 1) ⟨false, false⟩ (some abcTemplate) q ns = some false ∧
        saysOf .bare (recordWithId 1) (some abcTemplate) (fun _ => false) xIsAbcOrFive = true :=
  ⟨parsed_xIsAbcOrFive, _, _, rfl, by decide, by decide⟩

/-- Where `x` must be a number and is not, the query says no, too. -/
theorem mixed_comparisons_independent_abc :
    saysOf .bare (recordWithId 1) (some abcTemplate) xIsAbcOrFive.numericIn xIsAbcOrFive = false := by
  obtain ⟨q, ns, hq, hb⟩ : ∃ q ns, buildQuery .bare ⟨true, false⟩ xIsAbcOrFive = some (.ok (q, ns)) ∧
      evlQEvaluateTree (recordWithId 1) ⟨false, false⟩ (some abcTemplate) q ns = some false :=
    ⟨_, _, rfl, by decide⟩
  exact (mixed_comparisons_independent parsed_xIsAbcOrFive hq _ _ _ hb).1.symm

end Evlog.Query
