/-
Evlog.Query.Create — posix_log_query_create (posix1.c).

From the text of a query to the tree that is evaluated and its list of
non-standard attributes. The lexer and the grammar are the parameter
`parse`. The purpose of a query is looked at in two places only:
non-standard attributes are names for nothing unless it is
`EVL_PRPS_TEMPLATE`, and `data` may not be referred to if it is
`EVL_PRPS_RESTRICTED`. So a purpose that allows more makes the same query
of an expression (`posixLogQueryCreate_of_le`).
-/
import Evlog.Query.DivideTheorems
import Evlog.Query.NormalizeTheorems

namespace Evlog.Query

open Evlog.Lib

def posixLogPrpsNotify : UInt32 := 0x1
def evlPrpsTemplate : UInt32 := 0x4
def evlPrpsRestricted : UInt32 := 0x8
def posixLogPrpsMask : UInt32 := 0xf

/-- A `posix_log_query_t`. -/
structure PosixLogQuery where
  tree : PNode
  nonStdAtts : Option NonStdAtts
  expr : List UInt8
  purpose : UInt32

/-- What normalization looks at in `_evlQFlags`. -/
def purposeOf (purpose : UInt32) : Purpose where
  template := purpose &&& evlPrpsTemplate ≠ 0
  restricted := purpose &&& evlPrpsRestricted ≠ 0

def purposeStatus (purpose : UInt32) : Option Errno :=
  let status : Option Errno :=
    if purpose = 0 ∨ purpose &&& ~~~posixLogPrpsMask ≠ 0 then some .einval else none
  if purpose &&& evlPrpsTemplate ≠ 0 ∧
      purpose &&& (posixLogPrpsNotify ||| evlPrpsRestricted) ≠ 0 then some .enotsup
  else status

/-- The tree and the list for an expression, if it is one; the list that
nothing was registered in is NULL. An assertion that fails in
`_evlQOptimizeTree` is the outer `none`. -/
def buildQuery (sys : System) (purpose : Purpose) (t : PNode) :
    Option (Except Errno (PNode × Option NonStdAtts)) :=
  match evlQNormalizeTree sys purpose t [] with
  | .error _ => some (.error .einval)
  | .ok (qexpr, nsAtts) =>
    (evlQOptimizeTree qexpr (if nsAtts = [] then none else some ⟨nsAtts, evlFuzzyMaybe⟩)).map .ok

def posixLogQueryCreate (sys : System) (parse : List UInt8 → Option PNode) (expr : List UInt8)
    (purpose : UInt32) : Option (Except Errno PosixLogQuery) :=
  match purposeStatus purpose with
  | some e => some (.error e)
  | none =>
    match parse expr with
    | none => some (.error .einval)
    | some t =>
      (buildQuery sys (purposeOf purpose) t).map fun r =>
        r.map fun (tree, nonStdAtts) => ⟨tree, nonStdAtts, expr, purpose⟩

/-! ## The nodes of a query -/

/-- Whatever normalization accepts is reordered without a failed
assertion: no list is empty when a node is taken from it, and none is left
over. The comparisons and `!` subtrees are the same as before, and so are
the nodes, so that `_evlQFreeTree` frees each of them once. -/
theorem evlQReorderTree_keeps_nodes {sys : System} {purpose : Purpose} {t q : PNode}
    {nsAtts : List NonStdAtt} (ht : Parsed t)
    (h : evlQNormalizeTree sys purpose t [] = .ok (q, nsAtts)) :
    ∃ q', evlQReorderTree q (if nsAtts = [] then none else some ⟨nsAtts, evlFuzzyMaybe⟩) = some q' ∧
      q'.parts.Perm q.parts ∧ (evlQFreeTree q').Perm (evlQFreeTree q) ∧
      ((evlQFreeTree q).Nodup → (evlQFreeTree q').Nodup) := by
  by_cases hne : nsAtts = []
  · rw [if_pos hne]
    exact ⟨q, rfl, .refl _, .refl _, id⟩
  · rw [if_neg hne]
    have hreg := evlQNormalizeTree_registered ht h hne
    obtain ⟨q', hdiv, hparts, hnodes⟩ := divideTree_keeps hreg.normalized hreg.exists_ref
    exact ⟨q', hdiv, hparts, hnodes, hnodes.nodup_iff.mpr⟩

/-- `foo = 5 && (recid = 1 && uid = 2)`. -/
def fooRecidUid : PNode :=
  .op 0 .and (.op 1 .eq (.name 2 "foo") (.val 3 false 5))
    (.op 4 .and (.op 5 .eq (.name 6 "recid") (.val 7 false 1))
      (.op 8 .eq (.name 9 "uid") (.val 10 false 2)))

theorem parsed_fooRecidUid : Parsed fooRecidUid :=
  .junct .and 0 _ _ (.leaf _ (.comparison 1 2 .eq "foo" _ rfl (.val 3 false 5)))
    (.junct .and 4 _ _ (.leaf _ (.comparison 5 6 .eq "recid" _ rfl (.val 7 false 1)))
      (.leaf _ (.comparison 8 9 .eq "uid" _ rfl (.val 10 false 2))))

/-- `(recid = 1 && uid = 2) AND_LATER foo = 5` has the eleven nodes of the
query it is made from. -/
theorem evlQReorderTree_keeps_nodes_three :
    ∃ q nsAtts q', evlQNormalizeTree .bare ⟨true, false⟩ fooRecidUid [] = .ok (q, nsAtts) ∧
      evlQReorderTree q (some ⟨nsAtts, evlFuzzyMaybe⟩) = some q' ∧ (evlQFreeTree q').Nodup := by
  have hnorm : evlQNormalizeTree .bare ⟨true, false⟩ fooRecidUid []
      = .ok (.op 0 .and (.op 1 .eq (.nsaname 2 0 "foo") (.val 3 false 5))
          (.op 4 .and (.op 5 .eq (.attname 6 .recid "recid") (.val 7 false 1))
            (.op 8 .eq (.attname 9 .uid "uid") (.val 10 false 2))),
        [⟨"foo", evlFuzzyMaybe, true, false, 0⟩]) := rfl
  obtain ⟨q', hq', -, -, hdistinct⟩ := evlQReorderTree_keeps_nodes parsed_fooRecidUid hnorm
  exact ⟨_, _, q', hnorm, hq', hdistinct (by decide)⟩

/-! ## Purposes that allow more -/

/-- What `p` allows, `p'` allows. -/
structure Purpose.Le (p p' : Purpose) : Prop where
  template : p.template = true → p'.template = true
  restricted : p'.restricted = true → p.restricted = true

variable {p p' : Purpose} {nsAtts : List NonStdAtt}

theorem makeAttnameNode_of_le (h : p.Le p') {a : Nat} {s : String} {r : PNode × List NonStdAtt}
    (hr : makeAttnameNode p a s nsAtts = .ok r) : makeAttnameNode p' a s nsAtts = .ok r := by
  unfold makeAttnameNode at hr ⊢
  split at hr
  · split at hr
    · exact absurd hr not_semanticError
    · next hdata =>
        rw [if_neg fun hd => hdata ⟨hd.1, h.restricted hd.2⟩]
        exact hr
  · split at hr
    · next htemplate => rwa [if_pos (h.template htemplate)]
    · exact absurd hr not_semanticError

variable {sys : System} {q : PNode × List NonStdAtt}

theorem normalizeComparison_of_le (h : p.Le p') {a : Nat} {o : Op} {l r : PNode}
    (hq : normalizeComparison sys p a o l r nsAtts = .ok q) :
    normalizeComparison sys p' a o l r nsAtts = .ok q := by
  unfold normalizeComparison at hq ⊢
  split at hq
  · obtain ⟨left, hleft, hrest⟩ := except_bind_eq_ok hq
    rw [makeAttnameNode_of_le h hleft]
    exact hrest
  · cases hq

/-- Normalization for a purpose that allows more gives the same tree. -/
theorem evlQNormalizeTree_of_le (h : p.Le p') {t : PNode}
    (hq : evlQNormalizeTree sys p t nsAtts = .ok q) :
    evlQNormalizeTree sys p' t nsAtts = .ok q := by
  fun_induction evlQNormalizeTree sys p t nsAtts generalizing q with
  | case1 nsAtts => exact hq
  | case2 a s nsAtts => exact makeAttnameNode_of_le h hq
  | case3 => exact absurd hq not_semanticError
  | case4 => exact absurd hq not_semanticError
  | case5 a l r nsAtts ih =>
    obtain ⟨⟨l', nsAtts'⟩, hl, hrest⟩ := except_bind_eq_ok hq
    rw [evlQNormalizeTree, ih hl]
    exact hrest
  | case6 a l r nsAtts ihl ihr =>
    obtain ⟨⟨l', nsAtts'⟩, hl, hrest⟩ := except_bind_eq_ok hq
    obtain ⟨⟨r', nsAtts''⟩, hr, hrest⟩ := except_bind_eq_ok hrest
    have hright := ihr nsAtts' hr
    rw [evlQNormalizeTree, ihl hl]
    change evlQNormalizeTree sys p' r nsAtts' >>= _ = _
    rw [hright]
    exact hrest
  | case7 a l r nsAtts ihl ihr =>
    obtain ⟨⟨l', nsAtts'⟩, hl, hrest⟩ := except_bind_eq_ok hq
    obtain ⟨⟨r', nsAtts''⟩, hr, hrest⟩ := except_bind_eq_ok hrest
    have hright := ihr nsAtts' hr
    rw [evlQNormalizeTree, ihl hl]
    change evlQNormalizeTree sys p' r nsAtts' >>= _ = _
    rw [hright]
    exact hrest
  | case8 a o l r nsAtts hnot hand hor =>
    rw [evlQNormalizeTree.eq_8 _ _ _ _ _ _ _ hnot hand hor]
    exact normalizeComparison_of_le h hq
  | case9 n nsAtts h₁ h₂ h₃ h₄ h₅ h₆ h₇ h₈ =>
    rw [evlQNormalizeTree.eq_9 _ _ _ _ h₁ h₂ h₃ h₄ h₅ h₆ h₇ h₈]
    exact hq

/-- The same for what is made of it, or is not because of an assertion. -/
theorem buildQuery_of_le (h : p.Le p') {t : PNode} {r : Option (PNode × Option NonStdAtts)}
    (hr : buildQuery sys p t = r.map .ok) : buildQuery sys p' t = r.map .ok := by
  unfold buildQuery at hr ⊢
  split at hr
  · cases r with
    | none => cases hr
    | some r => exact absurd (Option.some.inj hr) (by simp)
  · next hq => rwa [evlQNormalizeTree_of_le h hq]

variable {parse : List UInt8 → Option PNode}

/-- A query is an expression's whatever it was made for: what it makes for
a purpose that allows more has the same tree. -/
theorem posixLogQueryCreate_of_le {expr : List UInt8} {purpose purpose' : UInt32}
    (h : (purposeOf purpose).Le (purposeOf purpose')) (hstatus : purposeStatus purpose' = none)
    {q : Option PosixLogQuery} (hq : posixLogQueryCreate sys parse expr purpose = q.map .ok) :
    posixLogQueryCreate sys parse expr purpose' =
      (q.map fun q => { q with purpose := purpose' }).map .ok := by
  have hno : ∀ e : Errno, (some (.error e) : Option (Except Errno PosixLogQuery)) ≠ q.map .ok := by
    cases q <;> simp
  unfold posixLogQueryCreate at hq ⊢
  rw [hstatus]
  split at hq
  · exact absurd hq (hno _)
  · split at hq
    · exact absurd hq (hno _)
    · next t ht =>
        cases hbuild : buildQuery sys (purposeOf purpose) t with
        | none =>
          rw [hbuild] at hq
          rw [buildQuery_of_le (r := none) h hbuild]
          cases q with
          | none => rfl
          | some q => cases hq
        | some r =>
          rw [hbuild] at hq
          cases r with
          | error e => exact absurd hq (hno e)
          | ok r =>
            rw [buildQuery_of_le (r := some r) h hbuild]
            cases q with
            | none => cases hq
            | some q =>
              obtain rfl := Except.ok.inj (Option.some.inj hq)
              rfl

theorem purposeStatus_of_ok {expr : List UInt8} {purpose : UInt32} {q : PosixLogQuery}
    (hq : posixLogQueryCreate sys parse expr purpose = some (.ok q)) :
    purposeStatus purpose = none := by
  unfold posixLogQueryCreate at hq
  split at hq
  · cases hq
  · assumption

/-- What `_evlQEvaluateTree` makes of a record. -/
def PosixLogQuery.evaluate (q : PosixLogQuery) (inp : EvalInput) (flags : TmplMgmtFlags)
    (lookup : Option Template) : Option Bool :=
  evlQEvaluateTree inp flags lookup q.tree q.nonStdAtts

end Evlog.Query
