/-
Evlog.Query.ReleaseTheorems — who releases the template of a record.

`prepareNonStdAtts` releases the template when it can do without
populating it, and leaves the pointer in the context; `evaluateNsaTree`
then releases whatever template the context has. So a template that is
not populated is released twice, and without `TMPL_REUSE1CLONE` the
second release frees memory that is already free.

The exact condition for one release is on the template and on the
annotations of the query: some attribute of the query is usable, and
every attribute that is not usable leaves the result open.
-/
import Evlog.Query.OptimizeTheorems

namespace Evlog.Query

/-- The template has an attribute under the entry's name (a struct member
is looked up in the master), and a numeric one if the query compares it
with a number. -/
def Usable (t : Template) (nsa : NonStdAtt) : Prop :=
  ∃ att, (if nsa.strref then t.getattMaster nsa.nsaName else t.getatt nsa.nsaName) = some att ∧
    (nsa.numeric = true → isNumericAtt (t.att att) = true)

theorem usable_iff (t : Template) (nsa : NonStdAtt) :
    Usable t nsa ↔ (screenedAtt t nsa).isSome = true := by
  unfold Usable screenedAtt
  generalize (if nsa.strref then t.getattMaster nsa.nsaName else t.getatt nsa.nsaName) = found
  cases found with
  | none => simp
  | some att => cases nsa.numeric <;> cases isNumericAtt (t.att att) <;> simp

theorem not_usable_iff (t : Template) (nsa : NonStdAtt) :
    ¬ Usable t nsa ↔ screenedAtt t nsa = none := by
  rw [usable_iff, Bool.not_eq_true, Option.isSome_eq_false_iff, Option.isNone_iff_eq_none]

/-- The template of a returning call went through `prepareNonStdAtts` and
then through one more release. -/
theorem evaluateNsaTree_clone {inp : EvalInput} {flags : TmplMgmtFlags} {t : Template}
    {root : PNode} {ns : NonStdAtts} {out : NsaOutcome} {c : CloneState}
    (hpos : PositionIndexed ns.nsAtts) (ho : evaluateNsaTree inp flags (some t) root ns = some out)
    (hc : out.clone = some c) :
    ∃ fb ec, PreparedCase flags ns t fb ec ∧
      ec.clone.map (evlReleasetemplate flags) = some c := by
  cases hleft : evaluateLeft inp ns.nsAtts root with
  | none => simp [evaluateNsaTree, hleft] at ho
  | some left =>
    obtain ⟨fbLeft, lr⟩ := left
    by_cases hfb : fbLeft = evlFuzzyMaybe
    · subst hfb
      obtain ⟨fb, ec, hprep, hcase⟩ := prepareNonStdAtts_cases flags t hpos
      rw [evaluateNsaTree_undecided hleft hprep, Option.map_eq_some_iff] at ho
      obtain ⟨b, -, rfl⟩ := ho
      exact ⟨fb, ec, hcase, hc⟩
    · rw [evaluateNsaTree_decided hleft hfb] at ho
      cases ho
      cases hc

/-- One release if the template was populated, two if it was not. -/
theorem PreparedCase.releases_eq_one_iff {flags : TmplMgmtFlags} {ns : NonStdAtts} {t : Template}
    {fb : EvlFuzzyBoolean} {ec : Prepared} {c : CloneState} (h : PreparedCase flags ns t fb ec)
    (hc : ec.clone.map (evlReleasetemplate flags) = some c) :
    c.releases = 1 ↔
      (∃ nsa ∈ ns.nsAtts, Usable t nsa) ∧
      ∀ nsa ∈ ns.nsAtts, ¬ Usable t nsa → nsa.nsaResultIfMissing = evlFuzzyMaybe := by
  cases h with
  | noneUsable hnone =>
    cases hc
    constructor
    · intro h
      cases h
    · rintro ⟨⟨nsa, hmem, husable⟩, -⟩
      exact absurd husable ((not_usable_iff t nsa).mpr (hnone nsa hmem))
  | decided nsa nsa' hmem hmissing hfb hmem' husable atts =>
    cases hc
    constructor
    · intro h
      cases h
    · rintro ⟨-, hall⟩
      exact absurd (hall nsa hmem ((not_usable_iff t nsa).mpr hmissing)) hfb
  | populated nsa' hmem' husable hundecided =>
    cases hc
    constructor
    · intro _
      refine ⟨⟨nsa', hmem', (usable_iff t nsa').mpr husable⟩, ?_⟩
      intro nsa hmem hnot
      exact hundecided nsa hmem ((not_usable_iff t nsa).mp hnot)
    · intro _
      rfl

/-- A call of `evaluateNsaTree` for an optimized query that obtains a
template releases it exactly once if and only if some attribute of the
query is usable and no unusable one decides the query. -/
theorem evaluateNsaTree_releases_once_iff (inp : EvalInput) (flags : TmplMgmtFlags) (t : Template)
    {q q' : PNode} {ns ns' : NonStdAtts} {out : NsaOutcome} {c : CloneState}
    (h : Registered ns.nsAtts q) (hopt : evlQOptimizeTree q (some ns) = some (q', some ns'))
    (ho : evaluateNsaTree inp flags (some t) q' ns' = some out) (hc : out.clone = some c) :
    c.releases = 1 ↔
      (∃ nsa ∈ ns'.nsAtts, Usable t nsa) ∧
      ∀ nsa ∈ ns'.nsAtts, ¬ Usable t nsa → nsa.nsaResultIfMissing = evlFuzzyMaybe := by
  have hpos : PositionIndexed ns'.nsAtts := by
    obtain ⟨q'', -, heq⟩ := evlQOptimizeTree_eq h
    rw [hopt] at heq
    cases heq
    exact annotate_positionIndexed q' h.positionIndexed
  obtain ⟨fb, ec, hcase, hclone⟩ := evaluateNsaTree_clone hpos ho hc
  exact hcase.releases_eq_one_iff hclone

def Attribute.five : Attribute where
  isArray := false
  baseType := .int
  attExists := true
  valLong := 5
  valUlong := 5
  valLonglong := 5
  valUlonglong := 5
  valDouble := .fin 5
  valLongdouble := .fin 5
  format := .ok "5"

def Template.empty : Template where
  getatt := fun _ => none
  getattMaster := fun _ => none
  getattPopulated := fun _ => none
  att := fun _ => .five
  populatedAtt := fun _ => .five

def Template.fives : Template where
  getatt := fun _ => some 0
  getattMaster := fun _ => some 0
  getattPopulated := fun _ => some 0
  att := fun _ => .five
  populatedAtt := fun _ => .five

/-- `foo = 5 && recid = 1` on record 1, with a template that has a `foo`:
one release. -/
theorem evaluateNsaTree_releases_once_iff_usable : ∃ q' ns' out c,
      evlQOptimizeTree fooAndRecid (some fooAtts) = some (q', some ns') ∧
      evaluateNsaTree (recordWithId 1) ⟨false, false⟩ (some .fives) q' ns' = some out ∧
      out.clone = some c ∧ c.releases = 1 := by
  refine ⟨_, _, _, _, rfl, rfl, rfl, ?_⟩
  refine (evaluateNsaTree_releases_once_iff (recordWithId 1) ⟨false, false⟩ .fives
    registered_fooAndRecid rfl rfl rfl).mpr ⟨?_, ?_⟩
  · exact ⟨_, List.mem_singleton_self _, 0, rfl, fun _ => rfl⟩
  · intro nsa hmem hnot
    rw [List.mem_singleton.mp hmem] at hnot
    exact absurd ⟨0, rfl, fun _ => rfl⟩ hnot

/-- The same query on the same record, with a template that has no `foo`:
the template is released, and freed, twice. -/
theorem evaluateNsaTree_releases_twice : Registered fooAtts.nsAtts fooAndRecid ∧
      ∃ q' ns' out c,
        evlQOptimizeTree fooAndRecid (some fooAtts) = some (q', some ns') ∧
        evaluateNsaTree (recordWithId 1) ⟨false, false⟩ (some .empty) q' ns' = some out ∧
        out.clone = some c ∧ c.releases = 2 ∧ c.frees = 2 :=
  ⟨registered_fooAndRecid, _, _, _, _, rfl, rfl, rfl, rfl, rfl⟩

end Evlog.Query
