/-
Evlog.Query.EvaluateTheorems — how `evaluateTree` goes through a tree.

AND and OR nodes are the in-order junctions of Evlog.Lib.Junction. A leaf
reads the template through one attribute at most, the one behind its
reference (`nsaAttr`): two evaluations that agree on the referenced
attributes agree (`evaluateTree_congr`), and a tree all of whose leaves
return returns (`evaluateTree_isSome`).
-/
import Evlog.Query.Evaluate

namespace Evlog.Query

open Evlog.Lib

variable {inp : EvalInput} {nsAtts : List NonStdAtt} {ta : TmplAtts}

/-! ## Junctions -/

theorem evaluateTree_junct (j : Junctor) (a : Nat) (l r : PNode) :
    evaluateTree inp nsAtts ta (.op a (.ofJunctor j) l r)
      = j.seq [evaluateTree inp nsAtts ta l, evaluateTree inp nsAtts ta r] := by
  rw [Junctor.seq_cons, Junctor.seq_singleton]
  cases j <;> simp only [Op.ofJunctor, evaluateTree, Option.bind_eq_bind, Junctor.absorbing] <;>
    congr 1 <;> funext b <;> cases b <;> rfl

/-! ## Leaves -/

/-- The attribute behind a reference; `some none` is NULL. -/
def nsaAttr (nsAtts : List NonStdAtt) (ta : TmplAtts) (i : Nat) : Option (Option Attribute) :=
  match ta with
  | none => some none
  | some atts => tmplAttAt nsAtts atts i

theorem nsaAttr_map (h : PositionIndexed nsAtts) (f : NonStdAtt → Option Attribute) {i : Nat}
    {nsa : NonStdAtt} (hi : nsAtts[i]? = some nsa) :
    nsaAttr nsAtts (some (nsAtts.map f)) i = some (f nsa) := by
  simp [nsaAttr, tmplAttAt, hi, h i nsa hi]

theorem evaluateTree_nsaname (a i : Nat) (s : String) : evaluateTree inp nsAtts ta (.nsaname a i s)
      = (nsaAttr nsAtts ta i).map fun att => att.any (·.attExists) := by
  cases ta with
  | none => rfl
  | some atts =>
    simp only [evaluateTree, nsaAttr, Option.bind_eq_bind]
    rcases tmplAttAt nsAtts atts i with _ | _ | att <;> rfl

theorem evaluateTree_nsaComparison {o : Op} (ho : o.isComparison = true) (a b i : Nat)
    (s : String) (v : PNode) :
    evaluateTree inp nsAtts ta (.op a o (.nsaname b i s) v)
      = (nsaAttr nsAtts ta i).bind fun att =>
          match att with
          | none => some false
          | some att =>
            if att.attExists then compareExistingAtt inp.sys o att v else some false := by
  have heq : evaluateTree inp nsAtts ta (.op a o (.nsaname b i s) v)
      = evaluateNonStdComparison inp nsAtts ta o i v := by
    cases o <;> first | rfl | cases ho
  rw [heq]
  cases ta <;> rfl

theorem evaluateTree_stdComparison {o : Op} (ho : o.isComparison = true) (a b : Nat)
    (sel : Selector) (s : String) (v : PNode) :
    evaluateTree inp nsAtts ta (.op a o (.attname b sel s) v)
      = evaluateStdComparison inp o sel v := by
  cases o <;> first | rfl | cases ho

theorem evaluateLeaf_congr {nsAtts' : List NonStdAtt} {ta' : TmplAtts} {n : PNode}
    (hn : NormalizedLeaf n)
    (h : ∀ i, n.nsaRef? = some i → nsaAttr nsAtts ta i = nsaAttr nsAtts' ta' i) :
    evaluateTree inp nsAtts ta n = evaluateTree inp nsAtts' ta' n := by
  cases hn with
  | attname a sel s => rfl
  | nsaname a i s => rw [evaluateTree_nsaname, evaluateTree_nsaname, h i rfl]
  | stdComparison a b o sel s v ho =>
    rw [evaluateTree_stdComparison ho, evaluateTree_stdComparison ho]
  | nsaComparison a b o i s v ho =>
    rw [evaluateTree_nsaComparison ho, evaluateTree_nsaComparison ho, h i rfl]

/-! ## Trees -/

/-- Evaluation depends on the template through the referenced attributes
only. -/
theorem evaluateTree_congr {nsAtts' : List NonStdAtt} {ta' : TmplAtts} {q : PNode}
    (hq : Normalized q)
    (h : ∀ n ∈ q.leaves, ∀ i, n.nsaRef? = some i →
      nsaAttr nsAtts ta i = nsaAttr nsAtts' ta' i) :
    evaluateTree inp nsAtts ta q = evaluateTree inp nsAtts' ta' q := by
  induction hq with
  | leaf n hn =>
    rw [leaves_of_normalizedLeaf hn] at h
    exact evaluateLeaf_congr hn (h n (by simp))
  | not a e he ih =>
    rw [leaves_not] at h
    simp only [evaluateTree, ih h]
  | junct j a l r hl hr ihl ihr =>
    rw [leaves_junct] at h
    rw [evaluateTree_junct, evaluateTree_junct, ihl fun n hn => h n (List.mem_append_left _ hn),
      ihr fun n hn => h n (List.mem_append_right _ hn)]

theorem evaluateTree_isSome {q : PNode} (hq : Normalized q)
    (h : ∀ n ∈ q.leaves, (evaluateTree inp nsAtts ta n).isSome) :
    (evaluateTree inp nsAtts ta q).isSome := by
  induction hq with
  | leaf n hn => exact h n (by rw [leaves_of_normalizedLeaf hn]; simp)
  | not a e he ih =>
    rw [leaves_not] at h
    obtain ⟨b, hb⟩ := Option.isSome_iff_exists.mp (ih h)
    simp [evaluateTree, hb]
  | junct j a l r hl hr ihl ihr =>
    rw [leaves_junct] at h
    rw [evaluateTree_junct]
    apply Junctor.seq_isSome
    intro x hx
    simp only [List.mem_cons, List.not_mem_nil, or_false] at hx
    rcases hx with rfl | rfl
    · exact ihl fun n hn => h n (List.mem_append_left _ hn)
    · exact ihr fun n hn => h n (List.mem_append_right _ hn)

def recordWithId (recid : Int32) : EvalInput where
  sys := .bare
  entry := ⟨0, recid, 0, 0, 0, 0, 0, 0, 0, 0, 0, 0, 0, 0, 0, 0⟩
  buf := []

end Evlog.Query
