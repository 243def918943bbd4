/-
Evlog.Query.Optimize — qopt.c, the optimizations on a normalized tree.

`divideTree` moves the comparisons that need no template to the left of
the root, whose AND or OR becomes AND_LATER or OR_LATER.
`simulateMissingNsa` asks, in three values, what the query would come to
if a non-standard attribute were missing; `_evlQOptimizeTree` stores its
answers with the attributes.

An `assert` that fails is `none`. `divideTree` works on nodes it unlinks:
the lists of `div_info_t` hold nodes, `behead` of an empty list is one of
its assertions, and a rebuilt parent keeps the address and the operator
of the node taken from the recycle list.
-/
import Evlog.Query.Tree

namespace Evlog.Query

open Evlog.Lib

/-! ## Optimization #1 -/

/-- `div_info_t`. -/
structure DivInfo where
  diRootOp : Op
  diPureList : List PNode
  diImpureList : List PNode
  diRecycleList : List PNode

def refsNonStdAtts : PNode → Option Bool
  | .null => some false
  | .op _ .not l _ => refsNonStdAtts l
  | .op _ .and l r | .op _ .or l r => do
    -- C's `||`: the right branch is looked at only if the left one does not refer
    if ← refsNonStdAtts l then some true else refsNonStdAtts r
  | .op _ _ (.nsaname _ _ _) _ => some true
  | .op _ _ .null _ => none
  | .op _ _ _ _ => some false
  | .nsaname _ _ _ => some true
  | .attname _ _ _ => some false
  | _ => none

/-- The branch of `diClassify` for a node that is not another root
operator. -/
def diAppend (n : PNode) (di : DivInfo) : Option DivInfo := do
  if ← refsNonStdAtts n then
    some { di with diImpureList := di.diImpureList ++ [n] }
  else
    some { di with diPureList := di.diPureList ++ [n] }

def diClassify (di : DivInfo) : PNode → Option DivInfo
  | .op a o l r =>
    if o = di.diRootOp then do
      let di' ← diClassify { di with diRecycleList := di.diRecycleList ++ [.op a o l r] } l
      diClassify di' r
    else
      diAppend (.op a o l r) di
  | n => diAppend n di

def behead : List PNode → Option (PNode × List PNode)
  | [] => none
  | n :: ns => some (n, ns)

/-- A subtree out of the nodes of one list; the second list is
`diRecycleList`, and what is left of it comes back. -/
def diRebuildSubtree : List PNode → List PNode → Option (PNode × List PNode)
  | [], _ => none
  | [n], recycle => some (n, recycle)
  | n :: m :: ns, recycle => do
    let (parent, recycle) ← behead recycle
    let (rest, recycle) ← diRebuildSubtree (m :: ns) recycle
    some (parent.setChildren n rest, recycle)

def Op.later : Junctor → Op
  | .and => .andLater
  | .or => .orLater

theorem parts_later (j : Junctor) (a : Nat) (l r : PNode) :
    (PNode.op a (.later j) l r).parts = l.parts ++ r.parts := by
  cases j <;> rw [Op.later, PNode.parts]

/-- The work of `divideTree` once the root is known to be AND or OR. -/
def divideRoot (a : Nat) (j : Junctor) (l r : PNode) : Option PNode := do
  let di ← diClassify ⟨.ofJunctor j, [], [], []⟩ l
  let di ← diClassify di r
  if di.diImpureList = [] then none
  else if di.diPureList = [] then some (.op a (.ofJunctor j) l r)
  else do
    let (left, recycle) ← diRebuildSubtree di.diPureList di.diRecycleList
    let (right, recycle) ← diRebuildSubtree di.diImpureList recycle
    if recycle = [] then some (.op a (.later j) left right) else none

def divideTree : PNode → Option PNode
  | .op a .and l r => divideRoot a .and l r
  | .op a .or l r => divideRoot a .or l r
  | root => some root

def evlQReorderTree (root : PNode) : Option NonStdAtts → Option PNode
  | none => some root
  | some _ => divideTree root

/-! ## Optimization #2 -/

/-- The value of the tree if the attribute `nsa` had none; `none` for
`nsa` is NULL, all attributes missing. -/
def simulateMissingNsa (nsa : Option Nat) : PNode → Option EvlFuzzyBoolean
  | .null => some evlFuzzyTrue
  | .attname _ sel _ => some (if sel = .data then evlFuzzyMaybe else evlFuzzyTrue)
  | .nsaname _ i _ => some (if nsa = none ∨ nsa = some i then evlFuzzyFalse else evlFuzzyMaybe)
  | .op _ .not l _ => do
    let fb ← simulateMissingNsa nsa l
    some (if fb = evlFuzzyFalse then evlFuzzyTrue
      else if fb = evlFuzzyTrue then evlFuzzyFalse else evlFuzzyMaybe)
  | .op _ .and l r | .op _ .andLater l r => do
    let left ← simulateMissingNsa nsa l
    let right ← simulateMissingNsa nsa r
    some (left &&& right)
  | .op _ .or l r | .op _ .orLater l r => do
    let left ← simulateMissingNsa nsa l
    let right ← simulateMissingNsa nsa r
    some (left ||| right)
  | .op _ _ (.nsaname _ i _) _ =>
    some (if nsa = none ∨ nsa = some i then evlFuzzyFalse else evlFuzzyMaybe)
  | .op _ _ .null _ => none
  | .op _ _ _ _ => some evlFuzzyMaybe
  | _ => none

/-- `nsaResultIfMissing` of the entries, from position `i` on. -/
def setResultsIfMissing (qexpr : PNode) (i : Nat) : List NonStdAtt → Option (List NonStdAtt)
  | [] => some []
  | nsa :: rest => do
    let fb ← simulateMissingNsa (some i) qexpr
    let rest ← setResultsIfMissing qexpr (i + 1) rest
    some ({ nsa with nsaResultIfMissing := fb } :: rest)

/-- `_evlQOptimizeTree`, with `_evlQReorderTree` in it; no `nsAtts` is
NULL. -/
def evlQOptimizeTree (qexpr : PNode) : Option NonStdAtts → Option (PNode × Option NonStdAtts)
  | none => some (qexpr, none)
  | some ns => do
    let qexpr ← divideTree qexpr
    let nsAtts ← setResultsIfMissing qexpr 0 ns.nsAtts
    let fb ← simulateMissingNsa none qexpr
    some (qexpr, some { nsAtts := nsAtts, nsResultIfAllAttsMissing := fb })

end Evlog.Query
