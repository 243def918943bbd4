/-
Evlog.Query.Tree — the parse tree of a query (evl_parse.h, query.y).

A query such as `severity <= ERR && host contains "web"` is parsed into
`pnode_t` nodes, which `_evlQNormalizeTree` rewrites, `_evlQOptimizeTree`
rearranges and `evaluateTree` reads. All three work on one C structure, whose
`node_type` says what its unions hold, so the model has one constructor per
node type and keeps the possibility of finding the wrong one.

A node carries its address, because `divideTree` takes nodes out of the
tree and links them in again. The pointer an `nt_nsaname` node holds is
the position of the entry it points to in the list of non-standard
attributes. A compiled regular expression is named by its pattern.
-/
import Evlog.Lib.Junction

namespace Evlog.Query

open Evlog.Lib

/-! ## Nodes -/

/-- What `attr_flag` of an `nt_op` node can be: the tokens of the grammar,
and the two that only qopt.c makes. -/
inductive Op where
  | eq
  | gt
  | lt
  | bitAnd
  | reMatch
  | contains
  | ne
  | ge
  | le
  | reNoMatch
  | not
  | and
  | or
  | andLater
  | orLater
  deriving DecidableEq, Repr

def Op.ofJunctor : Junctor → Op
  | .and => .and
  | .or => .or

/-- The tokens the lexer returns as `OP`. -/
def Op.isComparison : Op → Bool
  | .not | .and | .or | .andLater | .orLater => false
  | _ => true

/-- `POSIX_LOG_ENTRY_*`, `EVL_ENTRY_AGE` and `EVL_ENTRY_HOST`. -/
inductive Selector where
  | data
  | recid
  | size
  | format
  | eventType
  | facility
  | severity
  | uid
  | gid
  | pid
  | pgrp
  | time
  | flags
  | thread
  | processor
  | age
  | host
  deriving DecidableEq, Repr

/-- `pnode_t *`. In a `val` node `minus` says that `attr_flag` is -1, and
`attrUval` is the word that `attr_val` and `attr_uval` share. -/
inductive PNode where
  | null
  | name (addr : Nat) (attrName : String)
  | attname (addr : Nat) (attrFlag : Selector) (attrName : String)
  | nsaname (addr : Nat) (attrNsa : Nat) (attrName : String)
  | val (addr : Nat) (minus : Bool) (attrUval : UInt64)
  | string (addr : Nat) (attrString : String)
  | regex (addr : Nat) (attrRegex : String)
  | op (addr : Nat) (attrFlag : Op) (left right : PNode)
  deriving DecidableEq, Repr

namespace PNode

/-- Assignments to `pnLeft` and `pnRight`. -/
def setChildren (parent left right : PNode) : PNode :=
  match parent with
  | .op a o _ _ => .op a o left right
  | n => n

/-- The subtrees below the `!`, AND and OR nodes: comparisons and
attribute names. -/
def leaves : PNode → List PNode
  | .op _ .not l _ => l.leaves
  | .op _ .and l r | .op _ .or l r => l.leaves ++ r.leaves
  | n => [n]

/-- The non-standard attribute a leaf is about, if it is about one. -/
def nsaRef? : PNode → Option Nat
  | .nsaname _ i _ => some i
  | .op _ _ (.nsaname _ i _) _ => some i
  | _ => none

/-- What AND, OR and the two operators of qopt.c join: comparisons,
attribute names and `!` subtrees. -/
def parts : PNode → List PNode
  | .op _ .and l r | .op _ .or l r | .op _ .andLater l r | .op _ .orLater l r =>
    l.parts ++ r.parts
  | n => [n]

end PNode

/-- `_evlQFreeTree`: the nodes it frees, in that order. A node's string or
compiled expression goes with it. -/
def evlQFreeTree : PNode → List Nat
  | .null => []
  | .name a _ | .attname a _ _ | .nsaname a _ _ => [a]
  | .string a _ => [a]
  | .val a _ _ => [a]
  | .regex a _ => [a]
  | .op a _ l r => evlQFreeTree l ++ evlQFreeTree r ++ [a]

/-! ## Shapes of trees -/

/-- A tree of `!`, AND and OR nodes over leaves of one kind. -/
inductive BuiltFrom (P : PNode → Prop) : PNode → Prop where
  | leaf (n : PNode) (h : P n) : BuiltFrom P n
  | not (a : Nat) (e : PNode) (h : BuiltFrom P e) : BuiltFrom P (.op a .not e .null)
  | junct (j : Junctor) (a : Nat) (l r : PNode) (hl : BuiltFrom P l) (hr : BuiltFrom P r) :
      BuiltFrom P (.op a (.ofJunctor j) l r)

/-- What the grammar calls `val`. -/
inductive ParsedVal : PNode → Prop where
  | name (a : Nat) (s : String) : ParsedVal (.name a s)
  | val (a : Nat) (m : Bool) (v : UInt64) : ParsedVal (.val a m v)
  | string (a : Nat) (s : String) : ParsedVal (.string a s)

/-- The two leaves of the grammar's `exp`. -/
inductive ParsedLeaf : PNode → Prop where
  | name (a : Nat) (s : String) : ParsedLeaf (.name a s)
  | comparison (a b : Nat) (o : Op) (s : String) (v : PNode) (ho : o.isComparison = true)
      (hv : ParsedVal v) : ParsedLeaf (.op a o (.name b s) v)

def Parsed (t : PNode) : Prop := BuiltFrom ParsedLeaf t

/-- The leaves of a normalized tree; the right operand of a comparison is
left open. -/
inductive NormalizedLeaf : PNode → Prop where
  | attname (a : Nat) (sel : Selector) (s : String) : NormalizedLeaf (.attname a sel s)
  | nsaname (a i : Nat) (s : String) : NormalizedLeaf (.nsaname a i s)
  | stdComparison (a b : Nat) (o : Op) (sel : Selector) (s : String) (v : PNode)
      (ho : o.isComparison = true) : NormalizedLeaf (.op a o (.attname b sel s) v)
  | nsaComparison (a b : Nat) (o : Op) (i : Nat) (s : String) (v : PNode)
      (ho : o.isComparison = true) : NormalizedLeaf (.op a o (.nsaname b i s) v)

def Normalized (t : PNode) : Prop := BuiltFrom NormalizedLeaf t

/-! ## Non-standard attributes -/

/-- An `evlFuzzyBoolean` is an `int` that takes three values. -/
abbrev EvlFuzzyBoolean := Nat

def evlFuzzyFalse : EvlFuzzyBoolean := 0x0
def evlFuzzyMaybe : EvlFuzzyBoolean := 0x1
def evlFuzzyTrue : EvlFuzzyBoolean := 0x3

/-- `evl_nonStdAtt_t`; the two bits of `nsaFlags` are `numeric`
(`EVLNSA_NUMERIC`) and `strref` (`EVLNSA_STRREF`). -/
structure NonStdAtt where
  nsaName : String
  nsaResultIfMissing : EvlFuzzyBoolean
  numeric : Bool
  strref : Bool
  nsaAtt : Nat
  deriving DecidableEq, Repr

/-- `evl_nonStdAtts_t`. -/
structure NonStdAtts where
  nsAtts : List NonStdAtt
  nsResultIfAllAttsMissing : EvlFuzzyBoolean
  deriving DecidableEq, Repr

/-- An entry's `nsaAtt` is its position in the list. -/
def PositionIndexed (nsAtts : List NonStdAtt) : Prop :=
  ∀ (i : Nat) (nsa : NonStdAtt), nsAtts[i]? = some nsa → nsa.nsaAtt = i

/-- The list normalization registers for a tree that has at least one
non-standard attribute in it: every reference in the tree points to an
entry of the list. -/
structure Registered (nsAtts : List NonStdAtt) (t : PNode) : Prop where
  normalized : Normalized t
  positionIndexed : PositionIndexed nsAtts
  ref_lt : ∀ n ∈ t.leaves, ∀ i, n.nsaRef? = some i → i < nsAtts.length
  exists_ref : ∃ n ∈ t.leaves, n.nsaRef?.isSome

/-! ## Leaves -/

theorem leaves_of_parsedLeaf {n : PNode} (h : ParsedLeaf n) : n.leaves = [n] := by
  cases h with
  | name a s => rfl
  | comparison a b o s v ho hv => cases o <;> first | rfl | cases ho

theorem leaves_of_normalizedLeaf {n : PNode} (h : NormalizedLeaf n) : n.leaves = [n] := by
  cases h with
  | attname a sel s => rfl
  | nsaname a i s => rfl
  | stdComparison a b o sel s v ho => cases o <;> first | rfl | cases ho
  | nsaComparison a b o i s v ho => cases o <;> first | rfl | cases ho

@[simp] theorem leaves_not (a : Nat) (l r : PNode) : (PNode.op a .not l r).leaves = l.leaves := by
  rw [PNode.leaves]

@[simp] theorem leaves_junct (j : Junctor) (a : Nat) (l r : PNode) :
    (PNode.op a (.ofJunctor j) l r).leaves = l.leaves ++ r.leaves := by
  cases j <;> rw [Op.ofJunctor, PNode.leaves]

theorem parts_junct (j : Junctor) (a : Nat) (l r : PNode) :
    (PNode.op a (.ofJunctor j) l r).parts = l.parts ++ r.parts := by
  cases j <;> rw [Op.ofJunctor, PNode.parts]

theorem normalizedLeaf_of_mem_leaves {t : PNode} (h : Normalized t) :
    ∀ n ∈ t.leaves, NormalizedLeaf n := by
  induction h with
  | leaf n hn =>
    intro m hm
    rw [leaves_of_normalizedLeaf hn, List.mem_singleton] at hm
    rwa [hm]
  | not a e he ih => rwa [leaves_not]
  | junct j a l r hl hr ihl ihr =>
    intro m hm
    rw [leaves_junct, List.mem_append] at hm
    exact hm.elim (ihl m) (ihr m)

end Evlog.Query
