/-
Evlog.Query.DivideTheorems — what `divideTree` does to a tree.

The operands of the root's AND or OR, read from left to right through the
nodes of the same operator, are split into those that refer to
non-standard attributes and those that do not, each part in its old
order. The nodes of that operator below the root are one fewer than the
operands, so there is exactly one for every join in the two rebuilt
subtrees: no assertion of `divideTree` fails and no node is left over.

`operands` and `junctNodes` name the two traversals, `Joined` is the
shape `diRebuildSubtree` builds. `divideTree_cases` is the summary; its last
part says that every node is in the divided tree again, once.
-/
import Evlog.Query.Optimize

namespace Evlog.Query

open Evlog.Lib

/-! ## Operands of a junction -/

/-- The operands of the junction at the root, from left to right. -/
def operands (j : Junctor) : PNode → List PNode
  | .op a o l r => if o = .ofJunctor j then operands j l ++ operands j r else [.op a o l r]
  | n => [n]

/-- The nodes that join them, in the order `diClassify` meets them. -/
def junctNodes (j : Junctor) : PNode → List PNode
  | .op a o l r =>
    if o = .ofJunctor j then .op a o l r :: (junctNodes j l ++ junctNodes j r) else []
  | _ => []

/-- A node that is not another node of the root's operator. -/
def IsOperand (j : Junctor) (n : PNode) : Prop := ∀ a l r, n ≠ .op a (.ofJunctor j) l r

theorem operands_junct (j : Junctor) (a : Nat) (l r : PNode) :
    operands j (.op a (.ofJunctor j) l r) = operands j l ++ operands j r := by
  simp [operands]

theorem junctNodes_junct (j : Junctor) (a : Nat) (l r : PNode) :
    junctNodes j (.op a (.ofJunctor j) l r)
      = .op a (.ofJunctor j) l r :: (junctNodes j l ++ junctNodes j r) := by
  simp [junctNodes]

variable {j j' : Junctor} {n t q : PNode}

theorem operands_of_isOperand (h : IsOperand j n) : operands j n = [n] := by
  unfold operands
  split
  · next a o l r => exact if_neg fun ho => h a l r (by rw [ho])
  · rfl

theorem junctNodes_of_isOperand (h : IsOperand j n) : junctNodes j n = [] := by
  unfold junctNodes
  split
  · next a o l r => exact if_neg fun ho => h a l r (by rw [ho])
  · rfl

theorem isOperand_of_normalizedLeaf (h : NormalizedLeaf n) (j : Junctor) : IsOperand j n := by
  intro a l r he
  subst he
  cases h with
  | stdComparison _ _ _ _ _ _ ho => cases j <;> cases ho
  | nsaComparison _ _ _ _ _ _ ho => cases j <;> cases ho

theorem isOperand_not (j : Junctor) (a : Nat) (e r : PNode) : IsOperand j (.op a .not e r) := by
  intro b l' r' he
  cases j <;> cases he

theorem ofJunctor_injective (h : Op.ofJunctor j = Op.ofJunctor j') : j = j' := by
  cases j <;> cases j' <;> first | rfl | cases h

theorem isOperand_junct_of_ne (hj : j' ≠ j) (a : Nat) (l r : PNode) :
    IsOperand j (.op a (.ofJunctor j') l r) := by
  intro b l' r' he
  injection he with _ ho
  exact hj (ofJunctor_injective ho)

/-- A joining node joins two operands, or sets of operands. -/
theorem operands_length (j : Junctor) (h : Normalized n) :
    (operands j n).length = (junctNodes j n).length + 1 := by
  induction h with
  | leaf n h =>
    have hn := isOperand_of_normalizedLeaf h j
    simp [operands_of_isOperand hn, junctNodes_of_isOperand hn]
  | not a e h ih =>
    have hn := isOperand_not j a e .null
    simp [operands_of_isOperand hn, junctNodes_of_isOperand hn]
  | junct j' a l r hl hr ihl ihr =>
    by_cases hj : j' = j
    · subst hj
      rw [operands_junct, junctNodes_junct]
      simp only [List.length_append, List.length_cons, ihl, ihr]
      omega
    · have hn := isOperand_junct_of_ne hj a l r
      simp [operands_of_isOperand hn, junctNodes_of_isOperand hn]

theorem normalized_of_mem_operands (j : Junctor) (h : Normalized n) :
    ∀ m ∈ operands j n, Normalized m := by
  induction h with
  | leaf n h =>
    rw [operands_of_isOperand (isOperand_of_normalizedLeaf h j)]
    intro m hm
    rw [List.mem_singleton.mp hm]
    exact .leaf n h
  | not a e h ih =>
    rw [operands_of_isOperand (isOperand_not j a e .null)]
    intro m hm
    rw [List.mem_singleton.mp hm]
    exact .not a e h
  | junct j' a l r hl hr ihl ihr =>
    by_cases hj : j' = j
    · subst hj
      rw [operands_junct]
      intro m hm
      exact (List.mem_append.mp hm).elim (ihl m) (ihr m)
    · rw [operands_of_isOperand (isOperand_junct_of_ne hj a l r)]
      intro m hm
      rw [List.mem_singleton.mp hm]
      exact .junct j' a l r hl hr

theorem mem_leaves_operands (j : Junctor) (h : Normalized n) (leaf : PNode) :
    leaf ∈ n.leaves ↔ ∃ m ∈ operands j n, leaf ∈ m.leaves := by
  induction h with
  | leaf n h => simp [operands_of_isOperand (isOperand_of_normalizedLeaf h j)]
  | not a e h ih => simp [operands_of_isOperand (isOperand_not j a e .null)]
  | junct j' a l r hl hr ihl ihr =>
    by_cases hj : j' = j
    · subst hj
      simp only [leaves_junct, operands_junct, List.mem_append, ihl, ihr, or_and_right, exists_or]
    · simp [operands_of_isOperand (isOperand_junct_of_ne hj a l r)]

theorem junctNodes_shape (j : Junctor) (n : PNode) :
    ∀ p ∈ junctNodes j n, ∃ a l r, p = .op a (.ofJunctor j) l r := by
  induction n with
  | op a o l r ihl ihr =>
    unfold junctNodes
    split
    · next ho =>
      intro p hp
      simp only [List.mem_cons, List.mem_append] at hp
      rcases hp with rfl | hp | hp
      · exact ⟨a, l, r, by rw [ho]⟩
      · exact ihl p hp
      · exact ihr p hp
    · simp
  | _ => simp [junctNodes]

theorem parts_operands (j : Junctor) (n : PNode) :
    n.parts = (operands j n).flatMap PNode.parts := by
  induction n with
  | op a o l r ihl ihr =>
    by_cases ho : o = .ofJunctor j
    · subst ho
      rw [operands_junct, List.flatMap_append, ← ihl, ← ihr, parts_junct]
    · rw [operands, if_neg ho, List.flatMap_singleton]
  | _ => rw [operands, List.flatMap_singleton]; simp

def opAddr : PNode → Nat
  | .op a _ _ _ => a
  | _ => 0

/-- A node of the tree is in one of the operands, or it joins two of
them. -/
theorem freeTree_operands (j : Junctor) (n : PNode) : (evlQFreeTree n).Perm
      ((operands j n).flatMap evlQFreeTree ++ (junctNodes j n).map opAddr) := by
  induction n with
  | op a o l r ihl ihr =>
    by_cases ho : o = .ofJunctor j
    · subst ho
      rw [List.perm_iff_count] at ihl ihr ⊢
      intro x
      have hl := ihl x
      have hr := ihr x
      simp only [operands_junct, junctNodes_junct, evlQFreeTree, opAddr, List.flatMap_append,
        List.map_cons, List.map_append, List.count_append, List.count_cons, List.count_nil] at *
      omega
    · simp [operands, junctNodes, ho]
  | _ => simp [operands, junctNodes]

/-! ## Classification -/

/-- `refsNonStdAtts` looks for a leaf about a non-standard attribute. -/
theorem refsNonStdAtts_eq (h : Normalized n) :
    refsNonStdAtts n = some (n.leaves.any fun leaf => leaf.nsaRef?.isSome) := by
  induction h with
  | leaf n h =>
    rw [leaves_of_normalizedLeaf h]
    cases h with
    | attname a sel s => rfl
    | nsaname a i s => rfl
    | stdComparison a b o sel s v ho => cases o <;> first | rfl | cases ho
    | nsaComparison a b o i s v ho => cases o <;> rfl
  | not a e h ih => rw [refsNonStdAtts, ih, leaves_not]
  | junct j a l r hl hr ihl ihr =>
    rw [leaves_junct, List.any_append]
    cases j <;> simp only [Op.ofJunctor, refsNonStdAtts, ihl, ihr, Option.bind_eq_bind,
      Option.bind_some] <;> split <;> simp_all

def isPure (n : PNode) : Bool := !n.leaves.any fun leaf => leaf.nsaRef?.isSome

theorem isPure_iff : isPure n = true ↔ ∀ leaf ∈ n.leaves, leaf.nsaRef? = none := by
  simp [isPure]

theorem diAppend_eq (h : Normalized n) (di : DivInfo) : diAppend n di = some
      { di with
        diPureList := di.diPureList ++ [n].filter isPure
        diImpureList := di.diImpureList ++ [n].filter (fun m => !isPure m) } := by
  unfold diAppend
  rw [refsNonStdAtts_eq h]
  cases hb : n.leaves.any fun leaf => leaf.nsaRef?.isSome <;> simp [isPure, hb]

theorem diClassify_of_isOperand {di : DivInfo} (hop : di.diRootOp = .ofJunctor j)
    (h : IsOperand j n) : diClassify di n = diAppend n di := by
  unfold diClassify
  split
  · next a o l r => exact if_neg fun ho => h a l r (by rw [ho, hop])
  · rfl

/-- `diClassify` appends the operands to the two lists and the joining
nodes to the third. -/
theorem diClassify_eq (h : Normalized n) (di : DivInfo) (hop : di.diRootOp = .ofJunctor j) :
    diClassify di n = some
      { di with
        diPureList := di.diPureList ++ (operands j n).filter isPure
        diImpureList := di.diImpureList ++ (operands j n).filter (fun m => !isPure m)
        diRecycleList := di.diRecycleList ++ junctNodes j n } := by
  induction h generalizing di with
  | leaf n h =>
    have hn := isOperand_of_normalizedLeaf h j
    rw [diClassify_of_isOperand hop hn, diAppend_eq (.leaf n h), operands_of_isOperand hn,
      junctNodes_of_isOperand hn, List.append_nil]
  | not a e h ih =>
    have hn := isOperand_not j a e .null
    rw [diClassify_of_isOperand hop hn, diAppend_eq (.not a e h), operands_of_isOperand hn,
      junctNodes_of_isOperand hn, List.append_nil]
  | junct j' a l r hl hr ihl ihr =>
    by_cases hj : j' = j
    · subst hj
      simp only [diClassify, hop, if_true, operands_junct, junctNodes_junct, List.filter_append]
      rw [ihl _ rfl, Option.bind_eq_bind, Option.bind_some, ihr _ rfl]
      simp only [List.append_assoc, List.cons_append, List.nil_append]
    · have hn := isOperand_junct_of_ne hj a l r
      rw [diClassify_of_isOperand hop hn, diAppend_eq (.junct j' a l r hl hr),
        operands_of_isOperand hn, junctNodes_of_isOperand hn, List.append_nil]

/-! ## Rebuilding -/

/-- `(n1 OP (n2 OP (n3 OP n4)))`. -/
inductive Joined (j : Junctor) : List PNode → PNode → Prop where
  | one (n : PNode) : Joined j [n] n
  | cons (a : Nat) (n : PNode) (ns : List PNode) (t : PNode) (h : Joined j ns t) :
      Joined j (n :: ns) (.op a (.ofJunctor j) n t)

variable {ns ops : List PNode}

theorem Joined.normalized (h : Joined j ns t) (hn : ∀ n ∈ ns, Normalized n) : Normalized t := by
  induction h with
  | one n => exact hn n (by simp)
  | cons a n ns t h ih =>
    exact .junct j a n t (hn n (by simp)) (ih fun m hm => hn m (List.mem_cons_of_mem _ hm))

theorem Joined.mem_leaves (h : Joined j ns t) (leaf : PNode) :
    leaf ∈ t.leaves ↔ ∃ n ∈ ns, leaf ∈ n.leaves := by
  induction h with
  | one n => simp
  | cons a n ns t h ih => simp [ih]

theorem Joined.parts_eq (h : Joined j ns t) : t.parts = ns.flatMap PNode.parts := by
  induction h with
  | one n => rw [List.flatMap_singleton]
  | cons a n ns t h ih => rw [parts_junct, List.flatMap_cons, ih]

/-- With one node to recycle per join, the nodes of a list are joined in
order, and as many nodes are used up. -/
theorem diRebuildSubtree_eq (ns rs : List PNode) (hne : ns ≠ []) (hlen : ns.length ≤ rs.length + 1)
    (hrs : ∀ p ∈ rs, ∃ a l r, p = PNode.op a (.ofJunctor j) l r) :
    ∃ t, diRebuildSubtree ns rs = some (t, rs.drop (ns.length - 1)) ∧ Joined j ns t := by
  induction ns generalizing rs with
  | nil => exact absurd rfl hne
  | cons n ns ih =>
    cases ns with
    | nil => exact ⟨n, by simp [diRebuildSubtree], .one n⟩
    | cons m ns =>
      cases rs with
      | nil => simp at hlen
      | cons p rs =>
        obtain ⟨a, l, r, rfl⟩ := hrs p (by simp)
        obtain ⟨t, ht, hjoin⟩ := ih rs (by simp) (by simpa using hlen)
          fun q hq => hrs q (List.mem_cons_of_mem _ hq)
        refine ⟨.op a (.ofJunctor j) n t, ?_, .cons a n _ t hjoin⟩
        simp only [diRebuildSubtree, behead, Option.bind_eq_bind, Option.bind_some, ht,
          PNode.setChildren, List.length_cons, Nat.add_sub_cancel, List.drop_succ_cons]

/-- The nodes taken from the recycle list are in the subtree, and no others
besides those of the operands. -/
theorem freeTree_diRebuildSubtree {rs rest : List PNode}
    (hrs : ∀ p ∈ rs, ∃ a l r, p = PNode.op a (.ofJunctor j) l r)
    (h : diRebuildSubtree ns rs = some (t, rest)) :
    (evlQFreeTree t ++ rest.map opAddr).Perm (ns.flatMap evlQFreeTree ++ rs.map opAddr) := by
  fun_induction diRebuildSubtree ns rs generalizing t rest with
  | case1 => cases h
  | case2 n rs =>
    cases h
    simp
  | case3 n m ns rs ih =>
    cases rs with
    | nil => cases h
    | cons p rs =>
      obtain ⟨a, l, r, rfl⟩ := hrs p (by simp)
      simp only [behead, Option.bind_eq_bind, Option.bind_some] at h
      obtain ⟨⟨t', rest'⟩, hsub, hret⟩ := Option.bind_eq_some_iff.mp h
      cases hret
      have hsub' := ih rs (fun q hq => hrs q (List.mem_cons_of_mem _ hq)) hsub
      rw [List.perm_iff_count] at hsub' ⊢
      intro x
      have hx := hsub' x
      simp only [PNode.setChildren, evlQFreeTree, opAddr, List.flatMap_cons, List.map_cons,
        List.count_append, List.count_cons, List.count_nil] at *
      omega

/-- Splitting a list and taking the parts one after the other. -/
theorem flatMap_filter_perm {β : Type} (f : PNode → List β) (p : PNode → Bool) (ops : List PNode) :
    ((ops.filter p).flatMap f ++ (ops.filter fun m => !p m).flatMap f).Perm (ops.flatMap f) := by
  rw [← List.flatMap_append]
  exact (List.filter_append_perm p ops).flatMap_right f

/-- Two subtrees that use up the recycle list have its nodes and those of
their operands. -/
theorem freeTree_rebuilt {nodes recycle : List PNode} {left right : PNode}
    (hnodes : ∀ p ∈ nodes, ∃ a l r, p = PNode.op a (.ofJunctor j) l r)
    (hrecycle : ∀ p ∈ recycle, ∃ a l r, p = PNode.op a (.ofJunctor j) l r)
    (hleft : diRebuildSubtree (ops.filter isPure) nodes = some (left, recycle))
    (hright : diRebuildSubtree (ops.filter fun m => !isPure m) recycle = some (right, [])) :
    (evlQFreeTree left ++ evlQFreeTree right).Perm
      (ops.flatMap evlQFreeTree ++ nodes.map opAddr) := by
  have hl := freeTree_diRebuildSubtree hnodes hleft
  have hr := freeTree_diRebuildSubtree hrecycle hright
  have hops := flatMap_filter_perm evlQFreeTree isPure ops
  rw [List.perm_iff_count] at hl hr hops ⊢
  intro x
  have hlx := hl x
  have hrx := hr x
  have hopsx := hops x
  simp only [List.map_nil, List.count_append, List.count_nil] at hlx hrx hopsx ⊢
  omega

/-! ## `divideTree` -/

theorem divideRoot_cases {a : Nat} {l r : PNode} (hl : Normalized l) (hr : Normalized r)
    (href : ∃ leaf ∈ (PNode.op a (.ofJunctor j) l r).leaves, leaf.nsaRef?.isSome)
    (hroot : ops = operands j (.op a (.ofJunctor j) l r)) :
    divideRoot a j l r = some (.op a (.ofJunctor j) l r) ∨
      ∃ left right, divideRoot a j l r = some (.op a (.later j) left right) ∧
        Joined j (ops.filter isPure) left ∧ Joined j (ops.filter fun m => !isPure m) right ∧
        (evlQFreeTree left ++ evlQFreeTree right).Perm
          (ops.flatMap evlQFreeTree ++ (junctNodes j l ++ junctNodes j r).map opAddr) := by
  have hops : ops = operands j l ++ operands j r := hroot.trans (operands_junct j a l r)
  have hnorm : Normalized (.op a (.ofJunctor j) l r) := .junct j a l r hl hr
  have himpure : ops.filter (fun m => !isPure m) ≠ [] := by
    obtain ⟨leaf, hleaf, hsome⟩ := href
    obtain ⟨m, hm, hlm⟩ := (mem_leaves_operands j hnorm leaf).mp hleaf
    apply List.ne_nil_of_mem (a := m)
    rw [List.mem_filter]
    refine ⟨hroot ▸ hm, ?_⟩
    simp only [isPure, Bool.not_not, List.any_eq_true]
    exact ⟨leaf, hlm, hsome⟩
  have hcount : (ops.filter isPure).length + (ops.filter fun m => !isPure m).length
      = (junctNodes j l ++ junctNodes j r).length + 2 := by
    have hsplit := List.length_eq_length_filter_add (l := ops) isPure
    rw [hops] at hsplit ⊢
    simp only [List.length_append, operands_length j hl, operands_length j hr] at hsplit ⊢
    omega
  have hshape : ∀ p ∈ junctNodes j l ++ junctNodes j r,
      ∃ a l r, p = PNode.op a (.ofJunctor j) l r := by
    intro p hp
    exact (List.mem_append.mp hp).elim (junctNodes_shape j l p) (junctNodes_shape j r p)
  unfold divideRoot
  rw [diClassify_eq (j := j) hl _ rfl]
  simp only [Option.bind_eq_bind, Option.bind_some, List.nil_append]
  rw [diClassify_eq (j := j) hr _ rfl]
  simp only [Option.bind_some, ← List.filter_append, ← hops, if_neg himpure]
  by_cases hpure : ops.filter isPure = []
  · left
    simp [hpure]
  · right
    have hposI := List.length_pos_iff.mpr himpure
    have hposP := List.length_pos_iff.mpr hpure
    obtain ⟨left, hleft, hjl⟩ := diRebuildSubtree_eq _ _ hpure (by omega) hshape
    have hleftover : (ops.filter fun m => !isPure m).length
        ≤ ((junctNodes j l ++ junctNodes j r).drop ((ops.filter isPure).length - 1)).length + 1 := by
      rw [List.length_drop]
      omega
    have hrecycle : ∀ p ∈ (junctNodes j l ++ junctNodes j r).drop ((ops.filter isPure).length - 1),
        ∃ a l r, p = PNode.op a (.ofJunctor j) l r :=
      fun p hp => hshape p (List.mem_of_mem_drop hp)
    obtain ⟨right, hright, hjr⟩ := diRebuildSubtree_eq _ _ himpure hleftover hrecycle
    have hnil : ((junctNodes j l ++ junctNodes j r).drop ((ops.filter isPure).length - 1)).drop
        ((ops.filter fun m => !isPure m).length - 1) = [] := by
      rw [List.drop_drop, List.drop_eq_nil_iff]
      omega
    rw [hnil] at hright
    refine ⟨left, right, ?_, hjl, hjr, freeTree_rebuilt hshape hrecycle hleft hright⟩
    rw [if_neg hpure, hleft]
    simp only [Option.bind_some, hright, if_true]

/-- A tree with a non-standard attribute is left alone, or its root
becomes AND_LATER or OR_LATER over the pure and the impure operands, with
the nodes it had. -/
theorem divideTree_cases (h : Normalized q) (href : ∃ leaf ∈ q.leaves, leaf.nsaRef?.isSome) :
    divideTree q = some q ∨
      ∃ j a left right, divideTree q = some (.op a (.later j) left right) ∧
        Joined j ((operands j q).filter isPure) left ∧
        Joined j ((operands j q).filter fun m => !isPure m) right ∧
        (evlQFreeTree (.op a (.later j) left right)).Perm (evlQFreeTree q) := by
  cases h with
  | leaf n hn =>
    left
    cases hn with
    | stdComparison a b o sel s v ho => cases o <;> first | rfl | cases ho
    | nsaComparison a b o i s v ho => cases o <;> first | rfl | cases ho
    | _ => rfl
  | not a e he => exact .inl rfl
  | junct j a l r hl hr =>
    have hroot : divideTree (.op a (.ofJunctor j) l r) = divideRoot a j l r := by
      cases j <;> rfl
    rw [hroot]
    rcases divideRoot_cases hl hr href rfl with hsame | ⟨left, right, hdiv, hjl, hjr, hnodes⟩
    · exact .inl hsame
    · refine .inr ⟨j, a, left, right, hdiv, hjl, hjr, ?_⟩
      have hbelow := freeTree_operands j (.op a (.ofJunctor j) l r)
      rw [junctNodes_junct, List.map_cons] at hbelow
      calc (evlQFreeTree (.op a (.later j) left right)).Perm
            (a :: (evlQFreeTree left ++ evlQFreeTree right)) :=
            List.perm_append_singleton a _
        List.Perm _ (a :: (List.flatMap evlQFreeTree (operands j (.op a (.ofJunctor j) l r)) ++
            (junctNodes j l ++ junctNodes j r).map opAddr)) := hnodes.cons a
        List.Perm _ _ := List.perm_middle.symm.trans hbelow.symm

/-- `divideTree` returns on every tree with a non-standard attribute, and
moves what AND and OR join without adding, dropping or copying a node. -/
theorem divideTree_keeps (h : Normalized q) (href : ∃ leaf ∈ q.leaves, leaf.nsaRef?.isSome) :
    ∃ q', divideTree q = some q' ∧ q'.parts.Perm q.parts ∧
      (evlQFreeTree q').Perm (evlQFreeTree q) := by
  rcases divideTree_cases h href with hsame | ⟨j, a, left, right, hdiv, hjl, hjr, hnodes⟩
  · exact ⟨q, hsame, .refl _, .refl _⟩
  · refine ⟨_, hdiv, ?_, hnodes⟩
    rw [parts_later, hjl.parts_eq, hjr.parts_eq, parts_operands j q]
    exact flatMap_filter_perm PNode.parts isPure (operands j q)

end Evlog.Query
