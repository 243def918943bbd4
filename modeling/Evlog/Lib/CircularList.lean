/-
Evlog.Lib.CircularList — doubly linked circular lists in a heap.

A heap says which node is at an address. `Linked h a ns b` reads a piece
of a list off it: the nodes `ns` one behind the other, with `a` before the
first of them and `b` behind the last. A `Ring` is a piece that is joined
to itself.

What `appendToList` and `removeNode` make of a ring is said by `Changes`:
the new ring, what it may occupy, and that other allocated nodes are as they
were. So a heap with several rings in it (`Rings`) has the others as before
(`Rings.replace`).

A loop that goes once around is a machine. It visits the nodes in their
order (`doWhile_returns`, `forEach_returns`), and may unlink the node it
is at (`sweep_returns`, `prune_returns`). Backward there is the reverse of
the ring (`Ring.mirrored`).
-/
import Evlog.Lib.Machine

namespace Evlog.Lib

open Machine

variable {α σ ρ : Type}

structure ListNode (α : Type) where
  next : Nat
  prev : Nat
  data : α

abbrev ListHeap (α : Type) := Nat → Option (ListNode α)

namespace ListHeap

def store (h : ListHeap α) (p : Nat) (n : ListNode α) : ListHeap α := Function.update h p (some n)

def free (h : ListHeap α) (p : Nat) : ListHeap α := Function.update h p none

def setNext (h : ListHeap α) (p q : Nat) : Option (ListHeap α) :=
  (h p).map fun n => h.store p { n with next := q }

def setPrev (h : ListHeap α) (p q : Nat) : Option (ListHeap α) :=
  (h p).map fun n => h.store p { n with prev := q }

def mkListNode (h : ListHeap α) (p : Nat) (d : α) : ListHeap α := h.store p ⟨p, p, d⟩

/-- Appends a node at the free address `p`; no head is the empty list. The
new heap and the list's head. -/
def appendToList (h : ListHeap α) (head : Option Nat) (p : Nat) (d : α) :
    Option (ListHeap α × Nat) :=
  let h := h.mkListNode p d
  match head with
  | none => some (h, p)
  | some head => do
    let tail := (← h head).prev
    let h ← h.setNext p head
    let h ← h.setPrev p tail
    let h ← h.setPrev head p
    let h ← h.setNext tail p
    some (h, head)

/-- Unlinks the node at `p` and frees it. -/
def removeNode (h : ListHeap α) (p : Nat) : Option (ListHeap α) := do
  let n ← h p
  let h ← h.setNext n.prev n.next
  let h ← h.setPrev n.next n.prev
  some (h.free p)

end ListHeap

open ListHeap

variable {h h' h'' : ListHeap α} {a b p q : Nat} {d : α} {ns xs ys r r' r'' : List (Nat × α)}

@[simp] theorem store_self (h : ListHeap α) (p : Nat) (n : ListNode α) : h.store p n p = some n :=
  Function.update_self ..

theorem store_of_ne (h : ListHeap α) (n : ListNode α) (hne : q ≠ p) : h.store p n q = h q :=
  Function.update_of_ne hne ..

@[simp] theorem free_self (h : ListHeap α) (p : Nat) : h.free p p = none :=
  Function.update_self ..

theorem free_of_ne (h : ListHeap α) (hne : q ≠ p) : h.free p q = h q :=
  Function.update_of_ne hne ..

/-! ## Pieces of a list -/

def firstAddr : List (Nat × α) → Nat → Nat
  | [], b => b
  | n :: _, _ => n.1

def lastAddr : Nat → List (Nat × α) → Nat
  | a, [] => a
  | _, n :: ns => lastAddr n.1 ns

/-- The nodes `ns`, linked one behind the other between `a` and `b`. -/
def Linked (h : ListHeap α) : Nat → List (Nat × α) → Nat → Prop
  | _, [], _ => True
  | a, n :: ns, b => h n.1 = some ⟨firstAddr ns b, a, n.2⟩ ∧ Linked h n.1 ns b

@[simp] theorem firstAddr_nil (b : Nat) : firstAddr ([] : List (Nat × α)) b = b := rfl

@[simp] theorem firstAddr_cons (n : Nat × α) (ns : List (Nat × α)) (b : Nat) :
    firstAddr (n :: ns) b = n.1 := rfl

@[simp] theorem firstAddr_append (xs ys : List (Nat × α)) (b : Nat) :
    firstAddr (xs ++ ys) b = firstAddr xs (firstAddr ys b) := by
  cases xs <;> rfl

@[simp] theorem lastAddr_append (a : Nat) (xs ys : List (Nat × α)) :
    lastAddr a (xs ++ ys) = lastAddr (lastAddr a xs) ys := by
  induction xs generalizing a with
  | nil => rfl
  | cons n xs ih => exact ih n.1

theorem lastAddr_eq (a a' : Nat) (hne : ns ≠ []) : lastAddr a ns = lastAddr a' ns := by
  cases ns with
  | nil => exact absurd rfl hne
  | cons n ns => rfl

theorem firstAddr_eq (b b' : Nat) (hne : ns ≠ []) : firstAddr ns b = firstAddr ns b' := by
  cases ns with
  | nil => exact absurd rfl hne
  | cons n ns => rfl

theorem firstAddr_mem (b : Nat) (hne : ns ≠ []) : firstAddr ns b ∈ ns.map Prod.fst := by
  cases ns with
  | nil => exact absurd rfl hne
  | cons n ns => exact List.mem_cons_self

theorem lastAddr_mem (a : Nat) (hne : ns ≠ []) : lastAddr a ns ∈ ns.map Prod.fst := by
  induction ns generalizing a with
  | nil => exact absurd rfl hne
  | cons n ns ih =>
    cases ns with
    | nil => exact List.mem_cons_self
    | cons m ns => exact List.mem_cons_of_mem _ (ih n.1 (by simp))

theorem linked_append : Linked h a (xs ++ ys) b ↔
    Linked h a xs (firstAddr ys b) ∧ Linked h (lastAddr a xs) ys b := by
  induction xs generalizing a with
  | nil => simp [Linked, lastAddr]
  | cons n xs ih => simp only [List.cons_append, Linked, lastAddr, firstAddr_append, ih, and_assoc]

theorem Linked.congr (hlink : Linked h a ns b) (heq : ∀ q ∈ ns.map Prod.fst, h' q = h q) :
    Linked h' a ns b := by
  induction ns generalizing a with
  | nil => trivial
  | cons n ns ih =>
    obtain ⟨hn, hrest⟩ := hlink
    refine ⟨?_, ih hrest fun q hq => heq q (List.mem_cons_of_mem _ hq)⟩
    rw [heq n.1 List.mem_cons_self, hn]

theorem Linked.exists_node (hlink : Linked h a ns b) (hmem : (p, d) ∈ ns) :
    ∃ n, h p = some n ∧ n.data = d := by
  induction ns generalizing a with
  | nil => simp at hmem
  | cons n ns ih =>
    rcases List.mem_cons.1 hmem with rfl | hmem
    · exact ⟨_, hlink.1, rfl⟩
    · exact ih hlink.2 hmem

theorem Linked.ne_none (hlink : Linked h a ns b) (hmem : p ∈ ns.map Prod.fst) : h p ≠ none := by
  obtain ⟨⟨p', d⟩, hn, rfl⟩ := List.mem_map.1 hmem
  obtain ⟨n, hp, -⟩ := hlink.exists_node hn
  simp [hp]

/-- The last node is linked to what is to come behind it. -/
theorem Linked.setNext_last (hlink : Linked h a ns b) (hnodup : (ns.map Prod.fst).Nodup)
    (hne : ns ≠ []) (q : Nat) :
    ∃ h', h.setNext (lastAddr a ns) q = some h' ∧ Linked h' a ns q ∧
      ∀ p, p ≠ lastAddr a ns → h' p = h p := by
  obtain ⟨xs, ⟨l, d⟩, rfl⟩ := (List.eq_nil_or_concat ns).resolve_left hne
  simp only [List.concat_eq_append, List.map_append, List.map_cons, List.map_nil,
    List.nodup_append, lastAddr_append] at hnodup hlink ⊢
  obtain ⟨hxs, hl, -⟩ := linked_append.1 hlink
  have hl : h l = some ⟨b, lastAddr a xs, d⟩ := hl
  refine ⟨h.store l ⟨q, lastAddr a xs, d⟩, by simp [setNext, lastAddr, hl], ?_, fun p hp =>
    store_of_ne h _ hp⟩
  refine linked_append.2 ⟨hxs.congr fun p hp => store_of_ne h _ ?_, store_self h l _, trivial⟩
  rintro rfl
  exact hnodup.2.2 p hp p (by simp) rfl

/-- The first node is linked to what is to come before it. -/
theorem Linked.setPrev_first (hlink : Linked h a ns b) (hnodup : (ns.map Prod.fst).Nodup)
    (hne : ns ≠ []) (q : Nat) :
    ∃ h', h.setPrev (firstAddr ns b) q = some h' ∧ Linked h' q ns b ∧
      ∀ p, p ≠ firstAddr ns b → h' p = h p := by
  cases ns with
  | nil => exact absurd rfl hne
  | cons n ns =>
    obtain ⟨hn, hrest⟩ := hlink
    have hnot : n.1 ∉ ns.map Prod.fst := (List.nodup_cons.1 hnodup).1
    refine ⟨h.store n.1 ⟨firstAddr ns b, q, n.2⟩, by simp [setPrev, hn],
      ⟨store_self h n.1 _, hrest.congr fun p hp => store_of_ne h _ ?_⟩, fun p hp =>
      store_of_ne h _ hp⟩
    rintro rfl
    exact hnot hp

/-! ## Rings -/

/-- The nodes, linked in a circle. -/
structure Ring (h : ListHeap α) (ns : List (Nat × α)) : Prop where
  nodup : (ns.map Prod.fst).Nodup
  linked : Linked h (lastAddr 0 ns) ns (firstAddr ns 0)

theorem Ring.congr (hring : Ring h ns) (heq : ∀ q ∈ ns.map Prod.fst, h' q = h q) : Ring h' ns :=
  ⟨hring.nodup, hring.linked.congr heq⟩

theorem Ring.ne_none (hring : Ring h ns) (hmem : p ∈ ns.map Prod.fst) : h p ≠ none :=
  hring.linked.ne_none hmem

theorem ring_mkListNode (h : ListHeap α) (p : Nat) (d : α) : Ring (h.mkListNode p d) [(p, d)] :=
  ⟨by simp, store_self h p _, trivial⟩

theorem Ring.head (hring : Ring h ((a, d) :: ns)) :
    h a = some ⟨firstAddr ns a, lastAddr a ns, d⟩ ∧ Linked h a ns a ∧ a ∉ ns.map Prod.fst :=
  ⟨hring.linked.1, hring.linked.2, (List.nodup_cons.1 hring.nodup).1⟩

/-- What becomes of the ring `r`: the heap has the ring `r'` instead,
which takes up old nodes of `r` or free ones, those of `r` that are not in
it are freed, and the rest of the heap is as it was. -/
structure Changes (h : ListHeap α) (r : List (Nat × α)) (h' : ListHeap α) (r' : List (Nat × α)) :
    Prop where
  ring : Ring h' r'
  frame : ∀ q, q ∉ r.map Prod.fst → q ∉ r'.map Prod.fst → h' q = h q
  taken : ∀ q ∈ r'.map Prod.fst, q ∈ r.map Prod.fst ∨ h q = none
  freed : ∀ q ∈ r.map Prod.fst, q ∉ r'.map Prod.fst → h' q = none

theorem Changes.refl (hring : Ring h r) : Changes h r h r :=
  ⟨hring, fun _ _ _ => rfl, fun _ hq => .inl hq, fun _ hq hq' => absurd hq hq'⟩

theorem Changes.trans (h₁ : Changes h r h' r') (h₂ : Changes h' r' h'' r'') :
    Changes h r h'' r'' := by
  refine ⟨h₂.ring, fun q hq hq'' => ?_, fun q hq'' => ?_, fun q hq hq'' => ?_⟩
  · by_cases hq' : q ∈ r'.map Prod.fst
    · rw [h₂.freed q hq' hq'', (h₁.taken q hq').resolve_left hq]
    · rw [h₂.frame q hq' hq'', h₁.frame q hq hq']
  · by_cases hq : q ∈ r.map Prod.fst
    · exact .inl hq
    · by_cases hq' : q ∈ r'.map Prod.fst
      · exact h₁.taken q hq'
      · exact .inr ((h₁.frame q hq hq').symm.trans ((h₂.taken q hq'').resolve_left hq'))
  · by_cases hq' : q ∈ r'.map Prod.fst
    · exact h₂.freed q hq' hq''
    · rw [h₂.frame q hq' hq'', h₁.freed q hq hq']

/-- A node is appended to the ring of the head `a`. -/
theorem appendToList_some (hring : Ring h ((a, d) :: ns)) (hp : h p = none) (e : α) :
    ∃ h', h.appendToList (some a) p e = some (h', a) ∧
      Changes h ((a, d) :: ns) h' ((a, d) :: ns ++ [(p, e)]) := by
  obtain ⟨hnodup, hlink⟩ := hring
  have hout : p ∉ ((a, d) :: ns).map Prod.fst := fun hin => hlink.ne_none hin hp
  have hne : ∀ q ∈ ((a, d) :: ns).map Prod.fst, q ≠ p := fun q hq hqp => hout (hqp ▸ hq)
  obtain ⟨tail, htail⟩ : ∃ t, lastAddr 0 ((a, d) :: ns) = t := ⟨_, rfl⟩
  have htailne : tail ≠ p := hne tail (htail ▸ lastAddr_mem 0 (by simp))
  have hane : a ≠ p := hne a (by simp)
  rw [htail] at hlink
  -- the new node, with its links set
  have hlink₁ : Linked (h.store p ⟨a, tail, e⟩) tail ((a, d) :: ns) a :=
    hlink.congr fun q hq => store_of_ne h _ (hne q hq)
  obtain ⟨h₂, hprev, hlink₂, hsame₂⟩ := hlink₁.setPrev_first hnodup (by simp) p
  have hlast : lastAddr p ((a, d) :: ns) = tail := htail
  obtain ⟨h₃, hnext, hlink₃, hsame₃⟩ := hlink₂.setNext_last hnodup (by simp) p
  rw [hlast] at hnext hsame₃
  have hat : h₃ p = some ⟨a, tail, e⟩ := by
    rw [hsame₃ p htailne.symm, hsame₂ p hane.symm, store_self]
  refine ⟨h₃, ?_, ⟨?_, ?_⟩, fun q hq hq' => ?_, fun q hq => ?_, fun q hq hq' => ?_⟩
  · have hhead : h.mkListNode p e a = some ⟨firstAddr ns a, tail, d⟩ := by
      rw [mkListNode, store_of_ne h _ hane, hlink.1]
      rfl
    have hnew : (h.mkListNode p e).setNext p a = some (h.store p ⟨a, p, e⟩) := by
      simp [setNext, mkListNode, store]
    have hnew' : (h.store p ⟨a, p, e⟩).setPrev p tail = some (h.store p ⟨a, tail, e⟩) := by
      simp [setPrev, store]
    have hprev : (h.store p ⟨a, tail, e⟩).setPrev a p = some h₂ := hprev
    simp [appendToList, hhead, hnew, hnew', hprev, hnext]
  · rw [List.map_append, List.nodup_append]
    refine ⟨hnodup, by simp, fun q hq q' hq' => ?_⟩
    obtain rfl : q' = p := by simpa using hq'
    exact hne q hq
  · rw [lastAddr_append, firstAddr_append]
    have hlast' : lastAddr (lastAddr (lastAddr 0 ((a, d) :: ns)) [(p, e)]) ((a, d) :: ns) = tail := hlast
    refine linked_append.2 ⟨hlink₃, ?_, trivial⟩
    rw [hlast']
    exact hat
  · have hqa : q ≠ a := fun hqa => hq (by simp [hqa])
    have hqt : q ≠ tail := fun hqt => hq (hqt ▸ htail ▸ lastAddr_mem 0 (by simp))
    have hqp : q ≠ p := fun hqp => hq' (by simp [hqp])
    rw [hsame₃ q hqt, hsame₂ q hqa, store_of_ne h _ hqp]
  · rw [List.map_append, List.mem_append] at hq
    rcases hq with hq | hq
    · exact .inl hq
    · obtain rfl : q = p := by simpa using hq
      exact .inr hp
  · exact absurd (by rw [List.map_append, List.mem_append]; exact .inl hq) hq'

theorem removeNode_ring (hring : Ring h (xs ++ (p, d) :: ys)) (hxs : xs ≠ []) :
    ∃ h', h.removeNode p = some h' ∧ Changes h (xs ++ (p, d) :: ys) h' (xs ++ ys) := by
  obtain ⟨hnodup, hlink⟩ := hring
  have hfirst : firstAddr (xs ++ (p, d) :: ys) 0 = firstAddr xs 0 := by
    rw [firstAddr_append]
    exact firstAddr_eq _ _ hxs
  have hlast : lastAddr 0 (xs ++ (p, d) :: ys) = lastAddr p ys := by
    rw [lastAddr_append]
    rfl
  rw [hfirst, hlast] at hlink
  obtain ⟨hlx, hat, hly⟩ := linked_append.1 hlink
  rw [List.map_append, List.map_cons, List.nodup_append, List.nodup_cons] at hnodup
  obtain ⟨hndx, ⟨hpy, hndy⟩, hapart⟩ := hnodup
  have hpx : ∀ q ∈ xs.map Prod.fst, q ≠ p := fun q hq => hapart q hq p (by simp)
  have hxy : ∀ q ∈ xs.map Prod.fst, q ∉ ys.map Prod.fst := fun q hq hq' =>
    hapart q hq q (List.mem_cons_of_mem _ hq') rfl
  obtain ⟨l, hl⟩ : ∃ l, lastAddr (lastAddr p ys) xs = l := ⟨_, rfl⟩
  have hlmem : l ∈ xs.map Prod.fst := hl ▸ lastAddr_mem _ hxs
  obtain ⟨h₁, hnext, hlx₁, hsame₁⟩ :=
    hlx.setNext_last hndx hxs (firstAddr ys (firstAddr xs 0))
  rw [hl] at hnext hsame₁ hat
  have hly₁ : Linked h₁ p ys (firstAddr xs 0) := hly.congr fun q hq => hsame₁ q fun hql =>
    hxy l hlmem (hql ▸ hq)
  -- the node behind is the head when the last node goes
  obtain ⟨h₂, hprev, hlx₂, hly₂, hsame₂⟩ : ∃ h₂, h₁.setPrev (firstAddr ys (firstAddr xs 0)) l
      = some h₂ ∧ Linked h₂ (lastAddr 0 (xs ++ ys)) xs (firstAddr ys (firstAddr xs 0)) ∧
        Linked h₂ l ys (firstAddr xs 0) ∧
        ∀ q, q ≠ firstAddr ys (firstAddr xs 0) → h₂ q = h₁ q := by
    cases ys with
    | nil =>
      have hhead : firstAddr xs (firstAddr xs 0) = firstAddr ([] : List (Nat × α)) (firstAddr xs 0) :=
        firstAddr_eq _ 0 hxs
      obtain ⟨h₂, hprev, hlx₂, hsame₂⟩ := hlx₁.setPrev_first hndx hxs l
      have hself : lastAddr 0 (xs ++ []) = l := by
        rw [List.append_nil, lastAddr_eq 0 _ hxs, hl]
      rw [hself]
      exact ⟨h₂, hhead ▸ hprev, hlx₂, trivial, hhead ▸ hsame₂⟩
    | cons n ys =>
      obtain ⟨h₂, hprev, hly₂, hsame₂⟩ := hly₁.setPrev_first hndy (by simp) l
      refine ⟨h₂, hprev, ?_, hly₂, hsame₂⟩
      have hend : lastAddr 0 (xs ++ n :: ys) = lastAddr p (n :: ys) := by
        rw [lastAddr_append]
        rfl
      rw [hend]
      exact hlx₁.congr fun q hq => hsame₂ q fun hqn => hxy q hq (by simp [hqn])
  refine ⟨h₂.free p, by simp [removeNode, hat, hnext, hprev], ⟨?_, ?_⟩, fun q hq _ => ?_,
    fun q hq => .inl ?_, fun q hq hq' => ?_⟩
  · rw [List.map_append, List.nodup_append]
    exact ⟨hndx, hndy, fun q hq q' hq' => hapart q hq q' (List.mem_cons_of_mem _ hq')⟩
  · have hstart : firstAddr (xs ++ ys) 0 = firstAddr xs 0 := by
      rw [firstAddr_append]
      exact firstAddr_eq _ _ hxs
    have hbefore : lastAddr (lastAddr 0 (xs ++ ys)) xs = l := by
      rw [lastAddr_eq _ (lastAddr p ys) hxs, hl]
    rw [hstart]
    refine linked_append.2 ⟨hlx₂.congr fun q hq => free_of_ne h₂ (hpx q hq), ?_⟩
    rw [hbefore]
    exact hly₂.congr fun q hq => free_of_ne h₂ fun hqp => hpy (hqp ▸ hq)
  · have hqp : q ≠ p := fun hqp => hq (by simp [hqp])
    have hql : q ≠ l := fun hql => hq (by simp only [List.map_append, List.mem_append]; exact .inl (hql ▸ hlmem))
    have hqn : q ≠ firstAddr ys (firstAddr xs 0) := by
      rintro rfl
      apply hq
      rw [List.map_append, List.mem_append]
      cases ys with
      | nil => exact .inl (firstAddr_mem 0 hxs)
      | cons n ys => exact .inr (by simp)
    rw [free_of_ne h₂ hqp, hsame₂ q hqn, hsame₁ q hql]
  · rw [List.map_append, List.mem_append] at hq ⊢
    exact hq.imp_right (List.mem_cons_of_mem _)
  · obtain rfl : q = p := by
      simp only [List.map_append, List.map_cons, List.mem_append, List.mem_cons] at hq hq'
      tauto
    exact free_self h₂ q

/-! ## Several rings in one heap -/

/-- Rings that have no node in common. -/
structure Rings (h : ListHeap α) (rs : List (List (Nat × α))) : Prop where
  ring : ∀ r ∈ rs, Ring h r
  apart : rs.Pairwise fun r r' => (r.map Prod.fst).Disjoint (r'.map Prod.fst)

variable {rs : List (List (Nat × α))}

theorem Rings.replace {rs' : List (List (Nat × α))} (hrings : Rings h (rs ++ r :: rs'))
    (hchanges : Changes h r h' r') : Rings h' (rs ++ r' :: rs') := by
  obtain ⟨hring, hapart⟩ := hrings
  have hmem : ∀ s ∈ rs ++ rs', Ring h s := fun s hs => hring s (by
    rcases List.mem_append.1 hs with hs | hs <;> simp [hs])
  rw [List.pairwise_append, List.pairwise_cons] at hapart
  obtain ⟨hrs, ⟨hr, hrs'⟩, hcross⟩ := hapart
  have hdisj : ∀ s ∈ rs ++ rs', (r.map Prod.fst).Disjoint (s.map Prod.fst) := by
    intro s hs
    rcases List.mem_append.1 hs with hs | hs
    · exact (hcross s hs r (by simp)).symm
    · exact hr s hs
  -- neither old nodes nor free ones belong to another ring
  have hdisj' : ∀ s ∈ rs ++ rs', (r'.map Prod.fst).Disjoint (s.map Prod.fst) := by
    intro s hs q hq hqs
    rcases hchanges.taken q hq with hin | hnone
    · exact hdisj s hs hin hqs
    · exact (hmem s hs).ne_none hqs hnone
  have hkeep : ∀ s ∈ rs ++ rs', Ring h' s := fun s hs => (hmem s hs).congr fun q hq =>
    hchanges.frame q (fun hin => hdisj s hs hin hq) fun hin => hdisj' s hs hin hq
  refine ⟨fun s hs => ?_, List.pairwise_append.2 ⟨hrs, List.pairwise_cons.2 ⟨fun s hs =>
    hdisj' s (by simp [hs]), hrs'⟩, fun s hs t ht => ?_⟩⟩
  · rcases List.mem_append.1 hs with hs | hs
    · exact hkeep s (by simp [hs])
    · rcases List.mem_cons.1 hs with rfl | hs
      · exact hchanges.ring
      · exact hkeep s (by simp [hs])
  · rcases List.mem_cons.1 ht with rfl | ht
    · exact (hdisj' s (by simp [hs])).symm
    · exact hcross s hs t (by simp [ht])

theorem Rings.mkListNode (hrings : Rings h rs) (hp : h p = none) (d : α) :
    Rings (h.mkListNode p d) (rs ++ [[(p, d)]]) := by
  have hout : ∀ r ∈ rs, p ∉ r.map Prod.fst := fun r hr hin => (hrings.ring r hr).ne_none hin hp
  refine ⟨fun r hr => ?_, List.pairwise_append.2 ⟨hrings.apart, by simp, fun r hr s hs => ?_⟩⟩
  · rcases List.mem_append.1 hr with hr | hr
    · exact (hrings.ring r hr).congr fun q hq =>
        store_of_ne h _ fun hqp => hout r hr (hqp ▸ hq)
    · obtain rfl := List.mem_singleton.1 hr
      exact ring_mkListNode h p d
  · obtain rfl := List.mem_singleton.1 hs
    intro q hq hqp
    obtain rfl : q = p := by simpa using hqp
    exact hout r hr hq

/-! ## Going around -/

/-- `do { body } while ((p = p->next) != head)`; the body may return. -/
def doWhileStep (h : ListHeap α) (head : Nat) (body : σ → Nat → α → σ ⊕ ρ) :
    Nat × σ → (Nat × σ) ⊕ Option (σ ⊕ ρ)
  | (p, s) =>
    match h p with
    | none => .inr none
    | some n =>
      match body s p n.data with
      | .inr r => .inr (some (.inr r))
      | .inl s => if n.next = head then .inr (some (.inl s)) else .inl (n.next, s)

/-- `for (; p != head; p = p->next) { body }`. -/
def forEachStep (h : ListHeap α) (head : Nat) (body : σ → α → σ) : Nat × σ → (Nat × σ) ⊕ Option σ
  | (p, s) =>
    if p = head then .inr (some s)
    else
      match h p with
      | none => .inr none
      | some n => .inl (n.next, body s n.data)

/-- The body, for one node after the other until it returns. -/
def visitAll (body : σ → Nat → α → σ ⊕ ρ) : List (Nat × α) → σ → σ ⊕ ρ
  | [], s => .inl s
  | n :: ns, s =>
    match body s n.1 n.2 with
    | .inr r => .inr r
    | .inl s => visitAll body ns s

/-- Once around the ring is as many steps as it has nodes. -/
theorem doWhile_run (body : σ → Nat → α → σ ⊕ ρ) (hlink : Linked h a ns b) (hne : ns ≠ [])
    (hb : b ∉ ns.tail.map Prod.fst) (s : σ) :
    run (doWhileStep h b body) ns.length (firstAddr ns b, s) = .inr (some (visitAll body ns s)) := by
  induction ns generalizing a s with
  | nil => exact absurd rfl hne
  | cons n ns ih =>
    obtain ⟨hn, hrest⟩ := hlink
    rw [visitAll, List.length_cons, run, firstAddr_cons]
    cases hbody : body s n.1 n.2 with
    | inr r => simp [doWhileStep, hn, hbody]
    | inl s' =>
      cases ns with
      | nil => simp [doWhileStep, hn, hbody, visitAll]
      | cons m ns =>
        have hm : m.1 ≠ b := fun hmb => hb (by simp [hmb])
        have hnext : doWhileStep h b body (n.1, s) = .inl (firstAddr (m :: ns) b, s') := by
          simp [doWhileStep, hn, hbody, hm]
        rw [hnext]
        exact ih hrest (by simp) (fun hin => hb (List.mem_cons_of_mem _ hin)) s'

theorem doWhile_returns (body : σ → Nat → α → σ ⊕ ρ) (hlink : Linked h a ns b) (hne : ns ≠ [])
    (hb : b ∉ ns.tail.map Prod.fst) (s : σ) :
    Returns (doWhileStep h b body) (firstAddr ns b, s) (some (visitAll body ns s)) :=
  ⟨ns.length, doWhile_run body hlink hne hb s⟩

theorem Ring.doWhile_returns {n : Nat × α} (hring : Ring h (n :: ns)) (body : σ → Nat → α → σ ⊕ ρ) (s : σ) :
    Returns (doWhileStep h n.1 body) (n.1, s) (some (visitAll body (n :: ns) s)) :=
  Evlog.Lib.doWhile_returns body hring.linked (by simp) hring.head.2.2 s

theorem forEach_returns (body : σ → α → σ) (hlink : Linked h a ns b)
    (hb : b ∉ ns.map Prod.fst) (s : σ) :
    Returns (forEachStep h b body) (firstAddr ns b, s)
      (some (ns.foldl (fun s n => body s n.2) s)) := by
  induction ns generalizing a s with
  | nil => exact returns_of_step (by simp [forEachStep])
  | cons n ns ih =>
    obtain ⟨hn, hrest⟩ := hlink
    have hnb : n.1 ≠ b := fun hnb => hb (by simp [hnb])
    have hnext : Next (forEachStep h b body) (firstAddr (n :: ns) b, s)
        (firstAddr ns b, body s n.2) := by
      simp [Next, forEachStep, hn, hnb]
    exact (returns_iff_of_next hnext).2 (ih hrest (fun hin => hb (List.mem_cons_of_mem _ hin)) _)

/-- The body of a loop that returns what it was looking for. -/
def seek (f : Nat → α → Option ρ) (_ : Unit) (p : Nat) (d : α) : Unit ⊕ ρ :=
  match f p d with
  | some r => .inr r
  | none => .inl ()

theorem visitAll_seek (f : Nat → α → Option ρ) (ns : List (Nat × α)) : visitAll (seek f) ns () =
      match ns.findSome? fun n => f n.1 n.2 with
      | some r => .inr r
      | none => .inl () := by
  induction ns with
  | nil => rfl
  | cons n ns ih =>
    rw [visitAll, List.findSome?_cons, seek]
    cases f n.1 n.2 with
    | some r => rfl
    | none => exact ih

def count (k : Nat) (_ : Nat) (_ : α) : Nat ⊕ Empty := .inl (k + 1)

theorem visitAll_count (ns : List (Nat × α)) (k : Nat) :
    visitAll count ns k = .inl (k + ns.length) := by
  induction ns generalizing k with
  | nil => rfl
  | cons n ns ih =>
    have hrest := ih (k + 1)
    rw [List.length_cons, ← Nat.add_assoc, Nat.add_right_comm, ← hrest]
    rfl

/-- `do { next = p->next; if (body) removeNode(p); p = next; } while (p != head)`. -/
def sweepStep (head : Nat) (body : σ → Nat → α → σ × Bool) :
    ListHeap α × Nat × σ → (ListHeap α × Nat × σ) ⊕ Option (ListHeap α × σ)
  | (h, p, s) =>
    match h p with
    | none => .inr none
    | some n =>
      match if (body s p n.data).2 then h.removeNode p else some h with
      | none => .inr none
      | some h =>
        if n.next = head then .inr (some (h, (body s p n.data).1))
        else .inl (h, n.next, (body s p n.data).1)

/-- The body, for one node after the other: the nodes that are left, and what
the body has come to. -/
def sweepAll (body : σ → Nat → α → σ × Bool) : List (Nat × α) → σ → List (Nat × α) × σ
  | [], s => ([], s)
  | n :: ns, s =>
    let rest := sweepAll body ns (body s n.1 n.2).1
    (if (body s n.1 n.2).2 then rest.1 else n :: rest.1, rest.2)

/-- Every node from the one it begins at has its turn, and those are gone that
the body wanted to go. -/
theorem sweep_returns (body : σ → Nat → α → σ × Bool) (hring : Ring h (xs ++ ns)) (hxs : xs ≠ [])
    (hns : ns ≠ []) (s : σ) :
    ∃ h', Returns (sweepStep (firstAddr xs 0) body) (h, firstAddr ns 0, s) (some (h', (sweepAll body ns s).2)) ∧
      Changes h (xs ++ ns) h' (xs ++ (sweepAll body ns s).1) := by
  induction ns generalizing h xs s with
  | nil => exact absurd rfl hns
  | cons n ns ih =>
    obtain ⟨p, d⟩ := n
    have hfirst : firstAddr (xs ++ (p, d) :: ns) 0 = firstAddr xs 0 := by
      rw [firstAddr_append]
      exact firstAddr_eq _ _ hxs
    have hat : h p = some ⟨firstAddr ns (firstAddr xs 0), lastAddr (lastAddr 0 (xs ++ (p, d) :: ns)) xs, d⟩ := by
      have := (linked_append.1 hring.linked).2.1
      rwa [hfirst] at this
    obtain ⟨s', hs'⟩ : ∃ s', (body s p d).1 = s' := ⟨_, rfl⟩
    -- the node is taken out, or becomes one of those that stay
    obtain ⟨h₁, xs₁, hstep, hchanges, hxs₁, hhead, hkept⟩ : ∃ h₁ xs₁,
        (if (body s p d).2 then h.removeNode p else some h) = some h₁ ∧
          Changes h (xs ++ (p, d) :: ns) h₁ (xs₁ ++ ns) ∧ xs₁ ≠ [] ∧
          firstAddr xs₁ 0 = firstAddr xs 0 ∧
          xs₁ ++ (sweepAll body ns s').1 = xs ++ (sweepAll body ((p, d) :: ns) s).1 := by
      cases hdrop : (body s p d).2 with
      | true =>
        obtain ⟨h₁, hremove, hchanges⟩ := removeNode_ring hring hxs
        exact ⟨h₁, xs, hremove, hchanges, hxs, rfl, by simp [sweepAll, hdrop, hs']⟩
      | false =>
        refine ⟨h, xs ++ [(p, d)], rfl, ?_, by simp, ?_, by simp [sweepAll, hdrop, hs']⟩
        · rw [List.append_assoc]
          exact .refl hring
        · rw [firstAddr_append]
          exact firstAddr_eq _ _ hxs
    have hturn : sweepStep (firstAddr xs 0) body (h, p, s) =
        if firstAddr ns (firstAddr xs 0) = firstAddr xs 0 then .inr (some (h₁, s'))
        else .inl (h₁, firstAddr ns (firstAddr xs 0), s') := by
      simp only [sweepStep, hat]
      rw [hstep, hs']
    have hlast : (sweepAll body ((p, d) :: ns) s).2 = (sweepAll body ns s').2 := by
      rw [← hs']
      rfl
    rw [← hkept, hlast]
    cases ns with
    | nil =>
      exact ⟨h₁, returns_of_step (by rw [firstAddr_cons, hturn]; exact if_pos rfl), by simpa [sweepAll] using hchanges⟩
    | cons m ns =>
      have hm : m.1 ≠ firstAddr xs 0 := by
        intro hm
        have hnd := hring.nodup
        rw [List.map_append, List.nodup_append] at hnd
        exact hnd.2.2 _ (firstAddr_mem 0 hxs) m.1 (by simp) hm.symm
      have hnext : Next (sweepStep (firstAddr xs 0) body) (h, firstAddr ((p, d) :: m :: ns) 0, s)
          (h₁, firstAddr (m :: ns) 0, s') := by
        rw [Next, firstAddr_cons, hturn]
        exact if_neg hm
      obtain ⟨h', hret, hrest⟩ := ih hchanges.ring hxs₁ (by simp) s'
      rw [hhead] at hret
      exact ⟨h', (returns_iff_of_next hnext).2 hret, hchanges.trans hrest⟩

/-- `do { if (drop) removeNode(p); } while ((p = next) != head)`, where
`next` is read before the node goes. -/
def pruneStep (head : Nat) (drop : α → Bool) :
    ListHeap α × Nat → (ListHeap α × Nat) ⊕ Option (ListHeap α)
  | (h, p) =>
    match h p with
    | none => .inr none
    | some n =>
      match if drop n.data then h.removeNode p else some h with
      | none => .inr none
      | some h => if n.next = head then .inr (some h) else .inl (h, n.next)

/-- Of the nodes from the one it begins at, those stay that are not to be
dropped. -/
theorem prune_returns (drop : α → Bool) (hring : Ring h (xs ++ ns)) (hxs : xs ≠ []) (hns : ns ≠ []) :
    ∃ h', Returns (pruneStep (firstAddr xs 0) drop) (h, firstAddr ns 0) (some h') ∧
      Changes h (xs ++ ns) h' (xs ++ ns.filter fun n => !drop n.2) := by
  have hkept : ∀ ns : List (Nat × α), (sweepAll (fun (_ : Unit) _ d => ((), drop d)) ns ()).1
      = ns.filter fun n => !drop n.2 := by
    intro ns
    induction ns with
    | nil => rfl
    | cons n ns ih => cases hdrop : drop n.2 <;> simp [sweepAll, hdrop, ih]
  obtain ⟨h', hret, hchanges⟩ := sweep_returns (fun (_ : Unit) _ d => ((), drop d)) hring hxs hns ()
  rw [hkept] at hchanges
  refine ⟨h', hret.map (fun s => (s.1, s.2.1)) (Option.map Prod.fst) ?_, hchanges⟩
  rintro ⟨h, p, s⟩
  simp only [pruneStep, sweepStep]
  cases h p with
  | none => rfl
  | some n =>
    dsimp only
    cases (if drop n.data then h.removeNode p else some h) with
    | none => rfl
    | some h => by_cases hend : n.next = firstAddr xs 0 <;> simp [hend]

/-! ## Going backward -/

def ListHeap.mirrored (h : ListHeap α) : ListHeap α := fun p => (h p).map fun n => ⟨n.prev, n.next, n.data⟩

theorem lastAddr_reverse (a : Nat) (ns : List (Nat × α)) : lastAddr a ns.reverse = firstAddr ns a := by
  cases ns with
  | nil => rfl
  | cons n ns => rw [List.reverse_cons, lastAddr_append]; rfl

theorem firstAddr_reverse (ns : List (Nat × α)) (b : Nat) : firstAddr ns.reverse b = lastAddr b ns := by
  rw [← lastAddr_reverse, List.reverse_reverse]

theorem Linked.mirrored (hlink : Linked h a ns b) : Linked h.mirrored b ns.reverse a := by
  induction ns generalizing a with
  | nil => trivial
  | cons n ns ih =>
    obtain ⟨hn, hrest⟩ := hlink
    rw [List.reverse_cons, linked_append, lastAddr_reverse]
    refine ⟨ih hrest, ?_, trivial⟩
    rw [ListHeap.mirrored, hn]
    rfl

theorem Ring.mirrored (hring : Ring h ns) : Ring h.mirrored ns.reverse := by
  refine ⟨?_, ?_⟩
  · rw [List.map_reverse]
    exact List.nodup_reverse.2 hring.nodup
  · rw [lastAddr_reverse, firstAddr_reverse]
    exact hring.linked.mirrored

end Evlog.Lib
