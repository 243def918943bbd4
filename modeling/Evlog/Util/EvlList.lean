/-
Evlog.Util.EvlList — the list functions (evl_list.c).

A list is known by its head. There are two kinds: one has `NULL` for the
empty list, the other has a head without data, which is never removed. They
have the same links, so any of the functions may be called on either, as long
as `removeNode` leaves the head alone.

`lists_are_sequences`: after any calls the links are those of the list
that the same calls on lists give.
-/
import Evlog.Lib.RingFamily

namespace Evlog.Util

open Evlog.Lib Evlog.Lib.Machine Evlog.Lib.ListHeap

variable {α σ ρ : Type}

/-! ## The operations -/

/-- The nodes, the head, and the data that has been given to `free_data_fptr`. -/
structure EvlList (α : Type) where
  heap : ListHeap α
  head : Option Nat
  freed : List α

namespace EvlList

/-- `_evlAppendToList`, with the address that malloc returns. -/
def evlAppendToList (l : EvlList α) (p : Nat) (data : α) : Option (EvlList α) :=
  (l.heap.appendToList l.head p data).map fun (h, head) => { l with heap := h, head := some head }

def evlInsertToList (l : EvlList α) (newNode : Nat) (insertMe : α) (beforeMe : Nat) : Option (EvlList α) :=
  match l.head with
  | none => ((l.heap.mkListNode newNode insertMe).insertListNode newNode beforeMe).map fun h => { l with heap := h }
  | some head =>
    (l.heap.insertToList newNode insertMe beforeMe head).map fun (h, head) => { l with heap := h, head := some head }

/-- `_evlRemoveNode`; there may be no `free_data_fptr`. -/
def evlRemoveNode (l : EvlList α) (removeMe : Nat) (freeData : Bool) : Option (EvlList α) := do
  let head ← l.head
  let n ← l.heap removeMe
  let headNode ← l.heap head
  let newHead := if removeMe = head then if headNode.next = head then none else some headNode.next else some head
  let h ← l.heap.removeNode removeMe
  some ⟨h, newHead, if freeData then l.freed ++ [n.data] else l.freed⟩

def removeNode (l : EvlList α) (p : Nat) : Option (EvlList α) := do
  let n ← l.heap p
  let h ← l.heap.removeNode p
  some { l with heap := h, freed := l.freed ++ [n.data] }

/-- The body of the loop in `removeAllNodes`. -/
def removeIt (freed : List α) (_ : Nat) (data : α) : List α × Bool := (freed ++ [data], true)

/-- What `removeAllNodes` returns with. -/
def RemoveAllNodes (l : EvlList α) (result : Option (EvlList α)) : Prop :=
  match l.head.bind fun head => (l.heap head).map fun n => (head, n.next) with
  | none => result = none
  | some (head, p) =>
    if head = p then result = some l
    else ∃ out, Returns (sweepStep head removeIt) (l.heap, p, l.freed) out ∧
      result = out.map fun (h, freed) => { l with heap := h, freed }

end EvlList

/-- A call. What is allocated is where malloc has put it. -/
inductive ListCall (α : Type) where
  | append (p : Nat) (data : α)
  | insert (newNode : Nat) (insertMe : α) (beforeMe : Nat)
  | remove (removeMe : Nat) (freeData : Bool)
  | removeNode (p : Nat)
  | removeAllNodes

/-- What the call returns with; `none` is a fault. -/
def ListCall.Gives (l : EvlList α) : ListCall α → Option (EvlList α) → Prop
  | .append p data, result => result = l.evlAppendToList p data
  | .insert newNode insertMe beforeMe, result => result = l.evlInsertToList newNode insertMe beforeMe
  | .remove removeMe freeData, result => result = l.evlRemoveNode removeMe freeData
  | .removeNode p, result => result = l.removeNode p
  | .removeAllNodes, result => l.RemoveAllNodes result

/-! ## Walks around a list -/

/-- `_evlGetListSize`. What is above `INT_MAX` comes out modulo 2^32. -/
def countNode (n : Int32) (_ : Nat) (_ : α) : Int32 ⊕ Empty := .inl (n + 1)

/-- `_evlGetNthNode` -/
def seekNth (n : Int32) (i : Int32) (p : Nat) (_ : α) : Int32 ⊕ Nat := if i = n then .inr p else .inl (i + 1)

/-- The two functions, and a `NULL` head. -/
def EvlGetListSize (l : EvlList α) (size : Int32) : Prop :=
  match l.head with
  | none => size = 0
  | some head => Returns (doWhileStep l.heap head countNode) (head, 0) (some (.inl size))

def EvlGetNthNode (l : EvlList α) (n : Int32) (node : Option Nat) : Prop :=
  match l.head with
  | none => node = none
  | some head => ∃ out, Returns (doWhileStep l.heap head (seekNth n)) (head, 0) (some out) ∧
      node = Sum.elim (fun _ => none) some out

def noteNode (seen : List (Nat × α)) (p : Nat) (data : α) : List (Nat × α) ⊕ Empty := .inl (seen ++ [(p, data)])

/-! ## Sequences -/

def ListCall.onSequence (ns : List (Nat × α)) : ListCall α → List (Nat × α)
  | .append p data => ns ++ [(p, data)]
  | .insert newNode insertMe beforeMe =>
    ns.takeWhile (fun n => n.1 ≠ beforeMe) ++ (newNode, insertMe) :: ns.dropWhile fun n => n.1 ≠ beforeMe
  | .remove removeMe _ => ns.filter fun n => n.1 ≠ removeMe
  | .removeNode p => ns.filter fun n => n.1 ≠ p
  | .removeAllNodes => ns.take 1

def ListCall.frees (ns : List (Nat × α)) : ListCall α → List α
  | .append .. | .insert .. | .remove _ false => []
  | .remove p true | .removeNode p => (ns.filter fun n => n.1 = p).map Prod.snd
  | .removeAllNodes => ns.tail.map Prod.snd

/-- The call may be made: what malloc returns was free, the node is one of the
list, and it is not the head where that has no data. -/
def ListCall.Allowed (h : ListHeap α) (ns : List (Nat × α)) : ListCall α → Prop
  | .append p _ => h p = none
  | .insert newNode _ beforeMe => h newNode = none ∧ beforeMe ∈ ns.map Prod.fst
  | .remove removeMe _ => removeMe ∈ ns.map Prod.fst
  | .removeNode p => p ∈ ns.tail.map Prod.fst
  | .removeAllNodes => ns ≠ []

/-- Calls one after the other, from an empty list in a heap with other things
in it, and what they come to on sequences. -/
inductive Calls (h₀ : ListHeap α) : List (ListCall α) → EvlList α → List (Nat × α) → List α → Prop
  | nil : Calls h₀ [] ⟨h₀, none, []⟩ [] []
  | snoc {calls l ns freed call l'} (hcalls : Calls h₀ calls l ns freed) (hallowed : call.Allowed l.heap ns)
      (hgives : call.Gives l (some l')) :
      Calls h₀ (calls ++ [call]) l' (call.onSequence ns) (freed ++ call.frees ns)

/-- The list is the sequence `ns`. -/
structure Implements (l : EvlList α) (ns : List (Nat × α)) : Prop where
  distinct : (ns.map Prod.fst).Nodup
  head : l.head = headAddr ns
  /-- The nodes that `li_next` comes to from the head, until it is there again. -/
  forward : ∀ head ∈ l.head, Returns (doWhileStep l.heap head noteNode) (head, []) (some (.inl ns))
  /-- And `li_prev`, from the last node. -/
  backward : ∀ tail ∈ headAddr ns.reverse,
    Returns (doWhileStep l.heap.mirrored tail noteNode) (tail, []) (some (.inl ns.reverse))
  size : ∀ size, EvlGetListSize l size ↔ size = Int32.ofNat ns.length
  nth : ∀ n node, EvlGetNthNode l n node ↔ node = ns[n.toUInt32.toNat]?.map Prod.fst
  /-- A loop has a turn for each node in order, or returns in one. -/
  visits : ∀ (σ ρ : Type) (body : σ → Nat → α → σ ⊕ ρ) (s : σ), ∀ head ∈ l.head,
    Returns (doWhileStep l.heap head body) (head, s) (some (visitAll body ns s))
  /-- A loop that begins behind the head has a turn for each node but the head,
  whatever it removes, and leaves the others. -/
  sweeps : ∀ (σ : Type) (body : σ → Nat → α → σ × Bool) (s : σ), ∀ head ∈ ns.head?, ∀ next ∈ headAddr ns.tail,
    ∃ h', Returns (sweepStep head.1 body) (l.heap, next, s) (some (h', (sweepAll body ns.tail s).2)) ∧
      Ring h' (head :: (sweepAll body ns.tail s).1)

/-! ## One call -/

variable {h h' : ListHeap α} {l l' : EvlList α} {ns xs ys : List (Nat × α)} {p : Nat} {d : α}

theorem changes_mkListNode (hp : h p = none) (d : α) : Changes h [] (h.mkListNode p d) [(p, d)] := by
  refine ⟨ring_mkListNode h p d, fun q _ hq => store_of_ne h _ (by simpa using hq), fun q hq => ?_, by simp⟩
  obtain rfl : q = p := by simpa using hq
  exact .inr hp

theorem removeNode_single (hring : Ring h [(p, d)]) :
    ∃ h', h.removeNode p = some h' ∧ Changes h [(p, d)] h' [] := by
  have hat : h p = some ⟨p, p, d⟩ := hring.linked.1
  refine ⟨(h.store p ⟨p, p, d⟩).free p, ?_, ⟨by simp, trivial⟩, fun q hq _ => ?_, by simp, fun q hq _ => ?_⟩
  · simp [ListHeap.removeNode, setNext, setPrev, hat, store]
  · have hqp : q ≠ p := by simpa using hq
    rw [free_of_ne _ hqp, store_of_ne h _ hqp]
  · obtain rfl : q = p := by simpa using hq
    exact free_self _ _

theorem removeNode_some (hring : Ring h (xs ++ (p, d) :: ys)) :
    ∃ h', h.removeNode p = some h' ∧ Changes h (xs ++ (p, d) :: ys) h' (xs ++ ys) := by
  cases xs with
  | cons n xs => exact removeNode_ring hring (by simp)
  | nil =>
    cases ys with
    | nil => exact removeNode_single hring
    | cons m ys =>
      have hrotate : Ring h ((m :: ys) ++ (p, d) :: []) := @Ring.rotate _ h [(p, d)] (m :: ys) hring
      obtain ⟨h', hremove, hchanges⟩ := removeNode_ring hrotate (by simp)
      have hback : Changes h ([(p, d)] ++ m :: ys) h' ([] ++ m :: ys) := by
        simpa using hchanges.rotate
      exact ⟨h', hremove, hback⟩

/-- The node that is at an address of the sequence, and what is in front of it
and behind. -/
theorem exists_split_at (hnodup : (ns.map Prod.fst).Nodup) (hp : p ∈ ns.map Prod.fst) :
    ∃ xs d ys, ns = xs ++ (p, d) :: ys ∧ ns.takeWhile (fun n => n.1 ≠ p) = xs ∧
      ns.dropWhile (fun n => n.1 ≠ p) = (p, d) :: ys ∧ ns.filter (fun n => n.1 ≠ p) = xs ++ ys ∧
      ns.filter (fun n => n.1 = p) = [(p, d)] := by
  obtain ⟨⟨p', d⟩, hmem, rfl⟩ := List.mem_map.1 hp
  obtain ⟨xs, ys, rfl⟩ := List.append_of_mem hmem
  rw [List.map_append, List.map_cons, List.nodup_append, List.nodup_cons] at hnodup
  obtain ⟨-, ⟨hbehind, -⟩, hapart⟩ := hnodup
  have hxs : ∀ n ∈ xs, n.1 ≠ p' := fun n hn => hapart n.1 (List.mem_map_of_mem hn) p' (by simp)
  have hys : ∀ n ∈ ys, n.1 ≠ p' := by
    rintro n hn rfl
    exact hbehind (List.mem_map.2 ⟨n, hn, rfl⟩)
  refine ⟨xs, d, ys, rfl, ?_, ?_, ?_, ?_⟩
  · rw [List.takeWhile_append_of_pos (by simpa using hxs)]
    simp
  · rw [List.dropWhile_append_of_pos (by simpa using hxs)]
    simp
  · rw [List.filter_append, List.filter_cons_of_neg (by simp), List.filter_eq_self.2 (by simpa using hxs),
      List.filter_eq_self.2 (by simpa using hys)]
  · rw [List.filter_append, List.filter_cons_of_pos (by simp), List.filter_eq_nil_iff.2 (by simpa using hxs),
      List.filter_eq_nil_iff.2 (by simpa using hys)]
    rfl

/-- What a call makes of a list that is `ns`. -/
structure Makes (l : EvlList α) (ns : List (Nat × α)) (call : ListCall α) (l' : EvlList α) : Prop where
  changes : Changes l.heap ns l'.heap (call.onSequence ns)
  head : l'.head = headAddr (call.onSequence ns)
  freed : l'.freed = l.freed ++ call.frees ns

theorem append_makes (hring : Ring l.heap ns) (hhead : l.head = headAddr ns) (hp : l.heap p = none) (d : α) :
    ∃ l', l.evlAppendToList p d = some l' ∧ Makes l ns (.append p d) l' := by
  cases ns with
  | nil =>
    have hnone : l.head = none := hhead
    refine ⟨{ l with heap := l.heap.mkListNode p d, head := some p }, ?_, changes_mkListNode hp d, rfl, by simp [ListCall.frees]⟩
    rw [EvlList.evlAppendToList, hnone]
    rfl
  | cons n ns =>
    have hsome : l.head = some n.1 := hhead
    obtain ⟨h', happend, hchanges⟩ := appendToList_some hring hp d
    refine ⟨{ l with heap := h', head := some n.1 }, ?_, hchanges, rfl, by simp [ListCall.frees]⟩
    rw [EvlList.evlAppendToList, hsome, happend]
    rfl

theorem insert_makes (hring : Ring l.heap ns) (hhead : l.head = headAddr ns) {newNode beforeMe : Nat}
    (hnew : l.heap newNode = none) (hbefore : beforeMe ∈ ns.map Prod.fst) (d : α) :
    ∃ l', l.evlInsertToList newNode d beforeMe = some l' ∧ Makes l ns (.insert newNode d beforeMe) l' := by
  obtain ⟨xs, e, ys, rfl, htake, hdrop, -, -⟩ := exists_split_at hring.nodup hbefore
  have hsome : l.head = some (firstAddr (xs ++ (beforeMe, e) :: ys) 0) := by
    rw [hhead]
    cases xs <;> rfl
  obtain ⟨h', hinsert, hchanges⟩ := insertToList_some hring hnew d
  have hseq : (ListCall.insert newNode d beforeMe).onSequence (xs ++ (beforeMe, e) :: ys) =
      xs ++ (newNode, d) :: (beforeMe, e) :: ys := by
    rw [ListCall.onSequence, htake, hdrop]
  refine ⟨{ l with heap := h', head := some (firstAddr (xs ++ (newNode, d) :: (beforeMe, e) :: ys) 0) }, ?_, ?_, ?_,
    by simp [ListCall.frees]⟩
  · rw [EvlList.evlInsertToList, hsome]
    dsimp only
    rw [hinsert]
    rfl
  · rw [hseq]
    exact hchanges
  · rw [hseq]
    cases xs <;> rfl

/-- The head that `_evlRemoveNode` returns. -/
theorem newHead_eq (hring : Ring h (xs ++ (p, d) :: ys)) :
    ∃ n, h (firstAddr (xs ++ (p, d) :: ys) 0) = some n ∧
      (if p = firstAddr (xs ++ (p, d) :: ys) 0 then
        if n.next = firstAddr (xs ++ (p, d) :: ys) 0 then none else some n.next
      else some (firstAddr (xs ++ (p, d) :: ys) 0)) = headAddr (xs ++ ys) := by
  cases xs with
  | nil =>
    obtain ⟨hat, -, hnot⟩ := hring.head
    refine ⟨_, hat, ?_⟩
    cases ys with
    | nil => simp [headAddr]
    | cons m ys =>
      have hm : m.1 ≠ p := fun heq => hnot (by simp [heq])
      simp [headAddr, hm]
  | cons n xs =>
    rw [List.cons_append] at hring
    obtain ⟨hat, -, hnot⟩ := hring.head
    have hp : p ≠ n.1 := fun heq => hnot (by simp [← heq])
    exact ⟨_, hat, by simp [headAddr, hp]⟩

theorem remove_makes (hring : Ring l.heap ns) (hhead : l.head = headAddr ns) (hp : p ∈ ns.map Prod.fst)
    (freeData : Bool) :
    ∃ l', l.evlRemoveNode p freeData = some l' ∧ Makes l ns (.remove p freeData) l' := by
  obtain ⟨xs, d, ys, rfl, -, -, hkept, hgone⟩ := exists_split_at hring.nodup hp
  have hsome : l.head = some (firstAddr (xs ++ (p, d) :: ys) 0) := by
    rw [hhead]
    cases xs <;> rfl
  obtain ⟨n, hn, hdata⟩ := hring.linked.exists_node (p := p) (d := d) (by simp)
  obtain ⟨m, hm, hnewHead⟩ := newHead_eq hring
  obtain ⟨h', hremove, hchanges⟩ := removeNode_some hring
  refine ⟨⟨h', headAddr (xs ++ ys), if freeData then l.freed ++ [d] else l.freed⟩, ?_, ?_, ?_, ?_⟩
  · simp only [EvlList.evlRemoveNode, hsome, hn, hm, hremove, hnewHead, hdata, Option.bind_eq_bind, Option.bind_some]
  · rw [ListCall.onSequence, hkept]
    exact hchanges
  · rw [ListCall.onSequence, hkept]
  · cases freeData with
    | false => simp [ListCall.frees]
    | true =>
      rw [ListCall.frees, hgone]
      rfl

theorem removeNode_makes (hring : Ring l.heap ns) (hhead : l.head = headAddr ns)
    (hp : p ∈ ns.tail.map Prod.fst) : ∃ l', l.removeNode p = some l' ∧ Makes l ns (.removeNode p) l' := by
  obtain ⟨xs, d, ys, rfl, -, -, hkept, hgone⟩ := exists_split_at hring.nodup
    (List.map_subset _ (List.tail_subset ns) hp)
  have hxs : xs ≠ [] := by
    rintro rfl
    exact hring.head.2.2 hp
  obtain ⟨n, hn, hdata⟩ := hring.linked.exists_node (p := p) (d := d) (by simp)
  obtain ⟨h', hremove, hchanges⟩ := removeNode_some hring
  refine ⟨{ l with heap := h', freed := l.freed ++ [d] }, ?_, ?_, ?_, ?_⟩
  · simp only [EvlList.removeNode, hn, hremove, hdata, Option.bind_eq_bind, Option.bind_some]
  · rw [ListCall.onSequence, hkept]
    exact hchanges
  · rw [ListCall.onSequence, hkept, hhead]
    cases xs with
    | nil => exact absurd rfl hxs
    | cons m xs => rfl
  · rw [ListCall.frees, hgone]
    rfl

theorem sweepAll_removeIt (ns : List (Nat × α)) (freed : List α) :
    sweepAll EvlList.removeIt ns freed = ([], freed ++ ns.map Prod.snd) := by
  induction ns generalizing freed with
  | nil => simp [sweepAll]
  | cons n ns ih => simp [sweepAll, EvlList.removeIt, ih]

theorem removeAllNodes_makes (hring : Ring l.heap ns) (hhead : l.head = headAddr ns) (hne : ns ≠ []) :
    ∃ l', (∀ result, l.RemoveAllNodes result ↔ result = some l') ∧ Makes l ns .removeAllNodes l' := by
  obtain ⟨⟨a, d⟩, ns, rfl⟩ := List.exists_cons_of_ne_nil hne
  have hsome : l.head = some a := hhead
  obtain ⟨hat, -, hnot⟩ := hring.head
  have hstart : (l.head.bind fun head => (l.heap head).map fun n => (head, n.next)) = some (a, firstAddr ns a) := by
    rw [hsome, Option.bind_some, hat]
    rfl
  cases ns with
  | nil =>
    refine ⟨l, fun result => ?_, .refl hring, hhead, by simp [ListCall.frees]⟩
    rw [EvlList.RemoveAllNodes, hstart]
    exact Iff.of_eq (if_pos rfl)
  | cons m ns =>
    have hm : a ≠ m.1 := fun heq => hnot (by simp [heq])
    have hfirst : [(a, d)] ≠ [] := by simp
    obtain ⟨h', hret, hchanges⟩ := sweep_returns EvlList.removeIt hring hfirst (by simp) l.freed
    rw [sweepAll_removeIt] at hret hchanges
    refine ⟨{ l with heap := h', freed := l.freed ++ (m :: ns).map Prod.snd }, fun result => ?_, hchanges, hhead, rfl⟩
    rw [EvlList.RemoveAllNodes, hstart]
    dsimp only
    rw [if_neg (show a ≠ firstAddr (m :: ns) a from hm)]
    constructor
    · rintro ⟨out, hout, rfl⟩
      rw [hout.unique hret]
      rfl
    · rintro rfl
      exact ⟨_, hret, rfl⟩

/-- An allowed call returns, and does on the list what it does on sequences. -/
theorem call_makes (hring : Ring l.heap ns) (hhead : l.head = headAddr ns) {call : ListCall α}
    (hallowed : call.Allowed l.heap ns) :
    ∃ l', (∀ result, call.Gives l result ↔ result = some l') ∧ Makes l ns call l' := by
  cases call with
  | append p data =>
    obtain ⟨l', h, hmakes⟩ := append_makes hring hhead hallowed data
    exact ⟨l', fun result => by rw [← h]; rfl, hmakes⟩
  | insert newNode insertMe beforeMe =>
    obtain ⟨l', h, hmakes⟩ := insert_makes hring hhead hallowed.1 hallowed.2 insertMe
    exact ⟨l', fun result => by rw [← h]; rfl, hmakes⟩
  | remove removeMe freeData =>
    obtain ⟨l', h, hmakes⟩ := remove_makes hring hhead hallowed freeData
    exact ⟨l', fun result => by rw [← h]; rfl, hmakes⟩
  | removeNode p =>
    obtain ⟨l', h, hmakes⟩ := removeNode_makes hring hhead hallowed
    exact ⟨l', fun result => by rw [← h]; rfl, hmakes⟩
  | removeAllNodes => exact removeAllNodes_makes hring hhead hallowed

/-! ## The walks -/

theorem visitAll_noteNode (ns seen : List (Nat × α)) : visitAll noteNode ns seen = .inl (seen ++ ns) := by
  induction ns generalizing seen with
  | nil => rw [visitAll, List.append_nil]
  | cons n ns ih =>
    rw [visitAll, noteNode]
    dsimp only
    rw [ih, List.append_assoc]
    rfl

theorem visitAll_countNode (ns : List (Nat × α)) (k : Int32) :
    visitAll countNode ns k = .inl (k + Int32.ofNat ns.length) := by
  induction ns generalizing k with
  | nil => simp [visitAll]
  | cons n ns ih =>
    rw [visitAll, countNode]
    dsimp only
    rw [ih, List.length_cons, Int32.ofNat_add, Int32.add_assoc, Int32.add_comm 1]
    rfl

theorem toNat_sub_succ {n i : Int32} (hne : i ≠ n) :
    (n - i).toUInt32.toNat = (n - (i + 1)).toUInt32.toNat + 1 := by
  have hdiffer : i.toBitVec ≠ n.toBitVec := fun h => hne (Int32.toBitVec_inj.1 h)
  show (n.toBitVec - i.toBitVec).toNat = (n.toBitVec - (i.toBitVec + 1#32)).toNat + 1
  generalize n.toBitVec = n at hdiffer ⊢
  generalize i.toBitVec = i at hdiffer ⊢
  bv_omega

/-- The index that is looked for is reached, or the list ends before. -/
theorem visitAll_seekNth (n : Int32) (ns : List (Nat × α)) (i : Int32) :
    Sum.elim (fun _ => none) some (visitAll (seekNth n) ns i) =
      ns[(n - i).toUInt32.toNat]?.map Prod.fst := by
  induction ns generalizing i with
  | nil => rfl
  | cons m ns ih =>
    rw [visitAll, seekNth]
    by_cases heq : i = n
    · rw [if_pos heq, heq, Int32.sub_self]
      rfl
    · rw [if_neg heq, toNat_sub_succ heq, List.getElem?_cons_succ]
      exact ih (i + 1)

theorem getListSize_iff (hring : Ring l.heap ns) (hhead : l.head = headAddr ns) (size : Int32) :
    EvlGetListSize l size ↔ size = Int32.ofNat ns.length := by
  cases ns with
  | nil =>
    have hnone : l.head = none := hhead
    rw [EvlGetListSize, hnone]
    rfl
  | cons n ns =>
    have hsome : l.head = some n.1 := hhead
    have hret := hring.doWhile_returns countNode 0
    rw [visitAll_countNode, Int32.zero_add] at hret
    rw [EvlGetListSize, hsome]
    constructor
    · intro h
      exact Sum.inl.inj (Option.some.inj (h.unique hret))
    · rintro rfl
      exact hret

theorem getNthNode_iff (hring : Ring l.heap ns) (hhead : l.head = headAddr ns) (n : Int32) (node : Option Nat) :
    EvlGetNthNode l n node ↔ node = ns[n.toUInt32.toNat]?.map Prod.fst := by
  cases ns with
  | nil =>
    have hnone : l.head = none := hhead
    rw [EvlGetNthNode, hnone]
    rfl
  | cons m ns =>
    have hsome : l.head = some m.1 := hhead
    have hret := hring.doWhile_returns (seekNth n) 0
    have hnth := visitAll_seekNth n (m :: ns) 0
    rw [Int32.sub_zero] at hnth
    rw [EvlGetNthNode, hsome, ← hnth]
    constructor
    · rintro ⟨out, hout, rfl⟩
      rw [Option.some.inj (hout.unique hret)]
    · rintro rfl
      exact ⟨_, hret, rfl⟩

theorem implements (hring : Ring l.heap ns) (hhead : l.head = headAddr ns) : Implements l ns where
  distinct := hring.nodup
  head := hhead
  forward := by
    intro head hmem
    cases ns with
    | nil => rw [hhead] at hmem; cases hmem
    | cons n ns =>
      obtain rfl : n.1 = head := by simpa [hhead, headAddr] using hmem
      simpa [visitAll_noteNode] using hring.doWhile_returns noteNode []
  backward := by
    intro tail hmem
    have hback := hring.mirrored
    cases hreverse : ns.reverse with
    | nil => rw [hreverse] at hmem; cases hmem
    | cons n rest =>
      rw [hreverse] at hmem hback
      obtain rfl : n.1 = tail := by simpa [headAddr] using hmem
      simpa [visitAll_noteNode] using hback.doWhile_returns noteNode []
  size := getListSize_iff hring hhead
  nth := getNthNode_iff hring hhead
  visits := by
    intro σ ρ body s head hmem
    cases ns with
    | nil => rw [hhead] at hmem; cases hmem
    | cons n ns =>
      obtain rfl : n.1 = head := by simpa [hhead, headAddr] using hmem
      exact hring.doWhile_returns body s
  sweeps := by
    intro σ body s head hmem next hnext
    cases ns with
    | nil => cases hmem
    | cons n ns =>
      obtain rfl : n = head := by simpa using hmem
      cases ns with
      | nil => cases hnext
      | cons m ns =>
        obtain rfl : m.1 = next := by simpa [headAddr] using hnext
        have hfirst : [n] ≠ [] := by simp
        obtain ⟨h', hret, hchanges⟩ := sweep_returns body hring hfirst (by simp) s
        exact ⟨h', hret, hchanges.ring⟩

/-! ## Any calls -/

theorem Calls.ring {h₀ : ListHeap α} {calls : List (ListCall α)} {freed : List α} (hcalls : Calls h₀ calls l ns freed) :
    Ring l.heap ns ∧ l.head = headAddr ns ∧ l.freed = freed := by
  induction hcalls with
  | nil => exact ⟨⟨List.nodup_nil, trivial⟩, rfl, rfl⟩
  | snoc _ hallowed hgives ih =>
    obtain ⟨hring, hhead, hfreed⟩ := ih
    obtain ⟨l'', hgives', hmakes⟩ := call_makes hring hhead hallowed
    obtain rfl := Option.some.inj ((hgives' _).1 hgives)
    exact ⟨hmakes.changes.ring, hmakes.head, by rw [hmakes.freed, hfreed]⟩

/-- After any calls the list is the sequence that the same calls make, their
data has been freed, and every call that is allowed then returns. -/
theorem lists_are_sequences (h₀ : ListHeap α) {calls : List (ListCall α)} {l : EvlList α}
    {ns : List (Nat × α)} {freed : List α} (hcalls : Calls h₀ calls l ns freed) :
    Implements l ns ∧ l.freed = freed ∧
      ∀ call : ListCall α, call.Allowed l.heap ns → ∃ l', ∀ result, call.Gives l result ↔ result = some l' := by
  obtain ⟨hring, hhead, hfreed⟩ := hcalls.ring
  refine ⟨implements hring hhead, hfreed, fun call hallowed => ?_⟩
  obtain ⟨l', hgives, -⟩ := call_makes hring hhead hallowed
  exact ⟨l', hgives⟩

/-- A node is appended, one is put in front of it, and the first one goes. -/
theorem three_calls : ∃ l freed, Calls (fun _ => none) [.append 1 'a', .insert 2 'b' 1, .remove 1 true] l
    [(2, 'b')] freed := by
  have hone : Calls (fun _ => none) [.append 1 'a'] _ [(1, 'a')] [] := .snoc .nil rfl rfl
  have htwo : Calls (fun _ => none) [.append 1 'a', .insert 2 'b' 1] _ [(2, 'b'), (1, 'a')] [] :=
    .snoc hone ⟨rfl, List.mem_singleton_self 1⟩ rfl
  exact ⟨_, _, .snoc htwo (List.mem_cons_of_mem 2 (List.mem_singleton_self 1)) rfl⟩

theorem lists_are_sequences_three : ∃ l : EvlList Char, Implements l [(2, 'b')] := by
  obtain ⟨l, freed, hcalls⟩ := three_calls
  exact ⟨l, (lists_are_sequences (fun _ => none) hcalls).1⟩

end Evlog.Util
