/-
Evlog.Lib.RingFamily — circular lists that belong to the elements of an
array.

A ring has no first node but the one its head points to, so it may be read
from any of its nodes (`Ring.rotate`), and putting a node in front of the
head is appending it. `Family` says that each element has its own ring, or
none: `Family.update` is what becomes of one ring, `Family.swap` exchanges
the rings of two elements, and `Family.freeLists` frees one after the other.

The loops are run here with as many steps as there are nodes.
-/
import Evlog.Lib.CircularList
import Mathlib.Data.List.TakeWhile

namespace Evlog.Lib

open Machine

variable {α σ ρ : Type}

namespace ListHeap

/-- Links the node `insertMe` in front of `beforeMe`. -/
def insertListNode (h : ListHeap α) (insertMe beforeMe : Nat) : Option (ListHeap α) := do
  let afterMe := (← h beforeMe).prev
  let h ← h.setNext insertMe beforeMe
  let h ← h.setPrev insertMe afterMe
  let h ← h.setNext afterMe insertMe
  h.setPrev beforeMe insertMe

/-- A new node at the free address `p`, in front of `beforeMe` in the list of
the head `list`. The new heap and the list's head. -/
def insertToList (h : ListHeap α) (p : Nat) (d : α) (beforeMe list : Nat) : Option (ListHeap α × Nat) :=
  ((h.mkListNode p d).insertListNode p beforeMe).map fun h => (h, if beforeMe = list then p else list)

/-- `do { next = p->next; free(p); p = next; } while (p != head)`. -/
def freeStep (head : Nat) : ListHeap α × Nat → (ListHeap α × Nat) ⊕ Option (ListHeap α)
  | (h, p) =>
    match h p with
    | none => .inr none
    | some n => if n.next = head then .inr (some (h.free p)) else .inl (h.free p, n.next)

/-- Frees all the nodes of the list; no head is the empty list. The loop is
run for at most `fuel` nodes. -/
def freeList (fuel : Nat) (h : ListHeap α) : Option Nat → Option (ListHeap α)
  | none => some h
  | some head =>
    match run (freeStep head) fuel (h, head) with
    | .inr h => h
    | .inl _ => none

/-- A new node at the free address `p`, in front of the first that comes
behind `e`, or at the end. The search goes over at most `fuel` nodes. -/
def addInOrder (isLess : α → α → Bool) (fuel : Nat) (h : ListHeap α) (head p : Nat) (e : α) :
    Option (ListHeap α × Nat) :=
  match run (doWhileStep h head (seek fun q d => if isLess e d then some q else none)) fuel (head, ()) with
  | .inr (some (.inr q)) => h.insertToList p e q head
  | .inr (some (.inl ())) => h.appendToList (some head) p e
  | _ => none

end ListHeap

/-- Where `addInOrder` puts a node. -/
def insertInOrder (isLess : α → α → Bool) (n : Nat × α) (ns : List (Nat × α)) : List (Nat × α) :=
  ns.takeWhile (fun m => !isLess n.2 m.2) ++ n :: ns.dropWhile fun m => !isLess n.2 m.2

/-- Each index has a ring, or none, and nothing else is allocated. -/
structure Family (h : ListHeap α) (rs : Nat → List (Nat × α)) : Prop where
  ring : ∀ i, Ring h (rs i)
  apart : ∀ i j, i ≠ j → ((rs i).map Prod.fst).Disjoint ((rs j).map Prod.fst)
  only : ∀ q, h q ≠ none → ∃ i, q ∈ (rs i).map Prod.fst

def headAddr (ns : List (Nat × α)) : Option Nat := (ns.map Prod.fst).head?

open ListHeap

variable {h h' : ListHeap α} {a b p q : Nat} {d e : α} {ns xs ys r r' : List (Nat × α)}

/-! ## A ring read from another node -/

theorem Ring.rotate (hring : Ring h (xs ++ ys)) : Ring h (ys ++ xs) := by
  obtain ⟨hnodup, hlink⟩ := hring
  refine ⟨?_, ?_⟩
  · rw [List.map_append] at hnodup ⊢
    exact List.nodup_append_comm.1 hnodup
  · rcases eq_or_ne xs [] with rfl | hxs
    · simpa using hlink
    rcases eq_or_ne ys [] with rfl | hys
    · simpa using hlink
    obtain ⟨lx, hlx⟩ : ∃ l, ∀ a, lastAddr a xs = l := ⟨lastAddr 0 xs, fun a => lastAddr_eq a 0 hxs⟩
    obtain ⟨ly, hly⟩ : ∃ l, ∀ a, lastAddr a ys = l := ⟨lastAddr 0 ys, fun a => lastAddr_eq a 0 hys⟩
    obtain ⟨fx, hfx⟩ : ∃ f, ∀ b, firstAddr xs b = f := ⟨firstAddr xs 0, fun b => firstAddr_eq b 0 hxs⟩
    obtain ⟨fy, hfy⟩ : ∃ f, ∀ b, firstAddr ys b = f := ⟨firstAddr ys 0, fun b => firstAddr_eq b 0 hys⟩
    simp only [lastAddr_append, firstAddr_append, linked_append, hlx, hly, hfx, hfy] at hlink ⊢
    exact hlink.symm

theorem Changes.rotate {r₁ r₂ : List (Nat × α)} (hc : Changes h (xs ++ ys) h' (r₁ ++ r₂)) :
    Changes h (ys ++ xs) h' (r₂ ++ r₁) := by
  have hold : ∀ q, q ∈ (ys ++ xs).map Prod.fst ↔ q ∈ (xs ++ ys).map Prod.fst := by
    intro q
    rw [List.map_append, List.map_append, List.mem_append, List.mem_append, or_comm]
  have hnew : ∀ q, q ∈ (r₂ ++ r₁).map Prod.fst ↔ q ∈ (r₁ ++ r₂).map Prod.fst := by
    intro q
    rw [List.map_append, List.map_append, List.mem_append, List.mem_append, or_comm]
  refine ⟨hc.ring.rotate, fun q hq hq' => ?_, fun q hq' => ?_, fun q hq hq' => ?_⟩
  · exact hc.frame q (mt (hold q).2 hq) (mt (hnew q).2 hq')
  · exact (hc.taken q ((hnew q).1 hq')).imp_left (hold q).2
  · exact hc.freed q ((hold q).1 hq) (mt (hnew q).2 hq')

/-! ## A node in front of another -/

theorem setPrev_setNext (h : ListHeap α) (a t p : Nat) :
    ((h.setPrev a p).bind fun h => h.setNext t p) = (h.setNext t p).bind fun h => h.setPrev a p := by
  unfold setPrev setNext
  by_cases hat : a = t
  · subst hat
    cases h a with
    | none => rfl
    | some n => simp [store]
  · cases ha : h a with
    | none =>
      cases ht : h t with
      | none => rfl
      | some m => simp [store_of_ne h _ hat, ha]
    | some n =>
      cases ht : h t with
      | none => simp [store_of_ne h _ (Ne.symm hat), ht]
      | some m =>
        simp only [Option.map_some, Option.bind_some, store_of_ne h _ (Ne.symm hat),
          store_of_ne h _ hat, ha, ht]
        exact congrArg some (Function.update_comm hat _ _ h)

theorem insertListNode_eq (h : ListHeap α) (p a : Nat) (d : α) :
    ((h.mkListNode p d).insertListNode p a).map (fun h => (h, a)) = h.appendToList (some a) p d := by
  unfold insertListNode appendToList
  dsimp only [Option.bind_eq_bind]
  cases (h.mkListNode p d) a with
  | none => rfl
  | some n =>
    simp only [Option.bind_some, Option.map_eq_bind, Option.bind_assoc]
    refine Option.bind_congr fun h₁ _ => Option.bind_congr fun h₂ _ => ?_
    have hcomm := setPrev_setNext h₂ a n.prev p
    calc ((h₂.setNext n.prev p).bind fun h => (h.setPrev a p).bind fun h => some (h, a))
        = ((h₂.setNext n.prev p).bind fun h => h.setPrev a p).bind fun h => some (h, a) := by
          rw [Option.bind_assoc]
      _ = ((h₂.setPrev a p).bind fun h => h.setNext n.prev p).bind fun h => some (h, a) := by
          rw [hcomm]
      _ = _ := by rw [Option.bind_assoc]

theorem insertToList_some (hring : Ring h (xs ++ (b, d) :: ys)) (hp : h p = none) (e : α) :
    ∃ h', h.insertToList p e b (firstAddr (xs ++ (b, d) :: ys) 0)
        = some (h', firstAddr (xs ++ (p, e) :: (b, d) :: ys) 0) ∧
      Changes h (xs ++ (b, d) :: ys) h' (xs ++ (p, e) :: (b, d) :: ys) := by
  have hrotate : Ring h ((b, d) :: (ys ++ xs)) := hring.rotate
  obtain ⟨h', happend, hchanges⟩ := appendToList_some hrotate hp e
  rw [← insertListNode_eq, Option.map_eq_some_iff] at happend
  obtain ⟨h₁, hinsert, heq⟩ := happend
  rw [(Prod.mk.inj heq).1] at hinsert
  have hrotated : Changes h ((b, d) :: ys ++ xs) h' ((b, d) :: ys ++ (xs ++ [(p, e)])) := by
    simpa using hchanges
  have hresult : Changes h (xs ++ (b, d) :: ys) h' (xs ++ (p, e) :: (b, d) :: ys) := by
    simpa using hrotated.rotate
  refine ⟨h', ?_, hresult⟩
  have hhead : (if b = firstAddr (xs ++ (b, d) :: ys) 0 then p else firstAddr (xs ++ (b, d) :: ys) 0)
      = firstAddr (xs ++ (p, e) :: (b, d) :: ys) 0 := by
    cases xs with
    | nil => simp
    | cons n xs =>
      have hne : b ≠ n.1 := by
        intro hbn
        have hnodup := hring.nodup
        rw [List.cons_append, List.map_cons, List.nodup_cons] at hnodup
        exact hnodup.1 (by simp [hbn])
      simp [hne]
  rw [insertToList, hinsert, Option.map_some, hhead]

/-! ## Loops with a bound -/

theorem run_mono {τ ε : Type} {step : τ → τ ⊕ ε} {s : τ} {e : ε} {n m : Nat} (hn : run step n s = .inr e)
    (hle : n ≤ m) : run step m s = .inr e := by
  induction n generalizing m s with
  | zero => simp [run] at hn
  | succ n ih =>
    cases m with
    | zero => omega
    | succ m =>
      simp only [run] at hn ⊢
      cases hstep : step s with
      | inl s' =>
        rw [hstep] at hn
        exact ih hn (by omega)
      | inr e' =>
        rw [hstep] at hn
        exact hn

theorem free_run (hlink : Linked h a ns b) (hnodup : (ns.map Prod.fst).Nodup) (hne : ns ≠ [])
    (hb : b ∉ ns.tail.map Prod.fst) :
    ∃ h', run (freeStep b) ns.length (h, firstAddr ns b) = .inr (some h') ∧
      (∀ q ∈ ns.map Prod.fst, h' q = none) ∧ ∀ q, q ∉ ns.map Prod.fst → h' q = h q := by
  induction ns generalizing h a with
  | nil => exact absurd rfl hne
  | cons n ns ih =>
    obtain ⟨hn, hrest⟩ := hlink
    obtain ⟨hnot, hnodup⟩ := List.nodup_cons.1 hnodup
    have hothers : ∀ q ∈ ns.map Prod.fst, h.free n.1 q = h q := fun q hq =>
      free_of_ne h fun hqn => hnot (hqn ▸ hq)
    rw [List.length_cons, run, firstAddr_cons]
    cases ns with
    | nil =>
      refine ⟨h.free n.1, by simp [freeStep, hn], ?_, ?_⟩
      · simp
      · intro q hq
        exact free_of_ne h (by simpa using hq)
    | cons m ns =>
      have hm : m.1 ≠ b := fun hmb => hb (by simp [hmb])
      have hnext : freeStep b (h, n.1) = .inl (h.free n.1, firstAddr (m :: ns) b) := by
        simp [freeStep, hn, hm]
      obtain ⟨h', hrun, hfreed, hframe⟩ := ih (hrest.congr hothers) hnodup (by simp)
        fun hin => hb (List.mem_cons_of_mem _ hin)
      refine ⟨h', by rw [hnext]; exact hrun, ?_, ?_⟩
      · intro q hq
        rcases List.mem_cons.1 hq with rfl | hq
        · rw [hframe _ hnot, free_self]
        · exact hfreed q hq
      · intro q hq
        obtain ⟨hqn, hq⟩ := not_or.1 (mt List.mem_cons.2 hq)
        rw [hframe q hq, free_of_ne h hqn]

theorem freeList_head (hring : Ring h ns) {fuel : Nat} (hfuel : ns.length ≤ fuel) :
    ∃ h', h.freeList fuel (headAddr ns) = some h' ∧ Changes h ns h' [] := by
  cases ns with
  | nil => exact ⟨h, rfl, .refl hring⟩
  | cons n ns =>
    have hb : n.1 ∉ ns.map Prod.fst := (List.nodup_cons.1 hring.nodup).1
    obtain ⟨h', hrun, hfreed, hframe⟩ := free_run hring.linked hring.nodup (by simp) hb
    refine ⟨h', ?_, ⟨by simp, trivial⟩, fun q hq _ => hframe q hq, by simp, fun q hq _ => hfreed q hq⟩
    have hrun' : run (freeStep n.1) fuel (h, n.1) = .inr (some h') := run_mono hrun hfuel
    simp only [headAddr, List.map_cons, List.head?_cons, freeList, hrun']

theorem addInOrder_some (isLess : α → α → Bool) (hring : Ring h ((a, d) :: ns)) (hp : h p = none) (e : α)
    {fuel : Nat} (hfuel : ns.length < fuel) :
    ∃ h', h.addInOrder isLess fuel a p e
        = some (h', firstAddr (insertInOrder isLess (p, e) ((a, d) :: ns)) 0) ∧
      Changes h ((a, d) :: ns) h' (insertInOrder isLess (p, e) ((a, d) :: ns)) := by
  have hb : a ∉ ns.map Prod.fst := (List.nodup_cons.1 hring.nodup).1
  have hrun := run_mono (doWhile_run (seek fun q d => if isLess e d then some q else none)
    hring.linked (by simp) hb ()) (show ((a, d) :: ns).length ≤ fuel from hfuel)
  simp only [firstAddr_cons, visitAll_seek] at hrun
  unfold addInOrder insertInOrder
  generalize hxs : ((a, d) :: ns).takeWhile (fun m => !isLess e m.2) = xs
  generalize hys : ((a, d) :: ns).dropWhile (fun m => !isLess e m.2) = ys
  have hsplit : (a, d) :: ns = xs ++ ys := by rw [← hxs, ← hys, List.takeWhile_append_dropWhile]
  have hbefore : ∀ m ∈ xs, isLess e m.2 = false := by
    intro m hm
    rw [← hxs] at hm
    simpa using List.mem_takeWhile_imp hm
  have hskip : (xs.findSome? fun n => if isLess e n.2 then some n.1 else none) = none := by
    rw [List.findSome?_eq_none_iff]
    intro m hm
    simp [hbefore m hm]
  have hfind : (((a, d) :: ns).findSome? fun n => if isLess e n.2 then some n.1 else none)
      = ys.findSome? fun n => if isLess e n.2 then some n.1 else none := by
    rw [hsplit, List.findSome?_append, hskip, Option.none_or]
  rw [hrun, hfind]
  cases ys with
  | nil =>
    obtain ⟨h', happend, hchanges⟩ := appendToList_some hring hp e
    rw [List.append_nil] at hsplit
    rw [← hsplit]
    exact ⟨h', happend, hchanges⟩
  | cons m ys =>
    have hm : isLess e m.2 = true := by
      have hnot := List.head?_dropWhile_not (fun m => !isLess e m.2) ((a, d) :: ns)
      simpa [hys] using hnot
    rw [hsplit] at hring
    obtain ⟨h', hinsert, hchanges⟩ := insertToList_some hring hp e
    rw [← hsplit] at hinsert hchanges
    refine ⟨h', ?_, hchanges⟩
    simp only [List.findSome?_cons, hm, if_true]
    exact hinsert

/-! ## The order of the nodes -/

theorem insertInOrder_perm (isLess : α → α → Bool) (n : Nat × α) (ns : List (Nat × α)) :
    (insertInOrder isLess n ns).Perm (n :: ns) := by
  unfold insertInOrder
  refine List.perm_middle.trans (List.Perm.cons n ?_)
  rw [List.takeWhile_append_dropWhile]

variable {isLess : α → α → Bool}

theorem insertInOrder_of_less {n m : Nat × α} (hless : isLess n.2 m.2 = true) (ns : List (Nat × α)) :
    insertInOrder isLess n (m :: ns) = n :: m :: ns := by
  simp [insertInOrder, hless]

theorem insertInOrder_of_not_less {n m : Nat × α} (hless : isLess n.2 m.2 = false)
    (ns : List (Nat × α)) : insertInOrder isLess n (m :: ns) = m :: insertInOrder isLess n ns := by
  simp [insertInOrder, hless]

/-- It keeps a relation between the nodes that the new one has to those behind
its place as well. -/
theorem insertInOrder_pairwise {R : α → α → Prop} (isLess : α → α → Bool)
    (hless : ∀ m ∈ ns, isLess e m.2 = true → R e m.2)
    (hbehind : ∀ m ∈ ns, ∀ b ∈ ns, isLess e m.2 = true → R m.2 b.2 → R e b.2)
    (hnot : ∀ m ∈ ns, isLess e m.2 = false → R m.2 e) (hsorted : (ns.map Prod.snd).Pairwise R) :
    ((insertInOrder isLess (p, e) ns).map Prod.snd).Pairwise R := by
  induction ns with
  | nil => simp [insertInOrder]
  | cons n ns ih =>
    obtain ⟨hn, hrest⟩ := List.pairwise_cons.1 hsorted
    have hins := ih (fun m hm => hless m (List.mem_cons_of_mem _ hm))
      (fun m hm b hb => hbehind m (List.mem_cons_of_mem _ hm) b (List.mem_cons_of_mem _ hb))
      (fun m hm => hnot m (List.mem_cons_of_mem _ hm)) hrest
    cases hle : isLess e n.2 with
    | true =>
      have he : R e n.2 := hless n List.mem_cons_self hle
      rw [insertInOrder_of_less hle, List.map_cons, List.pairwise_cons]
      refine ⟨fun b hb => ?_, hsorted⟩
      rcases List.mem_cons.1 hb with rfl | hb
      · exact he
      · obtain ⟨m, hm, rfl⟩ := List.mem_map.1 hb
        exact hbehind n List.mem_cons_self m (List.mem_cons_of_mem _ hm) hle (hn m.2 hb)
    | false =>
      rw [insertInOrder_of_not_less hle, List.map_cons, List.pairwise_cons]
      refine ⟨fun b hb => ?_, hins⟩
      have hb : b ∈ ((p, e) :: ns).map Prod.snd :=
        ((insertInOrder_perm isLess (p, e) ns).map Prod.snd).mem_iff.1 hb
      rcases List.mem_cons.1 hb with rfl | hb
      · exact hnot n List.mem_cons_self hle
      · exact hn b hb

/-! ## A family of rings -/

variable {rs : Nat → List (Nat × α)} {i j : Nat}

theorem Family.not_mem (hfam : Family h rs) (hp : h p = none) (i : Nat) : p ∉ (rs i).map Prod.fst :=
  fun hin => (hfam.ring i).ne_none hin hp

theorem Family.update (hfam : Family h rs) (hchanges : Changes h (rs i) h' r') :
    Family h' (Function.update rs i r') := by
  -- neither old nodes nor free ones belong to another ring
  have hdisj : ∀ j, j ≠ i → (r'.map Prod.fst).Disjoint ((rs j).map Prod.fst) := by
    intro j hj q hq hqj
    rcases hchanges.taken q hq with hin | hnone
    · exact hfam.apart i j (Ne.symm hj) hin hqj
    · exact hfam.not_mem hnone j hqj
  refine ⟨fun j => ?_, fun j k hjk => ?_, fun q hq => ?_⟩
  · by_cases hj : j = i
    · subst hj
      rw [Function.update_self]
      exact hchanges.ring
    · rw [Function.update_of_ne hj]
      exact (hfam.ring j).congr fun q hq => hchanges.frame q
        (fun hin => hfam.apart i j (Ne.symm hj) hin hq) fun hin => hdisj j hj hin hq
  · by_cases hj : j = i
    · subst hj
      rw [Function.update_self, Function.update_of_ne (Ne.symm hjk)]
      exact hdisj k (Ne.symm hjk)
    · by_cases hk : k = i
      · subst hk
        rw [Function.update_self, Function.update_of_ne hj]
        exact (hdisj j hj).symm
      · rw [Function.update_of_ne hj, Function.update_of_ne hk]
        exact hfam.apart j k hjk
  · by_cases hin : q ∈ r'.map Prod.fst
    · exact ⟨i, by rwa [Function.update_self]⟩
    · have hold : q ∉ (rs i).map Prod.fst := fun hold => hq (hchanges.freed q hold hin)
      rw [hchanges.frame q hold hin] at hq
      obtain ⟨j, hj⟩ := hfam.only q hq
      refine ⟨j, ?_⟩
      rwa [Function.update_of_ne]
      rintro rfl
      exact hold hj

theorem Family.swap (hfam : Family h rs) (i j : Nat) : Family h (rs ∘ Equiv.swap i j) := by
  refine ⟨fun k => hfam.ring _, fun k l hkl => hfam.apart _ _ ?_, fun q hq => ?_⟩
  · exact fun heq => hkl ((Equiv.swap i j).injective heq)
  · obtain ⟨k, hk⟩ := hfam.only q hq
    exact ⟨Equiv.swap i j k, by rwa [Function.comp_apply, Equiv.swap_apply_self]⟩

theorem Family.mkListNode (hfam : Family h rs) (hp : h p = none) (hi : rs i = []) (d : α) :
    Family (h.mkListNode p d) (Function.update rs i [(p, d)]) := by
  refine hfam.update ⟨ring_mkListNode h p d, fun q _ hq => ?_, fun q hq => ?_, ?_⟩
  · exact store_of_ne h _ (by simpa using hq)
  · obtain rfl : q = p := by simpa using hq
    exact .inr hp
  · simp [hi]

/-- A ring has as many nodes as there are addresses at most. -/
theorem Ring.length_le (hring : Ring h ns) {bound : Nat} (hbound : ∀ q, h q ≠ none → q < bound) :
    ns.length ≤ bound := by
  have hsub : ns.map Prod.fst ⊆ List.range bound := fun q hq =>
    List.mem_range.2 (hbound q (hring.ne_none hq))
  simpa using (hring.nodup.subperm hsub).length_le

/-- One list after the other is freed, and nothing is left. -/
theorem Family.freeLists (hfam : Family h rs) {fuel : Nat} (hfuel : ∀ i, (rs i).length ≤ fuel) (is : List Nat)
    (hnodup : is.Nodup) (hall : ∀ i, rs i ≠ [] → i ∈ is) :
    (is.map fun i => headAddr (rs i)).foldlM (freeList fuel) h = some fun _ => none := by
  induction is generalizing h rs with
  | nil =>
    have hempty : ∀ q, h q = none := by
      intro q
      by_contra hq
      obtain ⟨i, hi⟩ := hfam.only q hq
      have hin := hall i (by rintro heq; simp [heq] at hi)
      exact absurd hin (by simp)
    exact congrArg some (funext hempty)
  | cons i is ih =>
    obtain ⟨hi, hnodup⟩ := List.nodup_cons.1 hnodup
    obtain ⟨h', hfree, hchanges⟩ := freeList_head (hfam.ring i) (hfuel i)
    have hrest : ∀ j ∈ is, Function.update rs i [] j = rs j := by
      intro j hj
      rw [Function.update_of_ne]
      rintro rfl
      exact hi hj
    have hmap : (is.map fun j => headAddr (rs j)) = is.map fun j => headAddr (Function.update rs i [] j) :=
      List.map_congr_left fun j hj => by rw [hrest j hj]
    rw [List.map_cons, List.foldlM_cons, hfree, hmap]
    refine ih (hfam.update hchanges) (fun j => ?_) hnodup fun j hj => ?_
    · by_cases hji : j = i
      · simp [hji]
      · rw [Function.update_of_ne hji]
        exact hfuel j
    · by_cases hji : j = i
      · simp [hji] at hj
      · rw [Function.update_of_ne hji] at hj
        exact (List.mem_cons.1 (hall j hj)).resolve_left hji

end Evlog.Lib
