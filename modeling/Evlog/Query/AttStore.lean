/-
Evlog.Query.AttStore — the list of non-standard attributes in memory
(evl_list.c, registerNonStdAtt in normalize.c).

The list is circular: its nodes point to the `evl_nonStdAtt_t` objects,
and the nodes of the query tree point to the objects as well. Here a list
is a heap of nodes, a heap of objects and the address of the head.
`registerNonStdAtt` goes around the list twice, once to look the name up
and once to count the nodes, and appends; where `malloc` puts what it
allocates is left open, except that it is free.

`Holds` says that the list in memory is a given list of entries, and a
call does to both the same (`RegisterNonStdAtt.holds`). So the calls that
normalization makes build the list it returns, and the pointer in a node
is that of the entry at its position (`StoreRun.holds`).
-/
import Evlog.Lib.CircularList
import Evlog.Query.AttListTheorems

namespace Evlog.Query

open Evlog.Lib Evlog.Lib.Machine

/-- The list in memory; no head is NULL. -/
structure AttStore where
  nodes : ListHeap Nat
  objs : Nat → Option NonStdAtt
  head : Option Nat

/-- What `_evlFindNamedItemInList` returns at a node, if it does; an
object that is not there is the inner `none`. -/
def namedItem? (objs : Nat → Option NonStdAtt) (attName : String) (p obj : Nat) :
    Option (Option Nat) :=
  match objs obj with
  | none => some none
  | some nsa => if nsa.nsaName = attName then some (some p) else none

inductive EvlFindNamedItemInList (st : AttStore) (attName : String) : Option Nat → Prop
  | null (h : st.head = none) : EvlFindNamedItemInList st attName none
  | found (head p : Nat) (h : st.head = some head)
      (hloop : Returns (doWhileStep st.nodes head (seek (namedItem? st.objs attName))) (head, ())
        (some (.inr (some p)))) : EvlFindNamedItemInList st attName (some p)
  | absent (head : Nat) (h : st.head = some head)
      (hloop : Returns (doWhileStep st.nodes head (seek (namedItem? st.objs attName))) (head, ())
        (some (.inl ()))) : EvlFindNamedItemInList st attName none

inductive EvlGetListSize (st : AttStore) : Nat → Prop
  | null (h : st.head = none) : EvlGetListSize st 0
  | counted (head n : Nat) (h : st.head = some head)
      (hloop : Returns (doWhileStep st.nodes head count) (head, 0) (some (.inl n))) :
      EvlGetListSize st n

/-- The object `registerNonStdAtt` fills in. -/
def newNonStdAtt (attName : String) (size : Nat) : NonStdAtt where
  nsaName := attName
  nsaResultIfMissing := evlFuzzyMaybe
  numeric := false
  strref := attName.toList.contains '.'
  nsaAtt := size

/-- `registerNonStdAtt`: the store after it, and the address it returns.
A node and an object go to free addresses. -/
inductive RegisterNonStdAtt (attName : String) (st : AttStore) : AttStore → Nat → Prop
  | found (p : Nat) (n : ListNode Nat) (hfind : EvlFindNamedItemInList st attName (some p))
      (hp : st.nodes p = some n) : RegisterNonStdAtt attName st st n.data
  | new (p obj size head : Nat) (nodes : ListHeap Nat)
      (hfind : EvlFindNamedItemInList st attName none) (hsize : EvlGetListSize st size)
      (hp : st.nodes p = none) (hobj : st.objs obj = none)
      (happend : st.nodes.appendToList st.head p obj = some (nodes, head)) :
      RegisterNonStdAtt attName st
        ⟨nodes, Function.update st.objs obj (some (newNonStdAtt attName size)), some head⟩ obj

/-- `nsa->nsaFlags |= EVLNSA_NUMERIC`. -/
def AttStore.setNumeric (st : AttStore) (obj : Nat) : AttStore :=
  { st with
    objs := Function.update st.objs obj ((st.objs obj).map fun nsa => { nsa with numeric := true }) }

/-- The calls one after the other, with the addresses they return. -/
inductive StoreRun : List AttCall → AttStore → List Nat → AttStore → Prop
  | nil (st : AttStore) : StoreRun [] st [] st
  | cons (c : AttCall) (cs : List AttCall) (st st₁ st₂ : AttStore) (obj : Nat) (objs : List Nat)
      (hcall : RegisterNonStdAtt c.attName st st₁ obj)
      (hrest : StoreRun cs (if c.numeric then st₁.setNumeric obj else st₁) objs st₂) :
      StoreRun (c :: cs) st (obj :: objs) st₂

/-! ## The list in memory -/

/-- The list in memory has these nodes, which point to different objects,
and the objects are the entries. -/
structure AttStore.Holds (st : AttStore) (ns : List (Nat × Nat)) (nsAtts : List NonStdAtt) : Prop where
  head : st.head = ns.head?.map Prod.fst
  ring : Ring st.nodes ns
  distinct : (ns.map Prod.snd).Nodup
  objs : ns.map (fun n => st.objs n.2) = nsAtts.map some

namespace AttStore

variable {st st' : AttStore} {ns : List (Nat × Nat)} {nsAtts : List NonStdAtt} {attName : String}

theorem holds_nil (h : st.head = none) : st.Holds [] [] :=
  ⟨h, ⟨by simp, trivial⟩, by simp, rfl⟩

theorem Holds.length_eq (h : st.Holds ns nsAtts) : ns.length = nsAtts.length := by
  simpa using congrArg List.length h.objs

theorem Holds.objs_getElem? (h : st.Holds ns nsAtts) {i : Nat} {n : Nat × Nat} (hi : ns[i]? = some n) :
    st.objs n.2 = nsAtts[i]? := by
  have hat := congrArg (fun l : List (Option NonStdAtt) => l[i]?) h.objs
  simp only [List.getElem?_map, hi, Option.map_some] at hat
  cases hl : nsAtts[i]? with
  | none => simp [hl] at hat
  | some nsa => simpa [hl] using hat

theorem Holds.eq_nil (h : st.Holds ns nsAtts) (hhead : st.head = none) : ns = [] ∧ nsAtts = [] := by
  have hns := h.head
  rw [hhead] at hns
  cases ns with
  | nil => exact ⟨rfl, List.length_eq_zero_iff.mp h.length_eq.symm⟩
  | cons n ns => simp at hns

theorem Holds.loop_returns {σ ρ : Type} (h : st.Holds ns nsAtts) {head : Nat} (hhead : st.head = some head)
    (body : σ → Nat → Nat → σ ⊕ ρ) (s : σ) :
    Returns (doWhileStep st.nodes head body) (head, s) (some (visitAll body ns s)) := by
  cases ns with
  | nil => simp [h.head] at hhead
  | cons n ns =>
    obtain rfl : n.1 = head := by simpa [h.head] using hhead
    exact doWhile_returns body h.ring.linked (by simp) (List.nodup_cons.mp h.ring.nodup).1 s

/-- The first node of the name, as the position of the first entry. -/
theorem findSome?_namedItem {objs : Nat → Option NonStdAtt}
    (h : ns.map (fun n => objs n.2) = nsAtts.map some) :
    (ns.findSome? fun n => namedItem? objs attName n.1 n.2)
      = (nsAtts.findIdx? fun nsa => nsa.nsaName = attName).map fun i => ns[i]?.map Prod.fst := by
  induction ns generalizing nsAtts with
  | nil =>
    obtain rfl : nsAtts = [] := by simpa using h.symm
    rfl
  | cons n ns ih =>
    cases nsAtts with
    | nil => simp at h
    | cons nsa nsAtts =>
      simp only [List.map_cons, List.cons.injEq] at h
      rw [List.findSome?_cons, List.findIdx?_cons, namedItem?, h.1]
      by_cases hname : nsa.nsaName = attName
      · simp [hname]
      · simp only [hname, if_false, ih h.2, decide_false, Bool.false_eq_true, Option.map_map]
        rfl

theorem Holds.find_iff (h : st.Holds ns nsAtts) (r : Option Nat) :
    EvlFindNamedItemInList st attName r ↔
      r = (nsAtts.findIdx? fun nsa => nsa.nsaName = attName).bind fun i => ns[i]?.map Prod.fst := by
  have hfound : ∀ i, (nsAtts.findIdx? fun nsa => nsa.nsaName = attName) = some i → ∃ n, ns[i]? = some n := by
    intro i hi
    have hlt := (List.findIdx?_eq_some_iff_getElem.mp hi).1
    rw [← h.length_eq] at hlt
    exact ⟨ns[i], List.getElem?_eq_getElem hlt⟩
  cases hhead : st.head with
  | none =>
    obtain ⟨rfl, rfl⟩ := h.eq_nil hhead
    constructor
    · intro hfind
      cases hfind with
      | null => rfl
      | found head p hsome => simp [hhead] at hsome
      | absent head hsome => rfl
    · rintro rfl
      exact .null hhead
  | some head =>
    have hloop := h.loop_returns hhead (seek (namedItem? st.objs attName)) ()
    rw [visitAll_seek, findSome?_namedItem h.objs] at hloop
    have huniq : ∀ {e}, Returns (doWhileStep st.nodes head (seek (namedItem? st.objs attName))) (head, ()) e →
        e = _ := fun he => he.unique hloop
    cases hidx : nsAtts.findIdx? fun nsa => nsa.nsaName = attName with
    | none =>
      rw [hidx] at hloop huniq
      constructor
      · intro hfind
        cases hfind with
        | null hnone => rfl
        | found head' p hsome hrun =>
          obtain rfl : head = head' := Option.some.inj (hhead.symm.trans hsome)
          cases huniq hrun
        | absent head' hsome hrun => rfl
      · rintro rfl
        exact .absent head hhead hloop
    | some i =>
      obtain ⟨n, hn⟩ := hfound i hidx
      rw [hidx] at hloop huniq
      simp only [Option.map_some, hn] at hloop huniq
      constructor
      · intro hfind
        cases hfind with
        | null hnone => simp [hhead] at hnone
        | found head' p hsome hrun =>
          obtain rfl : head = head' := Option.some.inj (hhead.symm.trans hsome)
          cases huniq hrun
          simp [hn]
        | absent head' hsome hrun =>
          obtain rfl : head = head' := Option.some.inj (hhead.symm.trans hsome)
          cases huniq hrun
      · rintro rfl
        simp only [Option.bind_some, hn, Option.map_some]
        exact .found head n.1 hhead hloop

theorem Holds.size_iff (h : st.Holds ns nsAtts) (n : Nat) : EvlGetListSize st n ↔ n = nsAtts.length := by
  cases hhead : st.head with
  | none =>
    obtain ⟨rfl, rfl⟩ := h.eq_nil hhead
    constructor
    · intro hsize
      cases hsize with
      | null => rfl
      | counted head n hsome => simp [hhead] at hsome
    · rintro rfl
      exact .null hhead
  | some head =>
    have hloop := h.loop_returns hhead count 0
    rw [visitAll_count, Nat.zero_add, h.length_eq] at hloop
    constructor
    · intro hsize
      cases hsize with
      | null hnone => simp [hhead] at hnone
      | counted head' n hsome hrun =>
        obtain rfl : head = head' := Option.some.inj (hhead.symm.trans hsome)
        cases hrun.unique hloop
        rfl
    · rintro rfl
      exact .counted head _ hhead hloop

/-! ## A call -/

theorem holds_ne_none (h : st.Holds ns nsAtts) {n : Nat × Nat} (hn : n ∈ ns) : st.objs n.2 ≠ none := by
  have hmem : st.objs n.2 ∈ nsAtts.map some := h.objs ▸ List.mem_map_of_mem hn
  obtain ⟨nsa, -, hnsa⟩ := List.mem_map.mp hmem
  simp [← hnsa]

theorem Holds.append (h : st.Holds ns nsAtts) {p obj : Nat} (hp : st.nodes p = none)
    (hobj : st.objs obj = none) (nsa : NonStdAtt) :
    ∃ nodes head, st.nodes.appendToList st.head p obj = some (nodes, head) ∧
      AttStore.Holds ⟨nodes, Function.update st.objs obj (some nsa), some head⟩ (ns ++ [(p, obj)])
        (nsAtts ++ [nsa]) := by
  have hother : ∀ n ∈ ns, n.2 ≠ obj := fun n hn hno => holds_ne_none h hn (hno ▸ hobj)
  have hobjs : (ns ++ [(p, obj)]).map (fun n => Function.update st.objs obj (some nsa) n.2)
      = (nsAtts ++ [nsa]).map some := by
    rw [List.map_append, List.map_append, ← h.objs]
    congr 1
    · exact List.map_congr_left fun n hn => Function.update_of_ne (hother n hn) ..
    · simp
  have hdistinct : ((ns ++ [(p, obj)]).map Prod.snd).Nodup := by
    rw [List.map_append, List.map_singleton]
    refine List.nodup_append.mpr ⟨h.distinct, List.nodup_singleton _, fun o ho o' ho' => ?_⟩
    obtain ⟨n, hn, rfl⟩ := List.mem_map.mp ho
    obtain rfl := List.mem_singleton.mp ho'
    exact hother n hn
  cases hhead : st.head with
  | none =>
    obtain ⟨rfl, rfl⟩ := h.eq_nil hhead
    exact ⟨_, p, rfl, rfl, ring_mkListNode _ _ _, hdistinct, hobjs⟩
  | some head =>
    cases ns with
    | nil => simp [h.head] at hhead
    | cons n ns =>
      obtain rfl : n.1 = head := by simpa [h.head] using hhead
      obtain ⟨nodes, happend, hchanges⟩ := appendToList_some (d := n.2) h.ring hp obj
      exact ⟨nodes, n.1, happend, rfl, hchanges.ring, hdistinct, hobjs⟩

theorem Holds.setNumeric (h : st.Holds ns nsAtts) {i obj : Nat}
    (hi : (ns.map Prod.snd)[i]? = some obj) :
    (st.setNumeric obj).Holds ns (nsAtts.modify i fun nsa => { nsa with numeric := true }) := by
  refine ⟨h.head, h.ring, h.distinct, ?_⟩
  apply List.ext_getElem?
  intro k
  rw [List.getElem?_map, List.getElem?_map, List.getElem?_modify]
  cases hk : ns[k]? with
  | none =>
    have hlen := h.length_eq ▸ List.getElem?_eq_none_iff.mp hk
    simp [List.getElem?_eq_none hlen]
  | some n =>
    have hat := h.objs_getElem? hk
    have hsnd : (ns.map Prod.snd)[k]? = some n.2 := by simp [hk]
    by_cases hki : i = k
    · subst hki
      obtain rfl : n.2 = obj := Option.some.inj (hsnd.symm.trans hi)
      have hne := holds_ne_none h (List.mem_of_getElem? hk)
      obtain ⟨nsa, hnsa⟩ := Option.ne_none_iff_exists'.mp hne
      simp [AttStore.setNumeric, hnsa, ← hat]
    · have hne : n.2 ≠ obj := by
        intro hno
        have hlt := (List.getElem?_eq_some_iff.mp hi).1
        exact hki ((List.getElem?_inj hlt h.distinct).mp (hi.trans (hno ▸ hsnd).symm))
      have hne' := holds_ne_none h (List.mem_of_getElem? hk)
      obtain ⟨nsa, hnsa⟩ := Option.ne_none_iff_exists'.mp hne'
      simp [AttStore.setNumeric, Function.update_of_ne hne, hnsa, ← hat, hki]

end AttStore

variable {st st' : AttStore} {ns : List (Nat × Nat)} {nsAtts : List NonStdAtt}

variable {attName : String}

theorem registerNonStdAtt_found {i : Nat}
    (h : (nsAtts.findIdx? fun nsa => nsa.nsaName = attName) = some i) :
    registerNonStdAtt attName nsAtts = (i, nsAtts) := by
  simp only [registerNonStdAtt, h]

theorem registerNonStdAtt_new (h : (nsAtts.findIdx? fun nsa => nsa.nsaName = attName) = none) :
    registerNonStdAtt attName nsAtts =
      (nsAtts.length, nsAtts ++ [newNonStdAtt attName nsAtts.length]) := by
  simp only [registerNonStdAtt, h, newNonStdAtt]

/-- A call does to the list in memory what it does to the list, and the
object it returns is the one at the position. -/
theorem RegisterNonStdAtt.holds {obj : Nat} (hcall : RegisterNonStdAtt attName st st' obj)
    (h : st.Holds ns nsAtts) :
    ∃ ns', st'.Holds ns' (registerNonStdAtt attName nsAtts).2 ∧ ns <+: ns' ∧
      (ns'.map Prod.snd)[(registerNonStdAtt attName nsAtts).1]? = some obj := by
  cases hcall with
  | found p n hfind hp =>
    have hsome := (h.find_iff _).mp hfind
    obtain ⟨i, hi, hat⟩ := Option.bind_eq_some_iff.mp hsome.symm
    obtain ⟨⟨p', o⟩, hn, rfl⟩ := Option.map_eq_some_iff.mp hat
    rw [registerNonStdAtt_found hi]
    obtain ⟨n', hp', hdata⟩ := h.ring.linked.exists_node (List.mem_of_getElem? hn)
    obtain rfl : n' = n := Option.some.inj (hp'.symm.trans hp)
    exact ⟨ns, h, List.prefix_rfl, by simp [hn, hdata]⟩
  | new p obj size head nodes hfind hsize hp hobj happend =>
    obtain rfl := (h.size_iff size).mp hsize
    have hnone : (nsAtts.findIdx? fun nsa => nsa.nsaName = attName) = none := by
      cases hidx : nsAtts.findIdx? fun nsa => nsa.nsaName = attName with
      | none => rfl
      | some i =>
        have hlt := (List.findIdx?_eq_some_iff_getElem.mp hidx).1
        have hsome := (h.find_iff _).mp hfind
        rw [hidx, Option.bind_some, List.getElem?_eq_getElem (h.length_eq ▸ hlt)] at hsome
        cases hsome
    rw [registerNonStdAtt_new hnone]
    obtain ⟨nodes', head', happend', hholds⟩ :=
      h.append hp hobj (newNonStdAtt attName nsAtts.length)
    obtain ⟨rfl, rfl⟩ := Prod.mk.inj (Option.some.inj (happend.symm.trans happend'))
    refine ⟨_, hholds, List.prefix_append _ _, ?_⟩
    rw [List.map_append, List.map_singleton, ← h.length_eq, ← List.length_map Prod.snd,
      List.getElem?_concat_length]

/-! ## A query's calls -/

/-- The calls build the list that `runCalls` says, and every pointer they
return is that of the entry at the position. -/
theorem StoreRun.holds {cs : List AttCall} {objs : List Nat} (hrun : StoreRun cs st objs st')
    (h : st.Holds ns nsAtts) :
    ∃ ns', st'.Holds ns' (runCalls cs nsAtts).2 ∧ ns <+: ns' ∧
      List.Forall₂ (fun obj node => (ns'.map Prod.snd)[node.1]? = some obj) objs
        (runCalls cs nsAtts).1 := by
  induction hrun generalizing ns nsAtts with
  | nil st => exact ⟨ns, h, List.prefix_rfl, .nil⟩
  | cons c cs st st₁ st₂ obj objs hcall hrest ih =>
    obtain ⟨ns₁, h₁, hpre₁, hat⟩ := hcall.holds h
    have hmark : (if c.numeric then st₁.setNumeric obj else st₁).Holds ns₁ (c.run nsAtts).2 := by
      unfold AttCall.run
      cases c.numeric with
      | false => exact h₁
      | true => exact h₁.setNumeric hat
    obtain ⟨ns₂, h₂, hpre₂, hall⟩ := ih hmark
    -- later calls only append
    obtain ⟨more, rfl⟩ := hpre₂
    have hlt := (List.getElem?_eq_some_iff.mp hat).1
    have hlater : ((ns₁ ++ more).map Prod.snd)[(registerNonStdAtt c.attName nsAtts).1]? = some obj := by
      rw [List.map_append, List.getElem?_append_left hlt, hat]
    exact ⟨_, h₂, hpre₁.trans (List.prefix_append _ _), .cons hlater hall⟩

/-! ## The invariant -/

/-- After normalization the list has each name once, an entry knows its
position, every node that names an attribute points to the entry of that
name, and every entry has such a node; and the circular list that the
calls build in memory, wherever it is put, is that list, with the nodes'
pointers those of their entries. Optimization keeps all that, and for
every record whose template is found the array of attributes covers every
access. -/
theorem nonStdAtts_invariant {sys : System} {purpose : Purpose} {t q : PNode}
    {nsAtts : List NonStdAtt} (ht : Parsed t)
    (h : evlQNormalizeTree sys purpose t [] = .ok (q, nsAtts)) :
    AttListInvariant nsAtts q ∧
      (∀ st objs st', st.head = none → StoreRun (attCalls t) st objs st' →
        ∃ ns, st'.Holds ns nsAtts ∧ EvlGetListSize st' nsAtts.length ∧
          List.Forall₂ (fun obj node => (ns.map Prod.snd)[node.1]? = some obj) objs q.nsaNodes) ∧
      (nsAtts ≠ [] → ∀ fb, ∃ q' ns, evlQOptimizeTree q (some ⟨nsAtts, fb⟩) = some (q', some ns) ∧
        AttListInvariant ns.nsAtts q' ∧ ns.nsAtts.map (·.nsaName) = nsAtts.map (·.nsaName) ∧
        TmplAttsCover ns q') := by
  have hinv := evlQNormalizeTree_invariant ht h
  have hcalls := evlQNormalizeTree_calls ht h
  refine ⟨hinv, fun st objs st' hnull hrun => ?_, fun hne fb => ?_⟩
  · obtain ⟨ns, hholds, -, hall⟩ := hrun.holds (AttStore.holds_nil hnull)
    rw [hcalls] at hholds hall
    exact ⟨ns, hholds, (hholds.size_iff _).mpr rfl, hall⟩
  · have hreg : Registered (NonStdAtts.mk nsAtts fb).nsAtts q := evlQNormalizeTree_registered ht h hne
    obtain ⟨q', hfrom, hopt⟩ := evlQOptimizeTree_eq hreg
    have hinv' := hinv.optimized hreg.normalized hfrom
    exact ⟨q', _, hopt, hinv', annotate_names q' nsAtts, hinv'.covers⟩

/-- `foo > 1 && foo = "x"`: one entry for both nodes. -/
theorem nonStdAtts_invariant_foo : ∃ q nsAtts,
      evlQNormalizeTree .bare ⟨true, false⟩
        (.op 0 .and (.op 1 .gt (.name 2 "foo") (.val 3 false 1))
          (.op 4 .eq (.name 5 "foo") (.string 6 "x"))) [] = .ok (q, nsAtts) ∧
      nsAtts.length = 1 ∧ AttListInvariant nsAtts q := by
  have hparsed : Parsed (.op 0 (.ofJunctor .and) (.op 1 .gt (.name 2 "foo") (.val 3 false 1))
      (.op 4 .eq (.name 5 "foo") (.string 6 "x"))) :=
    .junct .and 0 _ _ (.leaf _ (.comparison 1 2 .gt "foo" _ rfl (.val 3 false 1)))
      (.leaf _ (.comparison 4 5 .eq "foo" _ rfl (.string 6 "x")))
  have hnorm : evlQNormalizeTree .bare ⟨true, false⟩
      (.op 0 .and (.op 1 .gt (.name 2 "foo") (.val 3 false 1))
        (.op 4 .eq (.name 5 "foo") (.string 6 "x"))) []
      = .ok (.op 0 .and (.op 1 .gt (.nsaname 2 0 "foo") (.val 3 false 1))
        (.op 4 .eq (.nsaname 5 0 "foo") (.string 6 "x")),
        [⟨"foo", evlFuzzyMaybe, true, false, 0⟩]) := rfl
  exact ⟨_, _, hnorm, rfl, (nonStdAtts_invariant hparsed hnorm).1⟩

end Evlog.Query
