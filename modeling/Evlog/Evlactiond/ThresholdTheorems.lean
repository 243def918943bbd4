/-
Evlog.Evlactiond.ThresholdTheorems — a threshold is a sliding window.

`Holds` says what the heap has: the list of identities, and for each of
them its history. The functions on the lists are first described one by
one, what they find and what they make of a ring; then the handler does
to the histories in memory what `handle` does to a history for each
identity (`HandleNotification.holds`), and gets through wherever memory
is free (`exists_handleNotification`).

A history lacks what was pruned, but as time goes on that is out of the
window for good. So within any later window the history of an identity is
what has come in for it since its command was last executed
(`WindowInv`), and the command is executed just when that comes to
the threshold (`threshold_sliding_window`).
-/
import Evlog.Evlactiond.Threshold

namespace Evlog.Evlactiond

open Evlog.Lib Evlog.Lib.Machine

variable {h h' h₁ h₂ : Heap} {anyList head : Nat} {d : NodeData} {ns : List (Nat × NodeData)}

/-! ## The functions on the lists -/

theorem exists_removeNodes (hring : Ring h ((head, d) :: ns)) (drop : NodeData → Bool) :
    ∃ h', RemoveNodes h head drop h' ∧
      Changes h ((head, d) :: ns) h' ((head, d) :: ns.filter fun n => !drop n.2) := by
  obtain ⟨hat, -, hout⟩ := hring.head
  cases ns with
  | nil => exact ⟨h, .empty _ hat rfl, .refl hring⟩
  | cons n ns =>
    have hne : n.1 ≠ head := fun hne => hout (by simp [hne])
    have hring' : Ring h ([(head, d)] ++ n :: ns) := hring
    obtain ⟨h', hloop, hchanges⟩ := prune_returns drop hring' (by simp) (by simp)
    exact ⟨h', .loop _ h' hat hne hloop, hchanges⟩

variable {drop : NodeData → Bool}

theorem RemoveNodes.unique (hone : RemoveNodes h head drop h₁) (htwo : RemoveNodes h head drop h₂) :
    h₁ = h₂ := by
  cases hone with
  | empty n hn hself =>
    cases htwo with
    | empty => rfl
    | loop n' h' hn' hself' => exact absurd (Option.some.inj (hn.symm.trans hn') ▸ hself) hself'
  | loop n h₁ hn hself hloop =>
    cases htwo with
    | empty n' hn' hself' => exact absurd (Option.some.inj (hn'.symm.trans hn) ▸ hself') hself
    | loop n' h₂ hn' hself' hloop' =>
      obtain rfl := Option.some.inj (hn.symm.trans hn')
      exact Option.some.inj (hloop.unique hloop')

theorem RemoveNodes.changes (hremove : RemoveNodes h head drop h')
    (hring : Ring h ((head, d) :: ns)) :
    Changes h ((head, d) :: ns) h' ((head, d) :: ns.filter fun n => !drop n.2) := by
  obtain ⟨h'', hremove', hchanges⟩ := exists_removeNodes hring drop
  exact hremove.unique hremove' ▸ hchanges

/-- What is free stays free, but for what is taken up. -/
theorem none_of_changes {r r' : List (Nat × NodeData)} {s : Nat} (hchanges : Changes h r h' r')
    (hring : Ring h r) (hs : h s = none) (hs' : s ∉ r'.map Prod.fst) : h' s = none := by
  have hout : s ∉ r.map Prod.fst := fun hin => hring.ne_none hin hs
  rw [hchanges.frame s hout hs', hs]

theorem RemoveNodes.none {s : Nat} (hremove : RemoveNodes h head drop h')
    (hring : Ring h ((head, d) :: ns)) (hs : h s = none) : h' s = none := by
  have hout : s ∉ ((head, d) :: ns).map Prod.fst := fun hin => hring.ne_none hin hs
  refine none_of_changes (hremove.changes hring) hring hs fun hin => hout ?_
  exact List.map_subset _ (List.cons_subset_cons _ List.filter_sublist.subset) hin

theorem exceedThreshold_iff (hring : Ring h ((head, d) :: ns)) (thres : Int32) (b : Bool) :
    ExceedThreshold h head thres b ↔ b = decide (thres.toInt ≤ ns.length) := by
  obtain ⟨hat, hlink, hout⟩ := hring.head
  have hloop := forEach_returns (fun (k : Nat) (_ : NodeData) => k + 1) hlink hout 0
  have hlen : ns.foldl (fun (k : Nat) (n : Nat × NodeData) => k + 1) 0 = ns.length := by
    simp
  rw [hlen] at hloop
  constructor
  · rintro ⟨n, k, hn, hrun⟩
    obtain rfl := Option.some.inj (hat.symm.trans hn)
    rw [Option.some.inj (hrun.unique hloop)]
  · rintro rfl
    exact .mk _ _ hat hloop

/-! ## The lists in memory -/

/-- An `any_t` in memory: its node, its identity, the head of its history
and the nodes of that. -/
structure AnyAt where
  node : Nat
  ident : CString
  hist : Nat
  infos : List (Nat × NfyInfo)

/-- The node in `any_list`. -/
def AnyAt.anyNode (a : AnyAt) : Nat × NodeData := (a.node, .any a.ident a.hist)

def nfyNodes (infos : List (Nat × NfyInfo)) : List (Nat × NodeData) := infos.map fun i => (i.1, .nfy i.2)

def AnyAt.ring (a : AnyAt) : List (Nat × NodeData) := (a.hist, .null) :: nfyNodes a.infos

def anyRing (anyList : Nat) (anys : List AnyAt) : List (Nat × NodeData) :=
  (anyList, .null) :: anys.map AnyAt.anyNode

/-- The heap has `any_list` with these identities, each of them once, and
their histories. -/
structure Holds (h : Heap) (anyList : Nat) (anys : List AnyAt) : Prop where
  rings : Rings h (anyRing anyList anys :: anys.map AnyAt.ring)
  idents : (anys.map (·.ident)).Nodup

def historyOf (anys : List AnyAt) (ident : CString) : List NfyInfo :=
  match anys.find? fun a => a.ident = ident with
  | some a => a.infos.map Prod.snd
  | none => []

theorem holds_mkListNode (h : Heap) (anyList : Nat) : Holds (h.mkListNode anyList .null) anyList [] := by
  refine ⟨⟨fun r hr => ?_, by simp⟩, by simp⟩
  obtain rfl := List.mem_singleton.1 hr
  exact ring_mkListNode h anyList .null

variable {anys pre post : List AnyAt} {a : AnyAt} {ident : CString}

theorem findSome?_anyOfIdent (ident : CString) (anys : List AnyAt) :
    ((anys.map AnyAt.anyNode).findSome? fun n => anyOfIdent? ident n.1 n.2)
      = (anys.find? fun a => a.ident = ident).map fun a => some a.hist := by
  induction anys with
  | nil => rfl
  | cons a anys ih =>
    rw [List.map_cons, List.findSome?_cons, List.find?_cons, AnyAt.anyNode, anyOfIdent?]
    by_cases hident : a.ident = ident
    · simp [hident]
    · simp [hident, ih]

theorem Holds.lookUp_iff (hholds : Holds h anyList anys) (ident : CString) (r : Option Nat) :
    LookUpAnyIdent h anyList ident r ↔
      r = (anys.find? fun a => a.ident = ident).map (·.hist) := by
  obtain ⟨hat, hlink, hout⟩ := (hholds.rings.ring (anyRing anyList anys) List.mem_cons_self).head
  cases anys with
  | nil =>
    constructor
    · intro hlook
      cases hlook with
      | empty => rfl
      | found n hist hn hself => exact absurd (Option.some.inj (hat.symm.trans hn) ▸ rfl) hself
      | absent => rfl
    · rintro rfl
      exact .empty _ hat rfl
  | cons b bs =>
    have hne : b.node ≠ anyList := fun hne => hout (by simp [AnyAt.anyNode, hne])
    have hloop := doWhile_returns (seek (anyOfIdent? ident)) hlink (by simp)
      (fun hin => hout (List.mem_cons_of_mem _ hin)) ()
    rw [visitAll_seek, findSome?_anyOfIdent] at hloop
    constructor
    · intro hlook
      cases hlook with
      | empty n hn hself =>
        obtain rfl := Option.some.inj (hat.symm.trans hn)
        exact absurd hself hne
      | found n hist hn hself hrun =>
        obtain rfl := Option.some.inj (hat.symm.trans hn)
        have heq := hrun.unique hloop
        cases hfind : (b :: bs).find? fun a => a.ident = ident with
        | none => simp [hfind] at heq
        | some a => simpa [hfind] using heq
      | absent n hn hself hrun =>
        obtain rfl := Option.some.inj (hat.symm.trans hn)
        have heq := hrun.unique hloop
        cases hfind : (b :: bs).find? fun a => a.ident = ident with
        | none => rfl
        | some a => simp [hfind] at heq
    · rintro rfl
      cases hfind : (b :: bs).find? fun a => a.ident = ident with
      | none =>
        rw [hfind] at hloop
        exact .absent _ hat hne hloop
      | some a =>
        rw [hfind] at hloop
        exact .found _ a.hist hat hne hloop

variable {infos : List (Nat × NfyInfo)}

theorem Holds.change (hholds : Holds h anyList (pre ++ a :: post))
    (hchanges : Changes h a.ring h' { a with infos := infos }.ring) :
    Holds h' anyList (pre ++ { a with infos := infos } :: post) := by
  obtain ⟨hrings, hidents⟩ := hholds
  have hany : anyRing anyList (pre ++ { a with infos := infos } :: post)
      = anyRing anyList (pre ++ a :: post) := by
    simp [anyRing, AnyAt.anyNode]
  refine ⟨?_, by simpa using hidents⟩
  rw [hany]
  simp only [List.map_append, List.map_cons] at hrings ⊢
  rw [← List.cons_append] at hrings ⊢
  exact hrings.replace hchanges

theorem historyOf_self (hholds : Holds h anyList (pre ++ a :: post)) :
    historyOf (pre ++ a :: post) a.ident = a.infos.map Prod.snd := by
  have hidents := hholds.idents
  rw [List.map_append, List.map_cons, List.nodup_append] at hidents
  have hpre : pre.find? (fun b => b.ident = a.ident) = none := by
    rw [List.find?_eq_none]
    intro b hb heq
    exact hidents.2.2 b.ident (List.mem_map_of_mem hb) a.ident (by simp) (by simpa using heq)
  simp [historyOf, List.find?_append, hpre]

theorem historyOf_other (infos : List (Nat × NfyInfo)) {y : CString} (hy : y ≠ a.ident) :
    historyOf (pre ++ { a with infos := infos } :: post) y = historyOf (pre ++ a :: post) y := by
  have hne : ¬ a.ident = y := fun heq => hy heq.symm
  simp [historyOf, List.find?_append, hne]

/-- The history in question is there afterwards, with those of others as
they were. -/
structure Opened (anys : List AnyAt) (ident : CString) (hist : Nat) (pre : List AnyAt) (a : AnyAt)
    (post : List AnyAt) : Prop where
  ident_eq : a.ident = ident
  hist_eq : a.hist = hist
  infos_eq : a.infos.map Prod.snd = historyOf anys ident
  same : ∀ y, historyOf (pre ++ a :: post) y = historyOf anys y

theorem Holds.opened_old (hholds : Holds h anyList anys)
    (hfind : (anys.find? fun a => a.ident = ident) = some a) :
    ∃ pre post, anys = pre ++ a :: post ∧ Opened anys ident a.hist pre a post := by
  obtain ⟨pre, post, rfl⟩ := List.append_of_mem (List.mem_of_find?_eq_some hfind)
  have hident : a.ident = ident := by simpa using List.find?_some hfind
  refine ⟨pre, post, rfl, hident, rfl, ?_, fun y => rfl⟩
  rw [← hident, historyOf_self hholds]

variable {hist p now : Nat}

theorem Holds.opened_new (hholds : Holds h anyList anys)
    (hfind : (anys.find? fun a => a.ident = ident) = none) (hhist : h hist = none)
    (hp : h.mkListNode hist .null p = none) :
    ∃ h', (h.mkListNode hist .null).appendToList (some anyList) p (.any ident hist)
        = some (h', anyList) ∧
      Holds h' anyList (anys ++ [⟨p, ident, hist, []⟩]) ∧
      Opened anys ident hist anys ⟨p, ident, hist, []⟩ [] ∧
      ∀ r, h r = none → r ≠ hist → r ≠ p → h' r = none := by
  have hrings := hholds.rings.mkListNode hhist .null
  rw [List.cons_append] at hrings
  obtain ⟨h', happend, hchanges⟩ :=
    appendToList_some (hrings.ring _ List.mem_cons_self) hp (.any ident hist)
  have hrings' : Rings h' ([] ++ _ :: _) := Rings.replace hrings hchanges
  have hnone : ∀ y, historyOf (anys ++ [⟨p, ident, hist, []⟩]) y = historyOf anys y := by
    intro y
    unfold historyOf
    rw [List.find?_append]
    cases hy : anys.find? fun a => a.ident = y with
    | some b => rfl
    | none => by_cases hiy : ident = y <;> simp [hiy]
  refine ⟨h', happend, ⟨?_, ?_⟩, ⟨rfl, rfl, ?_, hnone⟩, fun r hr hrh hrp => ?_⟩
  · simpa [anyRing, AnyAt.anyNode, AnyAt.ring, nfyNodes] using hrings'
  · rw [List.map_append, List.map_singleton]
    refine List.nodup_append.2 ⟨hholds.idents, List.nodup_singleton _, fun x hx y hy => ?_⟩
    obtain ⟨b, hb, rfl⟩ := List.mem_map.1 hx
    obtain rfl := List.mem_singleton.1 hy
    simpa using List.find?_eq_none.1 hfind b hb
  · simp [historyOf, hfind]
  · have hat : h.mkListNode hist .null r = none := by
      rw [ListHeap.mkListNode, store_of_ne h _ hrh, hr]
    have hout : r ∉ (anyRing anyList anys).map Prod.fst := fun hin =>
      (hrings.ring _ List.mem_cons_self).ne_none hin hat
    rw [hchanges.frame r hout, hat]
    simpa [hrp, anyRing] using hout

theorem HistoryFor.opened (hany : HistoryFor h anyList ident h' hist)
    (hholds : Holds h anyList anys) :
    ∃ pre a post, Holds h' anyList (pre ++ a :: post) ∧ Opened anys ident hist pre a post := by
  cases hany with
  | old hist hlook =>
    obtain ⟨a, hfind, rfl⟩ := Option.map_eq_some_iff.1 ((hholds.lookUp_iff ident _).1 hlook).symm
    obtain ⟨pre, post, rfl, hopened⟩ := hholds.opened_old hfind
    exact ⟨pre, a, post, hholds, hopened⟩
  | new h' hist hlook hadd =>
    have hfind := Option.map_eq_none_iff.1 ((hholds.lookUp_iff ident _).1 hlook).symm
    obtain ⟨hist, p, h', hhist, hp, happend⟩ := hadd
    obtain ⟨h'', happend', hholds', hopened, -⟩ := hholds.opened_new hfind hhist hp
    obtain ⟨rfl, -⟩ := Prod.mk.inj (Option.some.inj (happend.symm.trans happend'))
    exact ⟨anys, _, [], hholds', hopened⟩

/-! ## One notification -/

abbrev Histories := CString → List NfyInfo

def inWindow (interval : UInt32) (now : Nat) (info : NfyInfo) : Bool :=
  decide ((now : Int) - info.timestamp ≤ interval.toNat)

/-- What a notification does to the histories, and whether the command is
executed: it joins the history of its identity, what is out of the window
goes, and a history that comes to the threshold starts anew. -/
def handle (act : NfyAction) (hs : Histories) (n : Notification) : Histories × Bool :=
  match act.identOf n with
  | none => (hs, false)
  | some x =>
    let window := (hs x ++ [n.info]).filter (inWindow act.hdr.interval n.now)
    let exceeded := decide (act.hdr.thres.toInt ≤ window.length)
    (Function.update hs x (if exceeded then [] else window), exceeded)

theorem not_expired (interval : UInt32) (now : Nat) (info : NfyInfo) :
    (!expired interval now (.nfy info)) = inWindow interval now info := by
  rw [expired, inWindow, ← decide_not]
  exact decide_eq_decide.2 not_lt

theorem filter_nfyNodes (drop : NodeData → Bool) (infos : List (Nat × NfyInfo)) :
    (nfyNodes infos).filter (fun n => !drop n.2) = nfyNodes (infos.filter fun i => !drop (.nfy i.2)) := by
  simp only [nfyNodes, List.filter_map]
  rfl

theorem Holds.ring (hholds : Holds h anyList (pre ++ a :: post)) :
    Ring h ((a.hist, .null) :: nfyNodes a.infos) :=
  hholds.rings.ring a.ring (List.mem_cons_of_mem _ (List.mem_map_of_mem (by simp)))

theorem Holds.removed (hholds : Holds h anyList (pre ++ a :: post))
    (hremove : RemoveNodes h a.hist drop h') :
    Holds h' anyList (pre ++ { a with infos := a.infos.filter fun i => !drop (.nfy i.2) } :: post) := by
  have hchanges := hremove.changes hholds.ring
  rw [filter_nfyNodes] at hchanges
  exact hholds.change hchanges

theorem Holds.added (hholds : Holds h anyList (pre ++ a :: post)) (hp : h p = none) (info : NfyInfo) :
    ∃ h', h.appendToList (some a.hist) p (.nfy info) = some (h', a.hist) ∧
      Holds h' anyList (pre ++ { a with infos := a.infos ++ [(p, info)] } :: post) ∧
      ∀ s, h s = none → s ≠ p → h' s = none := by
  obtain ⟨h', happend, hchanges⟩ := appendToList_some hholds.ring hp (.nfy info)
  refine ⟨h', happend, hholds.change ?_, fun s hs hsp => ?_⟩
  · simpa [AnyAt.ring, nfyNodes] using hchanges
  · have hout : s ∉ ((a.hist, NodeData.null) :: nfyNodes a.infos).map Prod.fst := fun hin =>
      hholds.ring.ne_none hin hs
    refine none_of_changes hchanges hholds.ring hs ?_
    rw [List.map_append, List.mem_append, not_or]
    exact ⟨hout, fun hin => hsp (List.mem_singleton.1 hin)⟩

def HoldsHistories (h : Heap) (anyList : Nat) (hs : Histories) : Prop :=
  ∃ anys, Holds h anyList anys ∧ ∀ x, historyOf anys x = hs x

theorem HoldsHistories.of_opened {hs : Histories} (hopened : Opened anys ident hist pre a post)
    (heq : ∀ x, historyOf anys x = hs x)
    (hholds : Holds h anyList (pre ++ { a with infos := infos } :: post)) :
    HoldsHistories h anyList (Function.update hs ident (infos.map Prod.snd)) := by
  refine ⟨_, hholds, fun x => ?_⟩
  by_cases hx : x = ident
  · subst hx
    rw [Function.update_self, ← hopened.ident_eq]
    exact historyOf_self hholds
  · have hxa : x ≠ a.ident := fun hxa => hx (hxa.trans hopened.ident_eq)
    rw [Function.update_of_ne hx, ← heq x, ← hopened.same x]
    exact historyOf_other infos hxa

variable {act : NfyAction} {n : Notification} {hs : Histories}

/-- The handler does to the lists what `handle` does to the histories. -/
theorem HandleNotification.holds {executed : Bool}
    (hstep : HandleNotification act anyList h n h' executed)
    (hthres : 0 < act.hdr.thres ∧ 0 < act.hdr.interval) (hholds : HoldsHistories h anyList hs) :
    HoldsHistories h' anyList (handle act hs n).1 ∧ executed = (handle act hs n).2 := by
  obtain ⟨anys, hholds, heq⟩ := hholds
  cases hstep with
  | plain hno => exact absurd hthres hno
  | noIdent _ hident => 
    simp only [handle, hident]
    exact ⟨⟨anys, hholds, heq⟩, trivial⟩
  | counted ident hist h₁ h₂ h₃ _ _ _ hident hany hadd hwindow hexceed hreset =>
    obtain ⟨pre, a, post, hholds₁, hopened⟩ := hany.opened hholds
    obtain rfl := hopened.hist_eq
    obtain ⟨p, h₂, hp, happend⟩ := hadd
    obtain ⟨h₂', happend', hholds₂, -⟩ := hholds₁.added hp n.info
    obtain ⟨rfl, -⟩ := Prod.mk.inj (Option.some.inj (happend.symm.trans happend'))
    have hholds₃ := hholds₂.removed hwindow
    -- what is left is the window
    have hleft : ((a.infos ++ [(p, n.info)]).filter fun i =>
        !expired act.hdr.interval n.now (.nfy i.2)).map Prod.snd
        = (hs ident ++ [n.info]).filter (inWindow act.hdr.interval n.now) := by
      have hinfos : (a.infos ++ [(p, n.info)]).map Prod.snd = hs ident ++ [n.info] := by
        rw [List.map_append, hopened.infos_eq, heq]
        rfl
      rw [← hinfos, List.filter_map]
      congr 1
      exact List.filter_congr fun i _ => not_expired ..
    have hexceeded := (exceedThreshold_iff hholds₃.ring act.hdr.thres executed).1 hexceed
    rw [nfyNodes, List.length_map, ← List.length_map Prod.snd, hleft] at hexceeded
    have hafter := HoldsHistories.of_opened hopened heq hholds₃
    rw [hleft] at hafter
    simp only [handle, hident, ← hexceeded, and_true]
    unfold ResetIf at hreset
    cases executed with
    | true =>
      have hempty := HoldsHistories.of_opened hopened heq (hholds₃.removed hreset)
      simpa using hempty
    | false =>
      obtain rfl : h' = h₃ := hreset
      exact hafter

/-- Wherever there is room for three nodes, a notification is handled, and
nothing else is taken. -/
theorem exists_handleNotification (hholds : HoldsHistories h anyList hs) (n : Notification)
    {q r : Nat} (hp : h p = none) (hq : h q = none) (hr : h r = none) (hpq : p ≠ q) (hpr : p ≠ r)
    (hqr : q ≠ r) : ∃ h' executed, HandleNotification act anyList h n h' executed ∧
      ∀ s, h s = none → s ≠ p → s ≠ q → s ≠ r → h' s = none := by
  by_cases hthres : 0 < act.hdr.thres ∧ 0 < act.hdr.interval
  swap
  · exact ⟨h, true, .plain hthres, fun s hs _ _ _ => hs⟩
  cases hident : act.identOf n with
  | none => exact ⟨h, false, .noIdent hthres hident, fun s hs _ _ _ => hs⟩
  | some ident =>
    obtain ⟨anys, hholds, -⟩ := hholds
    -- `r` is left for the node in the history
    obtain ⟨h₁, pre, a, post, hany, hholds₁, hfree₁⟩ : ∃ h₁ pre a post,
        HistoryFor h anyList ident h₁ a.hist ∧ Holds h₁ anyList (pre ++ a :: post) ∧
          ∀ s, h s = none → s ≠ p → s ≠ q → h₁ s = none := by
      cases hfind : anys.find? fun a => a.ident = ident with
      | some a =>
        obtain ⟨pre, post, rfl, hopened⟩ := hholds.opened_old hfind
        refine ⟨h, pre, a, post, .old _ ((hholds.lookUp_iff ident _).2 ?_), hholds, fun s hs _ _ => hs⟩
        rw [hfind]
        rfl
      | none =>
        have hq' : h.mkListNode p .null q = none := by
          rw [ListHeap.mkListNode, store_of_ne h _ hpq.symm, hq]
        obtain ⟨h₁, happend, hholds₁, hopened, hframe⟩ := hholds.opened_new hfind hp hq'
        refine ⟨h₁, anys, _, [], .new h₁ p ((hholds.lookUp_iff ident _).2 ?_)
          ⟨p, q, h₁, hp, hq', happend⟩, hholds₁, hframe⟩
        rw [hfind]
        rfl
    obtain ⟨h₂, happend, hholds₂, hfree₂⟩ := hholds₁.added (hfree₁ r hr hpr.symm hqr.symm) n.info
    obtain ⟨h₃, hwindow, -⟩ := exists_removeNodes hholds₂.ring (expired act.hdr.interval n.now)
    have hholds₃ := hholds₂.removed hwindow
    obtain ⟨exceeded, hexceed⟩ : ∃ b, ExceedThreshold h₃ a.hist act.hdr.thres b :=
      ⟨_, (exceedThreshold_iff hholds₃.ring act.hdr.thres _).2 rfl⟩
    obtain ⟨h₄, hreset, hfree₄⟩ : ∃ h₄, ResetIf exceeded h₃ a.hist h₄ ∧ ∀ s, h₃ s = none → h₄ s = none := by
      cases exceeded with
      | true =>
        obtain ⟨h₄, hremove, -⟩ := exists_removeNodes hholds₃.ring fun _ => true
        exact ⟨h₄, hremove, fun s hs => RemoveNodes.none hremove hholds₃.ring hs⟩
      | false => exact ⟨h₃, rfl, fun s hs => hs⟩
    refine ⟨h₄, exceeded, .counted ident a.hist h₁ h₂ h₃ h₄ exceeded hthres hident hany
      ⟨r, h₂, hfree₁ r hr hpr.symm hqr.symm, happend⟩ hwindow hexceed hreset, fun s hs hsp hsq hsr => ?_⟩
    exact hfree₄ s (RemoveNodes.none hwindow hholds₂.ring (hfree₂ s (hfree₁ s hs hsp hsq) hsr))

/-! ## Runs -/

/-- The notifications for an identity since its command was last executed,
the latest first. -/
def sinceExecution (act : NfyAction) (x : CString) (events : List (Notification × Bool)) :
    List Notification :=
  ((events.reverse.filter fun e => act.identOf e.1 = some x).takeWhile fun e => !e.2).map Prod.fst

def readings (events : List (Notification × Bool)) : List Nat :=
  events.flatMap fun e => [e.1.stamp, e.1.now]

theorem readings_snoc (events : List (Notification × Bool)) (n : Notification) (executed : Bool) :
    readings (events ++ [(n, executed)]) = readings events ++ [n.stamp, n.now] := by
  simp [readings]

theorem sinceExecution_snoc (act : NfyAction) (x : CString) (events : List (Notification × Bool))
    (n : Notification) (executed : Bool) :
    sinceExecution act x (events ++ [(n, executed)]) =
      if act.identOf n = some x then (if executed then [] else n :: sinceExecution act x events)
      else sinceExecution act x events := by
  unfold sinceExecution
  rw [List.reverse_append, List.reverse_singleton, List.singleton_append, List.filter_cons]
  by_cases hx : act.identOf n = some x
  · cases executed <;> simp [hx]
  · simp [hx]

theorem inWindow_of_le {interval : UInt32} {now' : Nat} (hle : now ≤ now') {info : NfyInfo}
    (hin : inWindow interval now' info = true) : inWindow interval now info = true := by
  simp only [inWindow, decide_eq_true_eq] at hin ⊢
  omega

/-- Within the window at a later time, the histories are what has come in
since the last execution. -/
def WindowInv (act : NfyAction) (events : List (Notification × Bool)) (hs : Histories) : Prop :=
  ∀ x now, (∀ t ∈ readings events, t ≤ now) →
    (hs x).filter (inWindow act.hdr.interval now)
      = ((sinceExecution act x events).reverse.map Notification.info).filter
          (inWindow act.hdr.interval now)

theorem WindowInv.window {events : List (Notification × Bool)} (hinv : WindowInv act events hs)
    (x : CString) (hnow : ∀ t ∈ readings events, t ≤ now) :
    (hs x ++ [n.info]).filter (inWindow act.hdr.interval now)
      = ((n :: sinceExecution act x events).reverse.map Notification.info).filter
          (inWindow act.hdr.interval now) := by
  rw [List.filter_append, hinv x now hnow, List.reverse_cons, List.map_append, List.filter_append]
  rfl

theorem WindowInv.handle {events : List (Notification × Bool)} (hinv : WindowInv act events hs) :
    WindowInv act (events ++ [(n, (handle act hs n).2)]) (handle act hs n).1 := by
  intro x now hnow
  rw [readings_snoc] at hnow
  have hbefore : ∀ t ∈ readings events, t ≤ now := fun t ht => hnow t (List.mem_append_left _ ht)
  have hn : n.now ≤ now := hnow n.now (by simp)
  rw [sinceExecution_snoc]
  unfold Evlactiond.handle
  cases hident : act.identOf n with
  | none => simpa using hinv x now hbefore
  | some y =>
    by_cases hxy : x = y
    · subst hxy
      simp only [if_true, Function.update_self]
      split
      · rfl
      · rw [List.filter_filter]
        -- what was pruned is out of the window for good
        have hkeep : ∀ info ∈ hs x ++ [n.info],
            (inWindow act.hdr.interval now info && inWindow act.hdr.interval n.now info)
              = inWindow act.hdr.interval now info := by
          intro info _
          cases hin : inWindow act.hdr.interval now info with
          | false => rfl
          | true => exact inWindow_of_le hn hin
        rw [List.filter_congr hkeep]
        exact hinv.window x hbefore
    · have hyx : ¬ some y = some x := fun heq => hxy (Option.some.inj heq).symm
      simp only [hyx, if_false, Function.update_of_ne hxy]
      exact hinv x now hbefore

variable {h₀ : Heap} {events : List (Notification × Bool)}

theorem windowInv_nil (act : NfyAction) : WindowInv act [] fun _ => [] := by
  intro x now _
  rfl

theorem NotificationRun.holds (hrun : NotificationRun act anyList h₀ events h)
    (hthres : 0 < act.hdr.thres ∧ 0 < act.hdr.interval) (hstart : Holds h₀ anyList []) :
    ∃ hs, HoldsHistories h anyList hs ∧ WindowInv act events hs := by
  induction hrun with
  | nil => exact ⟨fun _ => [], ⟨[], hstart, fun _ => rfl⟩, windowInv_nil act⟩
  | snoc h₁ h₂ events n executed hrun hstep ih =>
    obtain ⟨hs, hholds, hinv⟩ := ih
    obtain ⟨hholds', rfl⟩ := hstep.holds hthres hholds
    exact ⟨_, hholds', hinv.handle⟩

theorem NotificationRun.split {before after : List (Notification × Bool)} {executed : Bool}
    (hrun : NotificationRun act anyList h₀ (before ++ (n, executed) :: after) h) :
    ∃ h₁ h₂, NotificationRun act anyList h₀ before h₁ ∧ HandleNotification act anyList h₁ n h₂ executed := by
  induction after using List.reverseRecOn generalizing h with
  | nil =>
    generalize hev : before ++ [(n, executed)] = events at hrun
    cases hrun with
    | nil => simp at hev
    | snoc h₁ _ events' n' executed' hrun hstep =>
      obtain ⟨rfl, heq⟩ := List.append_inj' hev rfl
      obtain ⟨rfl, rfl⟩ := Prod.mk.inj (List.singleton_inj.1 heq)
      exact ⟨h₁, h, hrun, hstep⟩
  | append_singleton after e ih =>
    rw [← List.cons_append, ← List.append_assoc] at hrun
    generalize hev : before ++ (n, executed) :: after ++ [e] = events at hrun
    cases hrun with
    | nil => simp at hev
    | snoc h₁ _ events' n' executed' hrun hstep =>
      obtain ⟨rfl, -⟩ := List.append_inj' hev rfl
      exact ih hrun

/-- Any notifications are handled one after the other, where memory is free
from some address on. -/
theorem exists_notificationRun (hthres : 0 < act.hdr.thres ∧ 0 < act.hdr.interval)
    (hstart : Holds h₀ anyList []) {bound : Nat} (hfree : ∀ p, bound ≤ p → h₀ p = none)
    (ns : List Notification) : ∃ events h bound', NotificationRun act anyList h₀ events h ∧
      events.map Prod.fst = ns ∧ ∀ p, bound' ≤ p → h p = none := by
  induction ns using List.reverseRecOn with
  | nil => exact ⟨[], h₀, bound, .nil _, rfl, hfree⟩
  | append_singleton ns n ih =>
    obtain ⟨events, h, b, hrun, rfl, hb⟩ := ih
    obtain ⟨hs, hholds, -⟩ := hrun.holds hthres hstart
    obtain ⟨h', executed, hstep, hfree'⟩ := exists_handleNotification hholds n
      (hb b le_rfl) (hb (b + 1) (by omega)) (hb (b + 2) (by omega)) (by omega) (by omega) (by omega)
    refine ⟨events ++ [(n, executed)], h', b + 3, .snoc _ _ _ _ _ _ hrun hstep, by simp, fun p hp => ?_⟩
    exact hfree' p (hb p (by omega)) (by omega) (by omega) (by omega)

/-! ## The window -/

/-- How many of the notifications for the identity that came in since its
last execution, `n` among them, have times from `interval` before `n` up
to `n`. -/
def notificationsInWindow (act : NfyAction) (x : CString) (before : List (Notification × Bool))
    (n : Notification) : Nat :=
  ((n :: sinceExecution act x before).filter fun m =>
    decide ((n.now : Int) - act.hdr.interval.toNat ≤ m.stamp ∧ m.stamp ≤ n.now)).length

theorem stamp_mem_readings {x : CString} {m : Notification} (hm : m ∈ sinceExecution act x events) :
    m.stamp ∈ readings events := by
  obtain ⟨e, he, rfl⟩ := List.mem_map.1 hm
  have hmem : e ∈ events := by
    simpa using (List.filter_sublist.subset ((List.takeWhile_sublist _).subset he))
  exact List.mem_flatMap.2 ⟨e, hmem, by simp⟩

/-- The history at the time of a notification is the window. -/
theorem WindowInv.length_eq (hinv : WindowInv act events hs) (x : CString)
    (hbefore : ∀ t ∈ readings events, t ≤ n.now) (hn : n.stamp ≤ n.now) :
    ((hs x ++ [n.info]).filter (inWindow act.hdr.interval n.now)).length
      = notificationsInWindow act x events n := by
  rw [hinv.window x hbefore, List.map_reverse, List.filter_reverse, List.length_reverse, List.filter_map,
    List.length_map, notificationsInWindow]
  congr 1
  refine List.filter_congr fun m hm => decide_eq_decide.2 ?_
  have hle : m.stamp ≤ n.now := by
    rcases List.mem_cons.1 hm with rfl | hm
    · exact hn
    · exact hbefore _ (stamp_mem_readings hm)
  show (n.now : Int) - m.stamp ≤ act.hdr.interval.toNat ↔ _
  omega

/-- For an action with a threshold and an interval, a list of identities
that starts empty, and any notifications whose times do not go back: the
command is executed at a notification just when enough notifications for
its identity, itself included, have come in within the interval and since
the last execution for that identity. The histories of other identities
are not touched by it, and an execution empties that of its own. And
wherever there is room for three nodes, a further notification is
handled. -/
theorem threshold_sliding_window (hthres : 0 < act.hdr.thres ∧ 0 < act.hdr.interval)
    (hstart : Holds h₀ anyList []) (hrun : NotificationRun act anyList h₀ events h)
    (htimes : (readings events).Pairwise (· ≤ ·)) :
    (∀ before n executed after, events = before ++ (n, executed) :: after →
      (executed = true ↔
        ∃ x, act.identOf n = some x ∧ act.hdr.thres.toInt ≤ notificationsInWindow act x before n) ∧
      ∃ h₁ h₂ hs₁ hs₂, NotificationRun act anyList h₀ before h₁ ∧
        HandleNotification act anyList h₁ n h₂ executed ∧
        HoldsHistories h₁ anyList hs₁ ∧ HoldsHistories h₂ anyList hs₂ ∧
        (∀ y, act.identOf n ≠ some y → hs₂ y = hs₁ y) ∧
        ∀ x, act.identOf n = some x → executed = true → hs₂ x = []) ∧
      ∀ n p q r, h p = none → h q = none → h r = none → p ≠ q → p ≠ r → q ≠ r →
        ∃ h' executed, HandleNotification act anyList h n h' executed := by
  refine ⟨fun before n executed after hev => ?_, fun n p q r hp hq hr hpq hpr hqr => ?_⟩
  · subst hev
    obtain ⟨h₁, h₂, hbefore, hstep⟩ := hrun.split
    obtain ⟨hs, hholds, hinv⟩ := hbefore.holds hthres hstart
    obtain ⟨hholds', rfl⟩ := hstep.holds hthres hholds
    have hreadings : readings (before ++ (n, (handle act hs n).2) :: after)
        = readings before ++ n.stamp :: n.now :: readings after := by
      simp [readings]
    rw [hreadings, List.pairwise_append, List.pairwise_cons, List.pairwise_cons] at htimes
    obtain ⟨-, ⟨hstamp, -⟩, hcross⟩ := htimes
    have hnow : ∀ t ∈ readings before, t ≤ n.now := fun t ht => hcross t ht n.now (by simp)
    have hn : n.stamp ≤ n.now := hstamp n.now (by simp)
    refine ⟨?_, h₁, h₂, hs, _, hbefore, hstep, hholds, hholds', fun y hy => ?_, fun x hx hexec => ?_⟩
    · unfold handle
      cases hident : act.identOf n with
      | none => simp
      | some x => simp only [Option.some.injEq, exists_eq_left', hinv.length_eq x hnow hn, decide_eq_true_eq]
    · unfold handle
      cases hident : act.identOf n with
      | none => rfl
      | some x =>
        have hyx : y ≠ x := fun heq => hy (heq ▸ hident)
        exact Function.update_of_ne hyx ..
    · simp only [handle, hx] at hexec ⊢
      rw [Function.update_self, if_pos hexec]
  · obtain ⟨hs, hholds, -⟩ := hrun.holds hthres hstart
    obtain ⟨h', executed, hstep, -⟩ := exists_handleNotification hholds n hp hq hr hpq hpr hqr
    exact ⟨h', executed, hstep⟩

def identA : CString := ⟨[0x78], by decide⟩

def identB : CString := ⟨[0x79], by decide⟩

/-- Execute at the second notification within ten seconds that has the same `a`. -/
def twiceInTen : NfyAction where
  hdr :=
    { cmdType := nfyCmdAdd, nfyId := 1, uid := 0, gid := 0, flags := 0, quStrLen := 0, actionCmdLen := 0
      nameLen := 0, anyStrLen := 0, thres := 2, interval := 10, queryFlags := 0 }
  quStr := ⟨[], CString.noNul_nil⟩
  cmd := ⟨[], CString.noNul_nil⟩
  name := ⟨[], CString.noNul_nil⟩
  anyStr := identA
  origin := ⟨0, 0⟩

/-- One notification of another identity comes in between. -/
theorem threshold_sliding_window_second :
    ∃ h, NotificationRun twiceInTen 0 (ListHeap.mkListNode (fun _ => none) 0 .null)
      [(⟨7, some identA, 100, 100⟩, false), (⟨8, some identB, 101, 102⟩, false),
        (⟨9, some identA, 105, 110⟩, true)] h := by
  have hthres : 0 < twiceInTen.hdr.thres ∧ 0 < twiceInTen.hdr.interval := by decide
  have hstart := holds_mkListNode (fun _ => none) 0
  have hfree : ∀ p, 1 ≤ p → ListHeap.mkListNode (fun _ => none) 0 NodeData.null p = none :=
    fun p hp => store_of_ne _ _ (by omega)
  obtain ⟨events, h, -, hrun, hevents, -⟩ := exists_notificationRun hthres hstart hfree
    [⟨7, some identA, 100, 100⟩, ⟨8, some identB, 101, 102⟩, ⟨9, some identA, 105, 110⟩]
  obtain ⟨⟨-, e₁⟩, l₁, rfl, rfl, hl₁⟩ := List.map_eq_cons_iff.1 hevents
  obtain ⟨⟨-, e₂⟩, l₂, rfl, rfl, hl₂⟩ := List.map_eq_cons_iff.1 hl₁
  obtain ⟨⟨-, e₃⟩, l₃, rfl, rfl, hl₃⟩ := List.map_eq_cons_iff.1 hl₂
  obtain rfl := List.map_eq_nil_iff.1 hl₃
  have hwindow := (threshold_sliding_window hthres hstart hrun (by simp [readings])).1
  have h₁ : e₁ = false := by
    refine Bool.eq_false_iff.2 fun he => ?_
    obtain ⟨x, hx, hcount⟩ := (hwindow [] _ _ _ rfl).1.1 he
    obtain rfl := Option.some.inj hx
    exact absurd hcount (by decide)
  subst h₁
  have h₂ : e₂ = false := by
    refine Bool.eq_false_iff.2 fun he => ?_
    obtain ⟨x, hx, hcount⟩ := (hwindow [_] _ _ _ rfl).1.1 he
    obtain rfl := Option.some.inj hx
    exact absurd hcount (by decide)
  subst h₂
  have h₃ : e₃ = true := (hwindow [_, _] _ _ _ rfl).1.2 ⟨identA, rfl, by decide⟩
  subst h₃
  exact ⟨h, hrun⟩

end Evlog.Evlactiond
