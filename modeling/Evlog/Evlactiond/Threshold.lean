/-
Evlog.Evlactiond.Threshold — when an action with a threshold is executed.

Such an action has `any_list`: a circular list of identities, each with
its own circular list of the notifications that came in for it. A
notification is put at the end of its identity's history; what is older
than the interval is taken out of it, and if the rest comes to the
threshold the history is emptied and the command executed. The head node
of each of these lists has no data and always stays.

All nodes are in one heap. A function is a relation between the heaps
before and after it: a loop returns or does not (`Returns`), and `malloc`
may put a node at any free address. The history is extended at one reading
of the clock and pruned at a later one, so a notification has two.
-/
import Evlog.Lib.CircularList
import Evlog.Evlactiond.Actiond

namespace Evlog.Evlactiond

open Evlog.Lib Evlog.Lib.Machine

/-- `nfy_info_t`. -/
structure NfyInfo where
  recid : Int32
  timestamp : Nat
  deriving DecidableEq, Repr

/-- What a node points to: nothing (a head node), an `any_t` with its
identity and the head of its history, or an `nfy_info_t`. -/
inductive NodeData where
  | null
  | any (ident : CString) (hist : Nat)
  | nfy (info : NfyInfo)
  deriving DecidableEq

abbrev Heap := ListHeap NodeData

/-! ## The lists -/

/-- The `any_t` that `lookUpAnyIdent` returns at a node, if it does; data
of another kind is the inner `none`. -/
def anyOfIdent? (ident : CString) (_ : Nat) : NodeData → Option (Option Nat)
  | .any i hist => if i = ident then some (some hist) else none
  | _ => some none

/-- `lookUpAnyIdent`; `none` is NULL. -/
inductive LookUpAnyIdent (h : Heap) (anyList : Nat) (ident : CString) : Option Nat → Prop
  | empty (n : ListNode NodeData) (hn : h anyList = some n) (hself : n.next = anyList) :
      LookUpAnyIdent h anyList ident none
  | found (n : ListNode NodeData) (hist : Nat) (hn : h anyList = some n) (hself : n.next ≠ anyList)
      (hloop : Returns (doWhileStep h anyList (seek (anyOfIdent? ident))) (n.next, ())
        (some (.inr (some hist)))) : LookUpAnyIdent h anyList ident (some hist)
  | absent (n : ListNode NodeData) (hn : h anyList = some n) (hself : n.next ≠ anyList)
      (hloop : Returns (doWhileStep h anyList (seek (anyOfIdent? ident))) (n.next, ())
        (some (.inl ()))) : LookUpAnyIdent h anyList ident none

/-- `addNewAny`: a history of its own, and a node for the identity. -/
inductive AddNewAny (h : Heap) (anyList : Nat) (ident : CString) : Heap → Nat → Prop
  | mk (hist p : Nat) (h' : Heap) (hhist : h hist = none) (hp : h.mkListNode hist .null p = none)
      (happend : (h.mkListNode hist .null).appendToList (some anyList) p (.any ident hist)
        = some (h', anyList)) : AddNewAny h anyList ident h' hist

inductive AddNfyHistory (h : Heap) (hist : Nat) (info : NfyInfo) : Heap → Prop
  | mk (p : Nat) (h' : Heap) (hp : h p = none)
      (happend : h.appendToList (some hist) p (.nfy info) = some (h', hist)) :
      AddNfyHistory h hist info h'

/-- `(now - nif->timestamp) > interval`; the difference is a `long`, and so
is the interval then. -/
def expired (interval : UInt32) (now : Nat) : NodeData → Bool
  | .nfy info => decide ((now : Int) - info.timestamp > interval.toNat)
  | _ => false

/-- A loop over all nodes but the head that removes some of them, unless
there are none. -/
inductive RemoveNodes (h : Heap) (head : Nat) (drop : NodeData → Bool) : Heap → Prop
  | empty (n : ListNode NodeData) (hn : h head = some n) (hself : n.next = head) :
      RemoveNodes h head drop h
  | loop (n : ListNode NodeData) (h' : Heap) (hn : h head = some n) (hself : n.next ≠ head)
      (hloop : Returns (pruneStep head drop) (h, n.next) (some h')) : RemoveNodes h head drop h'

def BuildHistoryWindow (h : Heap) (hist : Nat) (interval : UInt32) (now : Nat) (h' : Heap) : Prop :=
  RemoveNodes h hist (expired interval now) h'

/-- `resetNfyHistoryList`, which is `removeAllNodes`. -/
def ResetNfyHistoryList (h : Heap) (hist : Nat) (h' : Heap) : Prop :=
  RemoveNodes h hist (fun _ => true) h'

inductive ExceedThreshold (h : Heap) (hist : Nat) (thres : Int32) : Bool → Prop
  | mk (n : ListNode NodeData) (k : Nat) (hn : h hist = some n)
      (hloop : Returns (forEachStep h hist fun k _ => k + 1) (n.next, 0) (some k)) :
      ExceedThreshold h hist thres (decide (thres.toInt ≤ k))

/-! ## The handler -/

/-- A notification of a match. `ident` is what `getRec` and
`getAnyIdentFromLog` come to, if they succeed; `stamp` and `now` are the
readings of the clock in `addNfyHistory` and `buildHistoryWindow`. -/
structure Notification where
  recid : Int32
  ident : Option CString
  stamp : Nat
  now : Nat

def NfyAction.identOf (act : NfyAction) (n : Notification) : Option CString :=
  if act.anyStr = noAnyStr then some noAnyStr else n.ident

def Notification.info (n : Notification) : NfyInfo := ⟨n.recid, n.stamp⟩

inductive HistoryFor (h : Heap) (anyList : Nat) (ident : CString) : Heap → Nat → Prop
  | old (hist : Nat) (hlook : LookUpAnyIdent h anyList ident (some hist)) :
      HistoryFor h anyList ident h hist
  | new (h' : Heap) (hist : Nat) (hlook : LookUpAnyIdent h anyList ident none)
      (hadd : AddNewAny h anyList ident h' hist) : HistoryFor h anyList ident h' hist

/-- `if (exceedThreshold(...)) resetNfyHistoryList(...)`. -/
def ResetIf (exceeded : Bool) (h : Heap) (hist : Nat) (h' : Heap) : Prop :=
  if exceeded then ResetNfyHistoryList h hist h' else h' = h

/-- `actions_handler` from the action it has found on: the heap after it,
and whether the command is executed. -/
inductive HandleNotification (act : NfyAction) (anyList : Nat) (h : Heap) (n : Notification) :
    Heap → Bool → Prop
  | plain (hthres : ¬ (0 < act.hdr.thres ∧ 0 < act.hdr.interval)) :
      HandleNotification act anyList h n h true
  | noIdent (hthres : 0 < act.hdr.thres ∧ 0 < act.hdr.interval) (hident : act.identOf n = none) :
      HandleNotification act anyList h n h false
  | counted (ident : CString) (hist : Nat) (h₁ h₂ h₃ h₄ : Heap) (exceeded : Bool)
      (hthres : 0 < act.hdr.thres ∧ 0 < act.hdr.interval) (hident : act.identOf n = some ident)
      (hany : HistoryFor h anyList ident h₁ hist) (hadd : AddNfyHistory h₁ hist n.info h₂)
      (hwindow : BuildHistoryWindow h₂ hist act.hdr.interval n.now h₃)
      (hexceed : ExceedThreshold h₃ hist act.hdr.thres exceeded)
      (hreset : ResetIf exceeded h₃ hist h₄) :
      HandleNotification act anyList h n h₄ exceeded

/-- Notifications one after the other, with what was executed. -/
inductive NotificationRun (act : NfyAction) (anyList : Nat) :
    Heap → List (Notification × Bool) → Heap → Prop
  | nil (h : Heap) : NotificationRun act anyList h [] h
  | snoc (h h₁ h₂ : Heap) (events : List (Notification × Bool)) (n : Notification) (executed : Bool)
      (hrun : NotificationRun act anyList h events h₁)
      (hstep : HandleNotification act anyList h₁ n h₂ executed) :
      NotificationRun act anyList h (events ++ [(n, executed)]) h₂

end Evlog.Evlactiond
