/-
Evlog.Evlogd.SelectTheorems — whom evlogd hears.

Whatever happens, each descriptor evlogd waits on is held in one role
(`Role`), is open and is in `all_sds`, and no connected client has an
index above `maxci`. That none of them is above `maxsd` does not always
hold: `closeClientSocket` computes a new `maxsd` from the other clients and
the notification daemon alone. `selectOk_iff` says which closings do harm.
-/
import Evlog.Evlogd.Parent

namespace Evlog.Evlogd.Socket

open Evlog.Lib Evlog.Posix

/-! ## The table of clients -/

section Table

variable {clients : List Client} {cl : Client} {uid : UInt32} {sc : Scan} {i k : Nat}

theorem taken_iff : cl.taken = true ↔ cl.sd ≠ -1 := by
  simp [Client.taken, clientSlotAvailable]

/-- What the loop over `clients[]` has found when it has come past `seen`. -/
structure Scanned (uid : UInt32) (seen : List Client) (sc : Scan) : Prop where
  userconns : sc.userconns = seen.countP fun cl => cl.uid = uid
  empty : match sc.empty with
    | some k => k ≤ sc.maxci ∧ ∃ cl, seen[k]? = some cl ∧ cl.taken = false
    | none => ∀ cl ∈ seen, cl.taken = true
  maxci : ∀ (i : Nat) cl, seen[i]? = some cl → cl.taken = true → i ≤ sc.maxci
  maxci_le : sc.maxci ≤ seen.length

theorem Scanned.client {seen : List Client} (h : Scanned uid seen sc) (cl : Client) :
    Scanned uid (seen ++ [cl]) (scanClient uid sc seen.length cl) := by
  obtain ⟨hconns, hempty, hmaxci, hle⟩ := h
  have hlast : ∀ i cl', (seen ++ [cl])[i]? = some cl' →
      seen[i]? = some cl' ∨ (i = seen.length ∧ cl' = cl) := by
    intro i cl' hi
    rw [List.getElem?_append] at hi
    split at hi
    · exact .inl hi
    · rename_i hge
      have hlen := (List.getElem?_eq_some_iff.1 hi).1
      simp only [List.length_singleton] at hlen
      have hi0 : i - seen.length = 0 := by omega
      rw [hi0] at hi
      exact .inr ⟨by omega, by simpa using hi.symm⟩
  refine ⟨?_, ?_, ?_, ?_⟩
  · simp only [scanClient, List.countP_append, List.countP_singleton, hconns]
    split <;> simp_all
  · simp only [scanClient]
    cases htaken : cl.taken with
    | true =>
      simp only [if_true]
      split at hempty
      · rename_i k hk
        obtain ⟨hkle, cl', hcl', hfree⟩ := hempty
        have hlen := (List.getElem?_eq_some_iff.1 hcl').1
        exact ⟨by omega, cl', by rw [List.getElem?_append_left hlen, hcl'], hfree⟩
      · rename_i hk
        intro cl' hcl'
        rcases List.mem_append.1 hcl' with hcl' | hcl'
        · exact hempty cl' hcl'
        · obtain rfl := List.mem_singleton.1 hcl'
          exact htaken
    | false =>
      simp only [Bool.false_eq_true, if_false]
      split at hempty
      · rename_i k hk
        simp only [hk, reduceCtorEq, if_false]
        obtain ⟨hkle, cl', hcl', hfree⟩ := hempty
        have hlen := (List.getElem?_eq_some_iff.1 hcl').1
        exact ⟨hkle, cl', by rw [List.getElem?_append_left hlen, hcl'], hfree⟩
      · rename_i hk
        simp only [hk, if_true]
        exact ⟨le_rfl, cl, by simp, htaken⟩
  · intro i cl' hi htaken
    simp only [scanClient]
    rcases hlast i cl' hi with hi | ⟨rfl, rfl⟩
    · have hlen := (List.getElem?_eq_some_iff.1 hi).1
      have := hmaxci i cl' hi htaken
      split
      · omega
      · split <;> omega
    · simp [htaken]
  · simp only [scanClient, List.length_append, List.length_singleton]
    split
    · omega
    · split <;> omega

theorem scanned_scanClients (uid : UInt32) (clients : List Client) :
    Scanned uid clients (scanClients uid clients 0 ⟨none, 0, 0⟩) := by
  have hrun : ∀ (rest seen : List Client) (sc : Scan), Scanned uid seen sc →
      Scanned uid (seen ++ rest) (scanClients uid rest seen.length sc) := by
    intro rest
    induction rest with
    | nil =>
      intro seen sc h
      simpa [scanClients] using h
    | cons cl rest ih =>
      intro seen sc h
      have h' := ih (seen ++ [cl]) _ (h.client cl)
      rwa [List.append_assoc, List.length_append] at h'
  exact hrun clients [] _ ⟨rfl, by simp, by simp, le_rfl⟩

end Table

/-! ## What holds of every state -/

/-- What evlogd has a descriptor for. -/
inductive Role where
  | listen
  | conf
  | notify
  | confSocket
  | client (i : Nat)
  | plugin (sd : Int)
  deriving DecidableEq

def Client.descriptor (cl : Client) : Option Int := if cl.taken then some cl.sd else none

namespace Parent

def holds (s : Parent) : Role → Option Int
  | .listen => some s.listenSd
  | .conf => some s.confSd
  | .notify => if 0 < s.notifySd then some s.notifySd else none
  | .confSocket => if 0 < s.confSocket then some s.confSocket else none
  | .client i => s.clients[i]?.bind Client.descriptor
  | .plugin sd => if sd ∈ s.plugged then some sd else none

/-- What evlogd knows of its descriptors. The credentials in a slot are
those that the kernel has for its descriptor. -/
structure Inv (s : Parent) : Prop where
  held : s.Held s.holds
  index : ∀ (i : Nat) cl, s.clients[i]? = some cl → cl.taken = true → (i : Int) ≤ s.maxci
  peer : ∀ cl ∈ s.clients, cl.taken = true → s.peer cl.sd = ⟨cl.pid, cl.uid⟩

variable {lim : Limits} {s : Parent} {i : Nat} {cl : Client}

theorem holds_client (hcl : s.clients[i]? = some cl) (htaken : cl.taken = true) :
    s.holds (.client i) = some cl.sd := by
  simp [holds, hcl, Client.descriptor, htaken]

theorem holds_set {clients : List Client} {new : Client} (hi : i < clients.length)
    (hclients : s.clients = clients.set i new) :
    ∀ j, s.holds (.client j) = if j = i then new.descriptor else clients[j]?.bind Client.descriptor := by
  intro j
  rw [holds, hclients]
  exact ClientTable.bind_set _ new hi j

/-! ### Closing a connection -/

def clientsWithout (s : Parent) (i : Nat) (cl : Client) : List Client :=
  s.clients.set i { cl with sd := clientSlotAvailable }

/-- `maxsd` when the client has gone. -/
def maxsdWithout (s : Parent) (i : Nat) (cl : Client) : Int :=
  ClientTable.boundAfter Client.sd clientSlotAvailable s.maxsd s.notifySd cl.sd (s.clientsWithout i cl)

theorem closeClientSocket_eq (s : Parent) (i : Nat) (cl : Client) : s.closeClientSocket i cl =
      { s with
        toSelectSet := s.remove cl.sd (s.maxsdWithout i cl)
        clients := s.clientsWithout i cl
        rmtdpid := if cl.pid = s.rmtdpid then 0 else s.rmtdpid
        maxci := if s.maxsd = s.notifySd then s.maxci else getMaxClientIndex (s.clientsWithout i cl) } := by
  unfold closeClientSocket maxsdWithout ClientTable.boundAfter clientsWithout
  by_cases hmax : s.maxsd = s.notifySd
  · simp only [hmax, if_true]
  · simp only [hmax, if_false]
    rfl

/-- The slots that are in use without the client were so before. -/
theorem clientsWithout_taken {cl' : Client} {j : Nat} (hj : (s.clientsWithout i cl)[j]? = some cl')
    (htaken : cl'.taken = true) : j ≠ i ∧ s.clients[j]? = some cl' :=
  ClientTable.taken_of_freed rfl hj htaken

theorem inv_closeClientSocket (h : s.Inv) (hcl : s.clients[i]? = some cl) (htaken : cl.taken = true) :
    (s.closeClientSocket i cl).Inv := by
  have hlen := (List.getElem?_eq_some_iff.1 hcl).1
  rw [closeClientSocket_eq]
  refine ⟨?_, fun j cl' hj htaken' => ?_, fun cl' hcl' htaken' => ?_⟩
  · have hrelease := h.held.release (holds_client hcl htaken) (s.maxsdWithout i cl)
    refine (congrArg _ ?_).mp hrelease
    funext r
    cases r with
    | client j =>
      rw [holds_set hlen rfl, Function.update_apply]
      simp [Client.descriptor, Client.taken, holds]
    | listen => rfl
    | conf => rfl
    | notify => rfl
    | confSocket => rfl
    | plugin sd => rfl
  · have hold := h.index j cl' (clientsWithout_taken hj htaken').2 htaken'
    dsimp only at hj ⊢
    split
    · exact hold
    · exact ClientTable.le_maxIndex hj htaken'
  · obtain ⟨j, hj⟩ := List.getElem?_of_mem hcl'
    exact h.peer cl' (List.mem_of_getElem? (clientsWithout_taken hj htaken').2) htaken'

/-! ### The other steps -/

theorem inv_clientEvent (h : s.Inv) (hcl : s.clients[i]? = some cl) (htaken : cl.taken = true)
    (e : ClientEvent) : (s.clientEvent i cl e).Inv := by
  have hlogged : ∀ logged, ({ s with logged } : Parent).Inv := fun _ => ⟨h.held, h.index, h.peer⟩
  unfold clientEvent
  dsimp only
  split
  · exact inv_closeClientSocket (hlogged _) hcl htaken
  · exact hlogged _

theorem inv_accept {newsd : Int} {ucred : Ucred} {evlogrmtd : Bool} (h : s.Inv)
    (hunused : s.Unused newsd) : (s.accept lim newsd ucred evlogrmtd).Inv := by
  have hscan := scanned_scanClients ucred.uid s.clients
  have hindex : ∀ (j : Nat) cl, s.clients[j]? = some cl → cl.taken = true →
      (j : Int) ≤ (scanClients ucred.uid s.clients 0 ⟨none, 0, 0⟩).maxci := by
    intro j cl hj htaken
    exact_mod_cast hscan.maxci j cl hj htaken
  unfold accept
  dsimp only
  split
  · rename_i k hrefusal hempty
    have hfree := hscan.empty
    simp only [hempty] at hfree
    obtain ⟨hle, cl, hk, -⟩ := hfree
    have hlen := (List.getElem?_eq_some_iff.1 hk).1
    refine ⟨?_, fun j cl' hj htaken => ?_, fun cl' hcl' htaken => ?_⟩
    · have htake := h.held.take hunused (.client k)
      refine (congrArg _ ?_).mp htake
      funext r
      cases r with
      | client j =>
        have hnew : (⟨newsd, ucred.uid, ucred.pid⟩ : Client).descriptor = some newsd := by
          have hne : newsd ≠ -1 := by
            have := hunused.1
            omega
          simp [Client.descriptor, Client.taken, clientSlotAvailable, hne]
        rw [holds_set hlen rfl, Function.update_apply, hnew]
        simp [holds]
      | listen => rfl
      | conf => rfl
      | notify => rfl
      | confSocket => rfl
      | plugin sd => rfl
    · rw [List.getElem?_set] at hj
      split at hj
      · rename_i hkj
        subst hkj
        change (k : Int) ≤ ((scanClients ucred.uid s.clients 0 ⟨none, 0, 0⟩).maxci : Int)
        exact_mod_cast hle
      · exact hindex j cl' hj htaken
    · obtain ⟨j, hj⟩ := List.getElem?_of_mem hcl'
      rw [List.getElem?_set] at hj
      split at hj
      · obtain rfl := Option.some.inj hj
        simp
      · -- the other clients have other descriptors
        have hne : cl'.sd ≠ newsd := by
          rintro rfl
          exact hunused.2 (h.held.opened _ (h.held.watched _ _ (holds_client hj htaken)))
        simp only [Function.update_apply, hne, if_false]
        exact h.peer cl' (List.mem_of_getElem? hj) htaken
  · exact ⟨h.held, hindex, h.peer⟩

/-- A role other than a client's takes or gives back a descriptor. -/
theorem Inv.of_role {s' : Parent} {r₀ : Role} {fd : Option Int} (h : s.Inv)
    (hheld : s'.Held (Function.update s.holds r₀ fd)) (hrole : s'.holds r₀ = fd)
    (hother : ∀ r, r ≠ r₀ → s'.holds r = s.holds r)
    (htable : s'.clients = s.clients ∧ s'.maxci = s.maxci ∧ s'.peer = s.peer) : s'.Inv := by
  obtain ⟨hclients, hmaxci, hpeer⟩ := htable
  refine ⟨?_, by rw [hclients, hmaxci]; exact h.index, by rw [hclients, hpeer]; exact h.peer⟩
  have hholds : s'.holds = Function.update s.holds r₀ fd := Function.eq_update_iff.2 ⟨hrole, hother⟩
  rw [hholds]
  exact hheld

theorem inv_notifyConnect (h : s.Inv) (sd : Option Int) : (step lim s (.notifyConnect sd)).Inv := by
  cases sd with
  | none =>
    simp only [step]
    split
    · rename_i hle
      have hneg : ¬ 0 < s.notifySd := by omega
      have hheld : s.Held (Function.update s.holds .notify none) := by
        have hnone : s.holds .notify = none := by simp [holds, hneg]
        rw [← hnone, Function.update_eq_self]
        exact h.held
      refine @Inv.of_role s _ .notify none h hheld (by simp [holds]) ?_ ⟨rfl, rfl, rfl⟩
      intro r hr
      cases r <;> first | rfl | exact absurd rfl hr
    · exact h
  | some sd =>
    simp only [step]
    split
    · rename_i hopen
      have hheld := h.held.take hopen.2 .notify
      have hpos := hheld.pos sd (Finset.mem_insert_self _ _)
      refine h.of_role hheld (by simp [holds, hpos]) ?_ ⟨rfl, rfl, rfl⟩
      intro r hr
      cases r <;> first | rfl | exact absurd rfl hr
    · exact h

theorem inv_notifyGone (h : s.Inv) : (step lim s .notifyGone).Inv := by
  simp only [step]
  split
  · rename_i hgone
    have hheld := h.held.release (show s.holds .notify = some s.notifySd by simp [holds, hgone.1])
      (if s.notifySd = s.maxsd then s.maxsd - 1 else s.maxsd)
    refine h.of_role hheld (by simp [holds]) ?_ ⟨rfl, rfl, rfl⟩
    intro r hr
    cases r <;> first | rfl | exact absurd rfl hr
  · exact h

theorem inv_confConnect (h : s.Inv) (newsd : Int) : (step lim s (.confConnect newsd)).Inv := by
  simp only [step]
  split
  · rename_i hnew
    have hheld := h.held.take hnew.2 .confSocket
    have hpos := hheld.pos newsd (Finset.mem_insert_self _ _)
    refine h.of_role hheld (by simp [holds, hpos]) ?_ ⟨rfl, rfl, rfl⟩
    intro r hr
    cases r <;> first | rfl | exact absurd rfl hr
  · exact h

theorem inv_confDone (h : s.Inv) : (step lim s .confDone).Inv := by
  simp only [step]
  split
  · rename_i hdone
    have hpos := h.held.pos _ hdone.2
    have hheld := h.held.release (show s.holds .confSocket = some s.confSocket by simp [holds, hpos])
      (if s.confSocket = s.maxsd then s.maxsd - 1 else s.maxsd)
    refine h.of_role hheld (by simp [holds]) ?_ ⟨rfl, rfl, rfl⟩
    intro r hr
    cases r <;> first | rfl | exact absurd rfl hr
  · exact h

theorem inv_pluginSet (h : s.Inv) (sd : Int) : (step lim s (.pluginSet sd)).Inv := by
  simp only [step]
  split
  · rename_i hunused
    refine h.of_role (h.held.take hunused (.plugin sd)) (by simp [holds]) ?_ ⟨rfl, rfl, rfl⟩
    intro r hr
    cases r with
    | plugin sd' =>
      have hne : sd' ≠ sd := fun heq => hr (heq ▸ rfl)
      simp [holds, hne]
    | listen => rfl
    | conf => rfl
    | notify => rfl
    | confSocket => rfl
    | client j => rfl
  · exact h

theorem inv_pluginUnset (h : s.Inv) (sd : Int) : (step lim s (.pluginUnset sd)).Inv := by
  simp only [step]
  split
  · rename_i hmem
    have hheld := h.held.release (show s.holds (.plugin sd) = some sd by simp [holds, hmem])
      (if sd = s.maxsd then s.maxsd - 1 else s.maxsd)
    refine h.of_role hheld (by simp [holds]) ?_ ⟨rfl, rfl, rfl⟩
    intro r hr
    cases r with
    | plugin sd' =>
      have hne : sd' ≠ sd := fun heq => hr (heq ▸ rfl)
      simp [holds, hne]
    | listen => rfl
    | conf => rfl
    | notify => rfl
    | confSocket => rfl
    | client j => rfl
  · exact h

/-- Every step keeps what evlogd knows of its descriptors. -/
theorem inv_step (h : s.Inv) (a : Action) : (step lim s a).Inv := by
  cases a with
  | notifyConnect sd => exact inv_notifyConnect h sd
  | notifyGone => exact inv_notifyGone h
  | accept newsd ucred evlogrmtd =>
    simp only [step]
    split
    · rename_i hnew
      exact inv_accept h hnew.2
    · exact h
  | confConnect newsd => exact inv_confConnect h newsd
  | confDone => exact inv_confDone h
  | event i e =>
    simp only [step]
    split
    · rename_i cl hcl
      split
      · rename_i hready
        exact inv_clientEvent h hcl hready.2.1 e
      · exact h
    · exact h
  | pluginSet sd => exact inv_pluginSet h sd
  | pluginUnset sd => exact inv_pluginUnset h sd

theorem inv_start (su : Setup) : (start su).Inv := by
  have hfree : ∀ (j : Nat) (cl : Client), (start su).clients[j]? = some cl → cl.taken = false := by
    intro j cl hj
    simp only [start] at hj
    obtain ⟨hlt, rfl⟩ := List.getElem?_eq_some_iff.1 hj
    simp [Client.taken]
  have hholds : ∀ r fd, (start su).holds r = some fd →
      (r = .listen ∧ fd = su.listenSd) ∨ (r = .conf ∧ fd = su.confSd) ∨
        (r = .notify ∧ fd = su.notifySd ∧ 0 < su.notifySd) := by
    intro r fd hr
    cases r with
    | listen => exact .inl ⟨rfl, (Option.some.inj hr).symm⟩
    | conf => exact .inr (.inl ⟨rfl, (Option.some.inj hr).symm⟩)
    | notify =>
      change (if 0 < su.notifySd then some su.notifySd else none) = some fd at hr
      split at hr
      · rename_i hpos
        exact .inr (.inr ⟨rfl, (Option.some.inj hr).symm, hpos⟩)
      · cases hr
    | confSocket => cases hr
    | client j =>
      obtain ⟨cl, hj, hcl⟩ := Option.bind_eq_some_iff.1 hr
      rw [Client.descriptor, hfree j cl hj] at hcl
      cases hcl
    | plugin sd =>
      change (if sd ∈ (∅ : Finset Int) then some sd else none) = some fd at hr
      rw [if_neg (Finset.notMem_empty sd)] at hr
      cases hr
  have hmem : ∀ fd, fd ∈ (start su).allSds ↔
      fd = su.confSd ∨ fd = su.listenSd ∨ (fd = su.notifySd ∧ 0 < su.notifySd) := by
    intro fd
    by_cases hpos : 0 < su.notifySd
    · simp only [start, hpos, if_true, Finset.mem_insert, Finset.mem_singleton, and_true]
      tauto
    · simp only [start, hpos, if_false, Finset.mem_insert, Finset.mem_singleton, and_false, or_false]
  refine ⟨⟨?_, ?_, ?_, ?_, ?_⟩, ?_, ?_⟩
  · intro r r' fd hr hr'
    obtain ⟨hlc, hln, hcn⟩ := su.distinct
    rcases hholds r fd hr with ⟨rfl, hfd⟩ | ⟨rfl, hfd⟩ | ⟨rfl, hfd, -⟩ <;>
      rcases hholds r' fd hr' with ⟨rfl, hfd'⟩ | ⟨rfl, hfd'⟩ | ⟨rfl, hfd', -⟩ <;>
        first | rfl | omega
  · intro r fd hr
    rw [hmem]
    rcases hholds r fd hr with ⟨-, hfd⟩ | ⟨-, hfd⟩ | ⟨-, hfd, hpos⟩
    · exact .inr (.inl hfd)
    · exact .inl hfd
    · exact .inr (.inr ⟨hfd, hpos⟩)
  · intro fd hfd
    obtain ⟨hlisten, hconf, hnotify⟩ := su.isOpen
    rcases (hmem fd).1 hfd with rfl | rfl | ⟨rfl, hpos⟩
    · exact hconf
    · exact hlisten
    · exact hnotify hpos
  · exact su.std (by simp)
  · intro fd hfd
    obtain ⟨hlisten, hconf⟩ := su.listening
    rcases (hmem fd).1 hfd with rfl | rfl | ⟨rfl, hpos⟩
    · exact hconf
    · exact hlisten
    · exact hpos
  · intro j cl hj htaken
    rw [hfree j cl hj] at htaken
    cases htaken
  · intro cl hcl htaken
    obtain ⟨j, hj⟩ := List.getElem?_of_mem hcl
    rw [hfree j cl hj] at htaken
    cases htaken

/-! ## The bound -/

/-- Nobody is left out of select. -/
structure SelectOk (s : Parent) : Prop where
  opened : ∀ fd ∈ s.allSds, fd ∈ s.opened
  bound : ∀ fd ∈ s.allSds, fd ≤ s.maxsd
  index : ∀ (i : Nat) cl,
    s.clients[i]? = some cl → cl.sd ≠ clientSlotAvailable → (i : Int) ≤ s.maxci
  clients : ∀ cl ∈ s.clients, cl.sd ≠ clientSlotAvailable → s.Selects cl.sd
  listening : s.Selects s.listenSd ∧ s.Selects s.confSd

theorem selectOk_iff_bounded (h : s.Inv) : s.SelectOk ↔ s.Bounded := by
  refine ⟨fun hok => hok.bound, fun hbound => ⟨h.held.opened, hbound, ?_, ?_, ?_⟩⟩
  · exact fun i cl hcl hsd => h.index i cl hcl (taken_iff.2 hsd)
  · intro cl hcl hsd
    obtain ⟨i, hi⟩ := List.getElem?_of_mem hcl
    have hmem := h.held.watched _ _ (holds_client hi (taken_iff.2 hsd))
    exact ⟨hmem, hbound _ hmem⟩
  · have hlisten := h.held.watched .listen _ rfl
    have hconf := h.held.watched .conf _ rfl
    exact ⟨⟨hlisten, hbound _ hlisten⟩, ⟨hconf, hbound _ hconf⟩⟩

/-- When the client goes, no descriptor that stays is above those of the
other clients and of the notification daemon. -/
def CoversRest (s : Parent) (i : Nat) (cl : Client) : Prop :=
  s.maxsd = s.notifySd ∨ (∀ cl' ∈ s.clientsWithout i cl, cl'.taken = false) ∨
    ∀ fd ∈ s.allSds.erase cl.sd,
      fd ≤ s.notifySd ∨ ∃ cl' ∈ s.clientsWithout i cl, cl'.taken = true ∧ fd ≤ cl'.sd

theorem bounded_closeClientSocket (h : s.Inv) (hbound : s.Bounded) :
    (s.closeClientSocket i cl).Bounded ↔ s.CoversRest i cl := by
  rw [closeClientSocket_eq]
  have hpos : ∀ cl' ∈ s.clientsWithout i cl, cl'.taken = true → 0 < cl'.sd := by
    intro cl' hcl' htaken
    obtain ⟨j, hj⟩ := List.getElem?_of_mem hcl'
    have hj := (clientsWithout_taken hj htaken).2
    exact h.held.pos _ (h.held.watched _ _ (holds_client hj htaken))
  exact ClientTable.bounded_boundAfter (by decide) hpos hbound

/-- A closing in the step leaves no descriptor above the new `maxsd`. -/
def HarmlessClose (s : Parent) : Action → Prop
  | .event i e =>
    ∀ cl, s.clients[i]? = some cl → (i : Int) ≤ s.maxci ∧ cl.taken ∧ cl.sd ∈ s.allSds →
      (s.processEvent cl e).closed = true → s.CoversRest i cl
  | _ => True

theorem bounded_step (h : s.Inv) (hbound : s.Bounded) (a : Action) :
    (step lim s a).Bounded ↔ s.HarmlessClose a := by
  have hwatch : ∀ fd, (s.watch fd).Bounded := hbound.watch
  have hlower : ∀ fd, (s.lower fd).Bounded := hbound.lower
  cases a with
  | event i e =>
    simp only [step, HarmlessClose]
    cases hcl : s.clients[i]? with
    | none => exact ⟨fun _ => nofun, fun _ => hbound⟩
    | some cl =>
      dsimp only
      split
      · rename_i hready
        unfold clientEvent
        dsimp only
        split
        · rename_i hclosed
          have hinv : ({ s with logged := s.logged ++ s.logEvent cl e } : Parent).Inv :=
            ⟨h.held, h.index, h.peer⟩
          refine (bounded_closeClientSocket hinv hbound).trans ?_
          refine ⟨fun hcovers cl' hcl' _ _ => ?_, fun hcovers => hcovers cl rfl hready hclosed⟩
          obtain rfl := Option.some.inj hcl'
          exact hcovers
        · rename_i hopen
          refine ⟨fun _ cl' hcl' _ hclosed => ?_, fun _ => hbound⟩
          obtain rfl := Option.some.inj hcl'
          exact absurd hclosed hopen
      · rename_i hready
        refine ⟨fun _ cl' hcl' hready' => ?_, fun _ => hbound⟩
        obtain rfl := Option.some.inj hcl'
        exact absurd hready' hready
  | notifyConnect sd =>
    refine iff_of_true ?_ trivial
    cases sd <;> simp only [step] <;> split <;> first | exact hbound | exact hwatch _
  | notifyGone =>
    refine iff_of_true ?_ trivial
    simp only [step]
    split
    · exact hlower _
    · exact hbound
  | accept newsd ucred evlogrmtd =>
    refine iff_of_true ?_ trivial
    simp only [step]
    split
    · unfold accept
      dsimp only
      split
      · exact hwatch _
      · exact hbound
    · exact hbound
  | confConnect newsd =>
    refine iff_of_true ?_ trivial
    simp only [step]
    split
    · exact hwatch _
    · exact hbound
  | confDone =>
    refine iff_of_true ?_ trivial
    simp only [step]
    split
    · exact hlower _
    · exact hbound
  | pluginSet sd =>
    refine iff_of_true ?_ trivial
    simp only [step]
    split
    · exact hwatch _
    · exact hbound
  | pluginUnset sd =>
    refine iff_of_true ?_ trivial
    simp only [step]
    split
    · exact hlower _
    · exact hbound

theorem bounded_start (su : Setup) : (start su).Bounded := by
  intro fd hfd
  change fd ≤ max (max su.notifySd su.confSd) su.listenSd
  simp only [start] at hfd
  split at hfd <;> simp only [Finset.mem_insert, Finset.mem_singleton] at hfd <;> omega

/-- Nobody is left out of select as long as every closing is harmless, and
no longer. -/
theorem selectOk_iff (lim : Limits) (su : Setup) (as : List Action) :
    Always (step lim) SelectOk (start su) as ↔ Meets (step lim) HarmlessClose (start su) as := by
  refine @always_iff_meets _ _ (step lim) SelectOk Inv HarmlessClose (fun s a h _ _ => inv_step h a)
    (fun s a h hok => ?_) (start su) (inv_start su)
    ((selectOk_iff_bounded (inv_start su)).2 (bounded_start su)) as
  rw [selectOk_iff_bounded (inv_step h a)]
  exact bounded_step h ((selectOk_iff_bounded h).1 hok) a

def goneEvent : ClientEvent where
  stream := []
  slot := .ofBytes []
  kernelFailed := false
  defaultPosixLog := true
  disQuery := none
  facilities := fun _ => none
  facReg := ⟨fun _ => none, false, fun _ => none⟩
  dropDup := fun _ _ => false

theorem boot_std : ({0, 1, 2} : Finset Int) ⊆ {0, 1, 2, 3, 4, 5} := by decide

theorem boot_notify : (3 : Int) = -1 ∨ (0 : Int) < 3 := by decide

/-- evlogd with the notification daemon on 3, and on 4 and 5 waiting for
evlconfig and for clients. -/
def boot : Setup where
  kpid := 100
  notifySd := 3
  listenSd := 5
  confSd := 4
  opened := {0, 1, 2, 3, 4, 5}
  std := boot_std
  notify := boot_notify
  distinct := by decide
  listening := by decide
  isOpen := by decide

/-- A client has connected, then the notification daemon goes away and the
next client gets its descriptor. Then the first client goes away. -/
def deaf : Parent :=
  run (step ⟨499, 10⟩) (start boot)
    [.accept 6 ⟨200, 0⟩ false, .notifyGone, .accept 3 ⟨201, 0⟩ false, .event 0 goneEvent]

set_option maxRecDepth 20000

theorem listener_left_out :
    deaf.listenSd ∈ deaf.allSds ∧ deaf.maxsd < deaf.listenSd ∧ ¬deaf.SelectOk := by
  have hdeaf : deaf.listenSd ∈ deaf.allSds ∧ deaf.maxsd < deaf.listenSd := by decide
  generalize deaf = s at hdeaf ⊢
  exact ⟨hdeaf.1, hdeaf.2, fun hok => absurd (hok.bound _ hdeaf.1) (not_le.2 hdeaf.2)⟩

end Parent

end Evlog.Evlogd.Socket
