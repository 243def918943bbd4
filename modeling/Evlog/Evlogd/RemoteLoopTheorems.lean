/-
Evlog.Evlogd.RemoteLoopTheorems — whom evlogrmtd hears.

The bookkeeping of evlogrmtd is that of evlogd with one thing more: the way
out of `writeToEvlogd` closes the connection to evlogd and leaves its
descriptor in `all_sds`. `loop_selectOk_iff` says in which runs every descriptor
in `all_sds` is open and not above `maxsd`: where every closing of a client
is harmless, and every record that is forwarded gets through.
-/
import Evlog.Evlogd.RemoteLoop

namespace Evlog.Evlogd.Rmt

open Evlog.Lib Evlog.Posix Evlog.Evlogd.Socket

/-! ## What holds as long as evlogd takes what it is sent -/

/-- What evlogrmtd has a descriptor for. -/
inductive Role where
  | tcp
  | udp
  | evlogd
  | client (i : Nat)
  deriving DecidableEq

def Client.descriptor (cl : Client) : Option Int := if cl.taken then some cl.sd else none

namespace Loop

def holds (s : Loop) : Role → Option Int
  | .tcp => some s.tcpSd
  | .udp => some s.udpSd
  | .evlogd => if s.evlogSd = -1 then none else some s.evlogSd
  | .client i => s.clients[i]?.bind Client.descriptor

def occupied (s : Loop) : Nat := s.clients.countP Client.taken

/-- What evlogrmtd knows of its descriptors. -/
structure Inv (s : Loop) : Prop where
  held : s.Held s.holds
  length : s.clients.length = maxRmtConnections
  maxcl : s.maxcl = s.occupied
  room : s.occupied < maxRmtConnections
  index : ∀ (i : Nat) cl, s.clients[i]? = some cl → cl.taken = true → (i : Int) ≤ s.maxci

variable {s : Loop} {i : Nat} {cl : Client}

theorem holds_client (hcl : s.clients[i]? = some cl) (htaken : cl.taken = true) :
    s.holds (.client i) = some cl.sd := by
  simp [holds, hcl, Client.descriptor, htaken]

theorem holds_set {clients : List Client} {new : Client} (hi : i < clients.length)
    (hclients : s.clients = clients.set i new) :
    ∀ j, s.holds (.client j) = if j = i then new.descriptor else clients[j]?.bind Client.descriptor := by
  intro j
  rw [holds, hclients]
  exact ClientTable.bind_set _ new hi j

/-! ### Closing a connection -/

def clientsWithout (s : Loop) (i : Nat) (cl : Client) : List Client :=
  s.clients.set i { cl with sd := clientSlotAvailable, authdata := [] }

/-- `maxsd` when the client has gone. -/
def maxsdWithout (s : Loop) (i : Nat) (cl : Client) : Int :=
  ClientTable.boundAfter Client.sd clientSlotAvailable s.maxsd s.evlogSd cl.sd (s.clientsWithout i cl)

theorem closeClientSocket_eq (s : Loop) (i : Nat) (cl : Client) : s.closeClientSocket i cl =
      { s with
        toSelectSet := s.remove cl.sd (s.maxsdWithout i cl)
        clients := s.clientsWithout i cl
        maxcl := s.maxcl - 1
        maxci := if s.maxsd = s.evlogSd then s.maxci else getMaxClientIndex (s.clientsWithout i cl) } := by
  unfold closeClientSocket maxsdWithout ClientTable.boundAfter clientsWithout
  by_cases hmax : s.maxsd = s.evlogSd
  · simp only [hmax, if_true]
  · simp only [hmax, if_false]
    rfl

/-- The slots that are in use without the client were so before. -/
theorem clientsWithout_taken {cl' : Client} {j : Nat} (hj : (s.clientsWithout i cl)[j]? = some cl')
    (htaken : cl'.taken = true) : j ≠ i ∧ s.clients[j]? = some cl' :=
  ClientTable.taken_of_freed rfl hj htaken

theorem countP_clientsWithout (hcl : s.clients[i]? = some cl) (htaken : cl.taken = true) :
    (s.clientsWithout i cl).countP Client.taken + 1 = s.occupied := by
  obtain ⟨hlen, rfl⟩ := List.getElem?_eq_some_iff.1 hcl
  have hpos : 0 < s.occupied := List.countP_pos_iff.2 ⟨_, List.getElem_mem hlen, htaken⟩
  rw [clientsWithout, List.countP_set hlen, htaken]
  simp only [Client.taken, clientSlotAvailable, occupied] at hpos ⊢
  simp
  omega

theorem inv_closeClientSocket (h : s.Inv) (hcl : s.clients[i]? = some cl) (htaken : cl.taken = true) :
    (s.closeClientSocket i cl).Inv := by
  have hlen := (List.getElem?_eq_some_iff.1 hcl).1
  have hcount := countP_clientsWithout hcl htaken
  rw [closeClientSocket_eq]
  refine ⟨?_, ?_, ?_, ?_, fun j cl' hj htaken' => ?_⟩
  · have hrelease := h.held.release (holds_client hcl htaken) (s.maxsdWithout i cl)
    refine (congrArg _ ?_).mp hrelease
    funext r
    cases r with
    | client j =>
      rw [holds_set hlen rfl, Function.update_apply]
      simp [Client.descriptor, Client.taken, holds]
    | tcp => rfl
    | udp => rfl
    | evlogd => rfl
  · exact (List.length_set ..).trans h.length
  · have := h.maxcl
    change s.maxcl - 1 = ((s.clientsWithout i cl).countP Client.taken : Nat)
    omega
  · have := h.room
    change (s.clientsWithout i cl).countP Client.taken < maxRmtConnections
    omega
  · have hold := h.index j cl' (clientsWithout_taken hj htaken').2 htaken'
    dsimp only at hj ⊢
    split
    · exact hold
    · exact ClientTable.le_maxIndex hj htaken'

/-! ### The other steps -/

/-- A slot is written, and what is counted there stays the same. -/
theorem inv_set {new : Client} (h : s.Inv) (hcl : s.clients[i]? = some cl) (hsd : new.sd = cl.sd) :
    ({ s with clients := s.clients.set i new } : Loop).Inv := by
  obtain ⟨hlen, hget⟩ := List.getElem?_eq_some_iff.1 hcl
  have htaken : new.taken = cl.taken := by rw [Client.taken, Client.taken, hsd]
  have hdescriptor : new.descriptor = cl.descriptor := by
    rw [Client.descriptor, Client.descriptor, htaken, hsd]
  have hcount : (s.clients.set i new).countP Client.taken = s.occupied := by
    rw [List.countP_set hlen, hget, htaken, occupied]
    have hpos : cl.taken = true → 0 < s.clients.countP Client.taken := fun htaken =>
      List.countP_pos_iff.2 ⟨cl, List.mem_of_getElem? hcl, htaken⟩
    cases hcltaken : cl.taken with
    | true =>
      have := hpos hcltaken
      simp only [if_true]
      omega
    | false => simp
  refine ⟨?_, (List.length_set ..).trans h.length, ?_, ?_, fun j cl' hj htaken' => ?_⟩
  · refine (congrArg _ ?_).mp h.held
    funext r
    cases r with
    | client j =>
      refine Eq.trans ?_ (holds_set hlen rfl j).symm
      rw [hdescriptor]
      by_cases hj : j = i
      · subst hj
        simp [holds, hcl]
      · simp [hj, holds]
    | tcp => rfl
    | udp => rfl
    | evlogd => rfl
  · change s.maxcl = ((s.clients.set i new).countP Client.taken : Nat)
    rw [hcount]
    exact h.maxcl
  · change (s.clients.set i new).countP Client.taken < maxRmtConnections
    rw [hcount]
    exact h.room
  · rw [List.getElem?_set] at hj
    split at hj
    · rename_i hij
      obtain rfl := Option.some.inj hj
      exact h.index j cl (hij ▸ hcl) (htaken ▸ htaken')
    · exact h.index j cl' hj htaken'

theorem inv_accept {newsd : Int} {addr : Option UInt32} (h : s.Inv) (hunused : s.Unused newsd) :
    (s.accept newsd addr).Inv := by
  unfold accept
  split
  · exact h
  rename_i hroom
  cases addr with
  | none => exact h
  | some addr =>
    dsimp only
    cases hostLookUp s.hostArray addr with
    | none => exact h
    | some nodeId =>
      dsimp only
      have hnewsd : newsd ≠ clientSlotAvailable := by
        have := hunused.1
        simp only [clientSlotAvailable]
        omega
      cases hfind : s.clients.findIdx? fun cl => cl.sd == clientSlotAvailable with
      | none =>
        -- then every slot would be in use
        have hfull : s.occupied = s.clients.length := by
          refine List.countP_eq_length.2 fun cl hcl => ?_
          have := List.findIdx?_eq_none_iff.1 hfind cl hcl
          simpa [Client.taken] using this
        have := h.room
        rw [hfull, h.length] at this
        exact absurd this (lt_irrefl _)
      | some idx =>
        obtain ⟨hlen, hfree, -⟩ := List.findIdx?_eq_some_iff_getElem.1 hfind
        have hfree : (s.clients[idx]).taken = false := by simpa [Client.taken] using hfree
        have hnew : (⟨newsd, addr, nodeId, false, []⟩ : Client).taken = true := by
          simp [Client.taken, hnewsd]
        have hcount : (s.clients.set idx ⟨newsd, addr, nodeId, false, []⟩).countP Client.taken =
            s.occupied + 1 := by
          rw [List.countP_set hlen, hfree, hnew, occupied]
          simp
        refine ⟨?_, (List.length_set ..).trans h.length, ?_, ?_, fun j cl' hj htaken' =>
          ClientTable.le_maxIndex hj htaken'⟩
        · refine (congrArg _ ?_).mp (h.held.take hunused (.client idx))
          funext r
          cases r with
          | client j =>
            rw [holds_set hlen rfl, Function.update_apply, Client.descriptor, hnew]
            simp [holds]
          | tcp => rfl
          | udp => rfl
          | evlogd => rfl
        · have := h.maxcl
          change s.maxcl + 1 = ((s.clients.set idx _).countP Client.taken : Nat)
          rw [hcount]
          omega
        · have hmaxcl := h.maxcl
          have hlt := h.room
          change (s.clients.set idx _).countP Client.taken < maxRmtConnections
          rw [hcount]
          simp only [maxRmtConnections] at hroom hlt ⊢
          omega

/-- A role other than a client's takes or gives back a descriptor. -/
theorem Inv.of_role {s' : Loop} {r₀ : Role} {fd : Option Int} (h : s.Inv)
    (hheld : s'.Held (Function.update s.holds r₀ fd)) (hrole : s'.holds r₀ = fd)
    (hother : ∀ r, r ≠ r₀ → s'.holds r = s.holds r)
    (htable : s'.clients = s.clients ∧ s'.maxci = s.maxci ∧ s'.maxcl = s.maxcl) : s'.Inv := by
  obtain ⟨hclients, hmaxci, hmaxcl⟩ := htable
  have hholds : s'.holds = Function.update s.holds r₀ fd := Function.eq_update_iff.2 ⟨hrole, hother⟩
  refine ⟨?_, ?_, ?_, ?_, ?_⟩
  · rw [hholds]
    exact hheld
  · rw [hclients]
    exact h.length
  · rw [hmaxcl, occupied, hclients]
    exact h.maxcl
  · rw [occupied, hclients]
    exact h.room
  · rw [hclients, hmaxci]
    exact h.index

theorem inv_reconnect (h : s.Inv) (sd : Option Int) : (step s (.reconnect sd)).Inv := by
  cases sd with
  | none => exact h
  | some sd =>
    simp only [step]
    split
    · rename_i hopen
      have hne : sd ≠ -1 := by
        have := hopen.2.1
        omega
      refine h.of_role (h.held.take hopen.2 .evlogd) (by simp [holds, hne]) ?_ ⟨rfl, rfl, rfl⟩
      intro r hr
      cases r <;> first | rfl | exact absurd rfl hr
    · exact h

theorem inv_evlogdGone (h : s.Inv) : (step s .evlogdGone).Inv := by
  simp only [step]
  split
  · rename_i hgone
    have hne : s.evlogSd ≠ -1 := by
      have := hgone.1
      omega
    have hheld := h.held.release (show s.holds .evlogd = some s.evlogSd by simp [holds, hne])
      (if s.evlogSd = s.maxsd then s.maxsd - 1 else s.maxsd)
    refine h.of_role hheld (by simp [holds]) ?_ ⟨rfl, rfl, rfl⟩
    intro r hr
    cases r <;> first | rfl | exact absurd rfl hr
  · exact h

/-! ## The bound -/

/-- Nobody is left out of select, and the counters are right. -/
structure SelectOk (s : Loop) : Prop where
  opened : ∀ fd ∈ s.allSds, fd ∈ s.opened
  bound : ∀ fd ∈ s.allSds, fd ≤ s.maxsd
  maxcl : s.maxcl = s.occupied
  index : ∀ (i : Nat) cl,
    s.clients[i]? = some cl → cl.sd ≠ clientSlotAvailable → (i : Int) ≤ s.maxci

theorem selectOk_iff_bounded (h : s.Inv) : s.SelectOk ↔ s.Bounded := by
  refine ⟨fun hok => hok.bound, fun hbound => ⟨h.held.opened, hbound, h.maxcl, ?_⟩⟩
  exact fun i cl hcl hsd => h.index i cl hcl (ClientTable.taken_iff.2 hsd)

/-- When the client goes, no descriptor that stays is above those of the
other clients and of evlogd. -/
def CoversRest (s : Loop) (i : Nat) (cl : Client) : Prop :=
  s.maxsd = s.evlogSd ∨ (∀ cl' ∈ s.clientsWithout i cl, cl'.taken = false) ∨
    ∀ fd ∈ s.allSds.erase cl.sd,
      fd ≤ s.evlogSd ∨ ∃ cl' ∈ s.clientsWithout i cl, cl'.taken = true ∧ fd ≤ cl'.sd

/-- Each closing of a client covers what is left, and evlogd takes and
answers the record that is forwarded. -/
def Harmless (s : Loop) : Action → Prop
  | .validate i => ∀ ci, s.clients[i]? = some ci → (ci.taken && s.unknownHost ci) = true →
      s.CoversRest i ci
  | .udp addr datagram evlogd => s.udpSd ∈ s.allSds →
      s.writeFails evlogd (recvUDP (s.peer evlogd) s.hostArray addr datagram) = false
  | .client i stream passwd evlogd => ∀ ci, s.clients[i]? = some ci →
      (i : Int) ≤ s.maxci ∧ ci.taken ∧ ci.sd ∈ s.allSds →
        if ci.authenticated then
          if (s.clientTrace ci evlogd stream).closed then s.CoversRest i ci
          else s.writeFails evlogd (s.clientTrace ci evlogd stream) = false
        else authenticate passwd ci stream = .failed → s.CoversRest i ci
  | _ => True

/-- What a step comes to: it is harmless and nobody is left out after it,
or it is not and somebody is. -/
def Decides (harmless : Prop) (s' : Loop) : Prop :=
  harmless ∧ s'.Inv ∧ s'.Bounded ∨ ¬harmless ∧ ¬s'.SelectOk

theorem decides_closeClientSocket (h : s.Inv) (hbound : s.Bounded) (hcl : s.clients[i]? = some cl)
    (htaken : cl.taken = true) : Decides (s.CoversRest i cl) (s.closeClientSocket i cl) := by
  have hinv := inv_closeClientSocket h hcl htaken
  have hpos : ∀ cl' ∈ s.clientsWithout i cl, cl'.taken = true → 0 < cl'.sd := by
    intro cl' hcl' htaken
    obtain ⟨j, hj⟩ := List.getElem?_of_mem hcl'
    have hj := (clientsWithout_taken hj htaken).2
    exact h.held.pos _ (h.held.watched _ _ (holds_client hj htaken))
  have hiff : (s.closeClientSocket i cl).Bounded ↔ s.CoversRest i cl := by
    rw [closeClientSocket_eq]
    exact ClientTable.bounded_boundAfter (by decide) hpos hbound
  by_cases hcovers : s.CoversRest i cl
  · exact .inl ⟨hcovers, hinv, hiff.2 hcovers⟩
  · refine .inr ⟨hcovers, fun hok => hcovers (hiff.1 ?_)⟩
    exact (selectOk_iff_bounded hinv).1 hok

/-- The descriptor of evlogd is closed, and select is asked about it all the
same. -/
theorem not_selectOk_errExit (h : s.Inv) (hconnected : s.evlogSd ≠ -1) : ¬s.errExit.SelectOk := by
  intro hok
  have hmem := h.held.watched .evlogd s.evlogSd (by simp [holds, hconnected])
  exact absurd (hok.opened _ hmem) (Finset.notMem_erase _ _)

theorem decides_finishWrite (h : s.Inv) (hbound : s.Bounded) (evlogd : EvlogdPeer) (t : ForwardTrace) :
    Decides (s.writeFails evlogd t = false) (s.finishWrite evlogd t) := by
  unfold finishWrite
  split
  · rename_i hfails
    refine .inr ⟨by simp [hfails], not_selectOk_errExit h ?_⟩
    rintro hnone
    simp [writeFails, peer, hnone] at hfails
  · rename_i hwritten
    exact .inl ⟨by simpa using hwritten, h, hbound⟩

theorem decides_clientReady (h : s.Inv) (hbound : s.Bounded) (hcl : s.clients[i]? = some cl)
    (htaken : cl.taken = true) (stream : ByteStream) (passwd : Option (List UInt8)) (evlogd : EvlogdPeer) :
    Decides (if cl.authenticated then
        if (s.clientTrace cl evlogd stream).closed then s.CoversRest i cl
        else s.writeFails evlogd (s.clientTrace cl evlogd stream) = false
      else authenticate passwd cl stream = .failed → s.CoversRest i cl)
      (s.clientReady i cl stream passwd evlogd) := by
  unfold clientReady
  split
  · dsimp only
    split
    · exact decides_closeClientSocket h hbound hcl htaken
    · exact decides_finishWrite h hbound evlogd _
  · cases hauth : authenticate passwd cl stream with
    | more authdata => exact .inl ⟨nofun, inv_set h hcl rfl, hbound⟩
    | authenticated => exact .inl ⟨nofun, inv_set h hcl rfl, hbound⟩
    | failed =>
      simp only [true_imp_iff]
      exact decides_closeClientSocket h hbound hcl htaken

theorem bounded_accept {newsd : Int} {addr : Option UInt32} (hbound : s.Bounded) :
    (s.accept newsd addr).Bounded := by
  have hwatch : (s.watch newsd).Bounded := hbound.watch newsd
  unfold accept
  split
  · exact hbound
  · cases addr with
    | none => exact hbound
    | some addr =>
      dsimp only
      cases hostLookUp s.hostArray addr with
      | none => exact hbound
      | some nodeId => exact hwatch

theorem decides_step (h : s.Inv) (hbound : s.Bounded) (a : Action) :
    Decides (s.Harmless a) (step s a) := by
  have hwatch : ∀ fd, (s.watch fd).Bounded := hbound.watch
  have hlower : ∀ fd, (s.lower fd).Bounded := hbound.lower
  cases a with
  | reinit hostArray =>
    exact .inl ⟨trivial, ⟨h.held, h.length, h.maxcl, h.room, h.index⟩, hbound⟩
  | validate i =>
    simp only [step, Harmless]
    cases hcl : s.clients[i]? with
    | none => exact .inl ⟨nofun, h, hbound⟩
    | some ci =>
      simp only [Option.some.injEq, forall_eq']
      split
      · rename_i hunknown
        simp only [hunknown, true_imp_iff]
        exact decides_closeClientSocket h hbound hcl (Bool.and_eq_true_iff.1 hunknown).1
      · rename_i hknown
        exact .inl ⟨fun hunknown => absurd hunknown hknown, h, hbound⟩
  | reconnect sd =>
    refine .inl ⟨trivial, inv_reconnect h sd, ?_⟩
    cases sd with
    | none => exact hbound
    | some sd =>
      simp only [step]
      split
      · exact hwatch sd
      · exact hbound
  | accept newsd addr =>
    simp only [step]
    split
    · rename_i hnew
      exact .inl ⟨trivial, inv_accept h hnew.2, bounded_accept hbound⟩
    · exact .inl ⟨trivial, h, hbound⟩
  | udp addr datagram evlogd =>
    simp only [step, Harmless]
    split
    · rename_i hready
      simp only [hready, true_imp_iff]
      exact decides_finishWrite h hbound evlogd _
    · rename_i hready
      exact .inl ⟨fun hready' => absurd hready' hready, h, hbound⟩
  | client i stream passwd evlogd =>
    simp only [step, Harmless]
    cases hcl : s.clients[i]? with
    | none => exact .inl ⟨nofun, h, hbound⟩
    | some ci =>
      simp only [Option.some.injEq, forall_eq']
      by_cases hready : (i : Int) ≤ s.maxci ∧ ci.taken = true ∧ ci.sd ∈ s.allSds
      · rw [if_pos hready, forall_prop_of_true hready]
        exact decides_clientReady h hbound hcl hready.2.1 stream passwd evlogd
      · rw [if_neg hready]
        exact .inl ⟨fun hready' => absurd hready' hready, h, hbound⟩
  | evlogdGone =>
    refine .inl ⟨trivial, inv_evlogdGone h, ?_⟩
    simp only [step]
    split
    · exact hlower _
    · exact hbound

theorem inv_start (su : Setup) : (start su).Inv := by
  have hfree : ∀ (j : Nat) (cl : Client), (start su).clients[j]? = some cl → cl.taken = false := by
    intro j cl hj
    simp only [start] at hj
    obtain ⟨hlt, rfl⟩ := List.getElem?_eq_some_iff.1 hj
    simp [Client.taken]
  have hnone : (start su).occupied = 0 := by
    refine List.countP_eq_zero.2 fun cl hcl => ?_
    obtain ⟨j, hj⟩ := List.getElem?_of_mem hcl
    simp [hfree j cl hj]
  have hholds : ∀ r fd, (start su).holds r = some fd →
      (r = .tcp ∧ fd = su.tcpSd) ∨ (r = .udp ∧ fd = su.udpSd) ∨
        (r = .evlogd ∧ fd = su.evlogSd ∧ su.evlogSd ≠ -1) := by
    intro r fd hr
    cases r with
    | tcp => exact .inl ⟨rfl, (Option.some.inj hr).symm⟩
    | udp => exact .inr (.inl ⟨rfl, (Option.some.inj hr).symm⟩)
    | evlogd =>
      change (if su.evlogSd = -1 then none else some su.evlogSd) = some fd at hr
      split at hr
      · cases hr
      · rename_i hne
        exact .inr (.inr ⟨rfl, (Option.some.inj hr).symm, hne⟩)
    | client j =>
      obtain ⟨cl, hj, hcl⟩ := Option.bind_eq_some_iff.1 hr
      rw [Client.descriptor, hfree j cl hj] at hcl
      cases hcl
  have hmem : ∀ fd, fd ∈ (start su).allSds ↔
      fd = su.tcpSd ∨ fd = su.udpSd ∨ (fd = su.evlogSd ∧ su.evlogSd ≠ -1) := by
    intro fd
    by_cases hconnected : su.evlogSd = -1
    · simp only [start, hconnected, ne_eq, not_true, if_false, Finset.mem_insert, Finset.mem_singleton,
        and_false, or_false]
    · simp only [start, hconnected, ne_eq, not_false_eq_true, if_true, Finset.mem_insert,
        Finset.mem_singleton, and_true]
      tauto
  obtain ⟨htcp, hudp, hevlogd⟩ := su.isOpen
  obtain ⟨hlisten, hpacket⟩ := su.listening
  refine ⟨⟨?_, ?_, ?_, su.std (by simp), ?_⟩, List.length_replicate, ?_, ?_, ?_⟩
  · intro r r' fd hr hr'
    obtain ⟨htu, hte, hue⟩ := su.distinct
    rcases hholds r fd hr with ⟨rfl, hfd⟩ | ⟨rfl, hfd⟩ | ⟨rfl, hfd, -⟩ <;>
      rcases hholds r' fd hr' with ⟨rfl, hfd'⟩ | ⟨rfl, hfd'⟩ | ⟨rfl, hfd', -⟩ <;>
        first | rfl | omega
  · intro r fd hr
    rw [hmem]
    rcases hholds r fd hr with ⟨-, hfd⟩ | ⟨-, hfd⟩ | ⟨-, hfd, hne⟩
    · exact .inl hfd
    · exact .inr (.inl hfd)
    · exact .inr (.inr ⟨hfd, hne⟩)
  · intro fd hfd
    rcases (hmem fd).1 hfd with rfl | rfl | ⟨rfl, hne⟩
    · exact htcp
    · exact hudp
    · exact hevlogd hne
  · intro fd hfd
    rcases (hmem fd).1 hfd with rfl | rfl | ⟨rfl, hne⟩
    · exact hlisten
    · exact hpacket
    · exact su.evlogd.resolve_left hne
  · rw [hnone]
    rfl
  · rw [hnone]
    decide
  · intro j cl hj htaken
    rw [hfree j cl hj] at htaken
    cases htaken

theorem bounded_start (su : Setup) : (start su).Bounded := by
  intro fd hfd
  simp only [start] at hfd ⊢
  split at hfd
  · rename_i hconnected
    rw [if_pos hconnected]
    simp only [Finset.mem_insert, Finset.mem_singleton] at hfd
    omega
  · rename_i hconnected
    rw [if_neg hconnected]
    simp only [Finset.mem_insert, Finset.mem_singleton] at hfd
    omega

/-- Nobody is left out of select as long as every step is harmless, and no
longer. -/
theorem loop_selectOk_iff (su : Setup) (as : List Action) :
    Always step SelectOk (start su) as ↔ Meets step Harmless (start su) as := by
  refine @always_iff_meets _ _ step SelectOk Inv Harmless (fun s a h hok hharmless => ?_)
    (fun s a h hok => ?_) (start su) (inv_start su)
    ((selectOk_iff_bounded (inv_start su)).2 (bounded_start su)) as
  · rcases decides_step h ((selectOk_iff_bounded h).1 hok) a with ⟨-, hinv, -⟩ | ⟨hharm, -⟩
    · exact hinv
    · exact absurd hharmless hharm
  · rcases decides_step h ((selectOk_iff_bounded h).1 hok) a with ⟨hharmless, hinv, hbound⟩ | ⟨hharm, hleft⟩
    · exact iff_of_true ((selectOk_iff_bounded hinv).2 hbound) hharmless
    · exact iff_of_false hleft hharm

/-- evlogrmtd with evlogd on 3 and its sockets on 4 and 5; it takes records
from one host. -/
def boot : Setup where
  evlogSd := 3
  tcpSd := 4
  udpSd := 5
  hostArray := [⟨7, 1⟩]
  opened := {0, 1, 2, 3, 4, 5}
  std := by decide
  evlogd := .inr (by decide)
  distinct := by decide
  listening := by decide
  isOpen := by decide

def silent : EvlogdPeer := ⟨fun _ => false, 0⟩

/-- The host connects, evlogd goes away and cannot be reached, and the host
connects once more and gets the descriptor of evlogd. Then the first
connection is closed. -/
def deaf : Loop :=
  run step (start boot)
    [.accept 6 (some 7), .evlogdGone, .reconnect none, .accept 3 (some 7), .client 0 [] none silent]

/-- evlogd does not take a record, and cannot be reached afterwards. -/
def broken : Loop :=
  run step (start boot) [.udp 7 (List.replicate netRecHdrSize 0) silent, .reconnect none]

/-- On the one run evlogrmtd does not hear who wants to connect, on the
other it asks select about a descriptor that is closed. -/
theorem left_out : (deaf.tcpSd ∈ deaf.allSds ∧ deaf.maxsd < deaf.tcpSd ∧ ¬deaf.SelectOk) ∧
      3 ∈ broken.allSds ∧ 3 ∉ broken.opened ∧ ¬broken.SelectOk := by
  have hdeaf : deaf.tcpSd ∈ deaf.allSds ∧ deaf.maxsd < deaf.tcpSd := by decide
  have hbroken : 3 ∈ broken.allSds ∧ 3 ∉ broken.opened := by decide
  generalize deaf = s at hdeaf ⊢
  generalize broken = t at hbroken ⊢
  refine ⟨⟨hdeaf.1, hdeaf.2, fun hok => ?_⟩, hbroken.1, hbroken.2, fun hok => ?_⟩
  · exact absurd (hok.bound _ hdeaf.1) (not_le.2 hdeaf.2)
  · exact hbroken.2 (hok.opened _ hbroken.1)

end Loop

end Evlog.Evlogd.Rmt
