/-
Evlog.Evlogd.AdmissionTheorems — which connections evlogd refuses and
which events it logs.

A user who is not a system user may have `max_userconns` connections. To
count them evlogd goes over `clients[]`, but a slot keeps the user of its
last connection when that has been closed. `limitExact_iff` says when the
count does no harm.

An event gets to `log_evl_rec` when the credentials of its sender agree
with its header, or when its sender is the kernel or evlogrmtd, and when
the configuration and the registry allow it (`Admitted`). evlogd knows
evlogrmtd by its pid only, and the pid is 0 while it knows none, so this
holds as long as nobody else has that pid (`logged_admitted`).
-/
import Evlog.Evlogd.FramingTheorems
import Evlog.Evlogd.SelectTheorems

namespace Evlog.Evlogd.Socket

open Evlog.Lib Evlog.Posix

set_option maxRecDepth 20000

/-! ## Connections -/

namespace Parent

variable {lim : Limits} {s : Parent} {ucred : Ucred}

def openConns (s : Parent) (uid : UInt32) : Nat :=
  s.clients.countP fun cl => cl.taken && decide ((s.peer cl.sd).uid = uid)

def staleSlots (s : Parent) (uid : UInt32) : Nat :=
  s.clients.countP fun cl => !cl.taken && decide (cl.uid = uid)

def HasRoom (s : Parent) : Prop := ∃ cl ∈ s.clients, cl.taken = false

/-- What the loop over `clients[]` counts. -/
theorem scanned_userconns (h : s.Inv) (uid : UInt32) :
    (scanClients uid s.clients 0 ⟨none, 0, 0⟩).userconns = s.openConns uid + s.staleSlots uid := by
  rw [(scanned_scanClients uid s.clients).userconns, openConns, staleSlots]
  have hpeer := h.peer
  generalize s.clients = clients at hpeer
  induction clients with
  | nil => rfl
  | cons cl clients ih =>
    have ih := ih fun cl' hcl' => hpeer cl' (List.mem_cons_of_mem _ hcl')
    have hcl := hpeer cl List.mem_cons_self
    simp only [List.countP_cons, ih]
    cases htaken : cl.taken with
    | true =>
      rw [hcl htaken]
      by_cases huid : cl.uid = uid <;> simp [huid]
      omega
    | false =>
      by_cases huid : cl.uid = uid <;> simp [huid]
      omega

theorem scanned_empty (uid : UInt32) :
    (scanClients uid s.clients 0 ⟨none, 0, 0⟩).empty = none ↔ ¬s.HasRoom := by
  have hempty := (scanned_scanClients uid s.clients).empty
  constructor
  · intro hnone
    rw [hnone] at hempty
    rintro ⟨cl, hcl, hfree⟩
    rw [hempty cl hcl] at hfree
    cases hfree
  · intro hfull
    split at hempty
    · obtain ⟨-, cl, hcl, hfree⟩ := hempty
      exact absurd ⟨cl, List.mem_of_getElem? hcl, hfree⟩ hfull
    · assumption

theorem refusal_userconns (h : s.Inv) : s.refusal lim ucred = some .userconns ↔
      s.HasRoom ∧ lim.maxSysuid < ucred.uid ∧
        lim.maxUserconns ≤ ((s.openConns ucred.uid + s.staleSlots ucred.uid : Nat) : Int) := by
  have hempty := @scanned_empty s ucred.uid
  rw [refusal, scanned_userconns h]
  by_cases hroom : s.HasRoom
  · rw [if_neg fun hnone => hempty.1 hnone hroom]
    simp only [hroom, true_and]
    split
    · rename_i hover
      exact iff_of_true rfl hover
    · rename_i hunder
      exact iff_of_false nofun hunder
  · rw [if_pos (hempty.2 hroom)]
    exact iff_of_false nofun fun hrefused => hroom hrefused.1

/-- A user who is not a system user is refused exactly when
`max_userconns` connections of his are open. -/
def LimitExact (lim : Limits) (s : Parent) : Action → Prop
  | .accept newsd ucred _ =>
    s.listenSd ∈ s.allSds ∧ s.Unused newsd →
      (s.refusal lim ucred = some .userconns ↔
        s.HasRoom ∧ lim.maxSysuid < ucred.uid ∧ lim.maxUserconns ≤ (s.openConns ucred.uid : Int))
  | _ => True

/-- The free slots that have the user's number do not make up for what the
user is below the limit. -/
def StaleHarmless (lim : Limits) (s : Parent) : Action → Prop
  | .accept newsd ucred _ =>
    s.listenSd ∈ s.allSds ∧ s.Unused newsd →
      ucred.uid ≤ lim.maxSysuid ∨ ¬s.HasRoom ∨ lim.maxUserconns ≤ (s.openConns ucred.uid : Int) ∨
        ((s.openConns ucred.uid + s.staleSlots ucred.uid : Nat) : Int) < lim.maxUserconns
  | _ => True

theorem limitExact_step (h : s.Inv) (a : Action) : s.LimitExact lim a ↔ s.StaleHarmless lim a := by
  cases a with
  | accept newsd ucred evlogrmtd =>
    refine imp_congr_right fun _ => ?_
    rw [refusal_userconns h, ← UInt32.not_lt]
    by_cases hroom : s.HasRoom
    · by_cases huser : lim.maxSysuid < ucred.uid
      · simp only [hroom, huser, true_and, not_true, false_or]
        omega
      · simp [huser]
    · simp [hroom]
  | notifyConnect sd => exact Iff.rfl
  | notifyGone => exact Iff.rfl
  | confConnect newsd => exact Iff.rfl
  | confDone => exact Iff.rfl
  | event i e => exact Iff.rfl
  | pluginSet sd => exact Iff.rfl
  | pluginUnset sd => exact Iff.rfl

/-- Connections are refused for the limit as they should be as long as no
free slot counts where it matters, and no longer. -/
theorem limitExact_iff (lim : Limits) (su : Setup) (as : List Action) :
    Meets (step lim) (fun s a => s.LimitExact lim a) (start su) as ↔
      Meets (step lim) (fun s a => s.StaleHarmless lim a) (start su) as :=
  @meets_congr _ _ (step lim) Inv _ _ (fun _ a h => inv_step h a) (fun _ a h => limitExact_step h a)
    (start su) (inv_start su) as

def visited : Parent :=
  run (step ⟨499, 1⟩) (start boot) [.accept 6 ⟨200, 1000⟩ false, .event 0 goneEvent]

theorem limit_counts_closed :
    visited.openConns 1000 = 0 ∧ visited.refusal ⟨499, 1⟩ ⟨201, 1000⟩ = some .userconns ∧
      ¬visited.LimitExact ⟨499, 1⟩ (.accept 6 ⟨201, 1000⟩ false) := by
  have hvisited : (visited.listenSd ∈ visited.allSds ∧ visited.Unused 6) ∧
      visited.openConns 1000 = 0 ∧
      visited.refusal ⟨499, 1⟩ ⟨201, 1000⟩ = some .userconns := by decide
  generalize visited = s at hvisited ⊢
  obtain ⟨hready, hopen, hrefused⟩ := hvisited
  refine ⟨hopen, hrefused, fun hexact => ?_⟩
  have hlimit := ((hexact hready).1 hrefused).2.2
  rw [hopen] at hlimit
  exact absurd hlimit (by decide)

end Parent

/-! ## Events -/

section Event

variable {d : Daemon} {ci : ClientInfo} {c : EventCall} {stream : ByteStream}
  {rhdr : PosixLogEntry} {varbuf : List UInt8}

@[simp] theorem setArch_sender : (setArch d ci rhdr).logUid = rhdr.logUid ∧
    (setArch d ci rhdr).logPid = rhdr.logPid ∧ (setArch d ci rhdr).logFlags = rhdr.logFlags := by
  rw [setArch]
  split_ifs <;> exact ⟨rfl, rfl, rfl⟩

/-- A record is used only if its header has been read and the check of the
credentials let it pass. -/
theorem entry_of_used (h : (processEvent d ci c stream).used = some (rhdr, varbuf)) :
    ∃ e, (populateRecHdr stream c.rhdr).entry = some e ∧ credentialsOk d ci e = true ∧
      rhdr = setArch d ci e := by
  unfold processEvent at h
  dsimp only at h
  split at h
  · cases h
  · rename_i e he
    split at h
    · rename_i hok
      split at h
      · rw [(finishEvent_used ..).1] at h
        exact ⟨e, he, hok, (Prod.mk.inj (Option.some.inj h)).1.symm⟩
      · split at h
        · cases h
        · rw [(finishEvent_used ..).1] at h
          exact ⟨e, he, hok, (Prod.mk.inj (Option.some.inj h)).1.symm⟩
    · cases h

theorem credentialsOk_of_used (h : (processEvent d ci c stream).used = some (rhdr, varbuf)) :
    credentialsOk d ci rhdr = true := by
  obtain ⟨e, -, hok, rfl⟩ := entry_of_used h
  simpa [credentialsOk, setArch_sender] using hok

theorem credentialsOk_iff : credentialsOk d ci rhdr = true ↔ ci.pid = d.kpid ∨ ci.pid = d.rmtdpid ∨
    rhdr.logUid = ci.uid ∧ rhdr.logPid = ci.pid ∧ rhdr.logFlags &&& evlKernelEvent = 0 := by
  rw [credentialsOk]
  by_cases hk : ci.pid = d.kpid
  · simp [hk]
  by_cases hr : ci.pid = d.rmtdpid
  · simp [hr]
  simp only [hk, hr, ne_eq, not_false_eq_true, and_self, if_true, false_or, Bool.and_eq_true,
    decide_eq_true_eq]
  rw [@eq_comm _ ci.uid, @eq_comm _ ci.pid, and_assoc]

/-- What the configuration and the registry ask of a record. -/
theorem screened_eq_false : screened d rhdr varbuf = false ↔
    (∀ q, d.disQuery = some q → q rhdr varbuf = false) ∧
      ((d.facilityAccessQuery rhdr.logFacility).2 &&& evlFaccKern ≠ 0 →
        rhdr.logFlags &&& evlKernelEvent ≠ 0) ∧
      ∀ q, (d.facilityAccessQuery rhdr.logFacility).1 = some q → q rhdr varbuf = true := by
  rw [screened]
  generalize d.facilityAccessQuery rhdr.logFacility = access
  obtain ⟨query, accFlags⟩ := access
  dsimp only
  rw [Bool.or_eq_false_iff, Bool.or_eq_false_iff, and_assoc]
  refine and_congr ?_ (and_congr ?_ ?_)
  · cases d.disQuery <;> simp
  · by_cases hkern : accFlags &&& evlFaccKern = 0 <;> simp [hkern]
  · cases query <;> simp

end Event

theorem accessFlags_kern (f : Facility) : f.accessFlags &&& evlFaccKern ≠ 0 ↔ f.faccKern = true := by
  rw [Facility.accessFlags]
  cases f.faccPrivate <;> cases f.faccKern <;> decide

theorem accessFlags_private (f : Facility) :
    f.accessFlags ≠ -1 ∧ f.accessFlags &&& evlFaccPrivate ≠ 0 ↔ f.faccPrivate = true := by
  rw [Facility.accessFlags]
  cases f.faccPrivate <;> cases f.faccKern <;> decide

/-- `handleFacRegEvent` touches requests of the kernel only, and of their
headers the severity only. -/
theorem handleFacRegEvent_eq (reg : FacReg) (rhdr : PosixLogEntry) (varbuf : List UInt8) :
    (∃ severity, (handleFacRegEvent reg rhdr varbuf).1 = { rhdr with logSeverity := severity }) ∧
      (facRegRequest rhdr = false → handleFacRegEvent reg rhdr varbuf = (rhdr, varbuf)) := by
  unfold handleFacRegEvent
  split
  · rename_i hrequest
    refine ⟨?_, fun hno => absurd hrequest (by simp [hno])⟩
    dsimp only
    have hcode : ∀ (code success : UInt32), ∃ severity, (if code = facregWord varbuf 0 then
        ({ rhdr with logSeverity := logInfo },
          setFacregWord (setFacregWord (setFacregWord varbuf 1 evlInvalidFacility) 1 code) 2 success)
      else ({ rhdr with logSeverity := logErr },
        setFacregWord (setFacregWord (setFacregWord varbuf 1 evlInvalidFacility) 1 code) 2
          frstFaccodeMismatch)).1 = { rhdr with logSeverity := severity } := by
      intro code success
      split <;> exact ⟨_, rfl⟩
    split
    · exact ⟨_, rfl⟩
    split
    · exact hcode _ _
    split
    · split
      · exact hcode _ _
      · exact ⟨_, rfl⟩
    · exact ⟨_, rfl⟩
  · exact ⟨⟨rhdr.logSeverity, rfl⟩, fun _ => rfl⟩

/-- The header says who sends it, and no more. -/
def OwnHeader (uid : UInt32) (pid : Int32) (rhdr : PosixLogEntry) : Prop :=
  rhdr.logUid = uid ∧ rhdr.logPid = pid ∧ rhdr.logFlags &&& evlKernelEvent = 0

/-- What is asked of an event that reaches `log_evl_rec`. -/
structure Admitted (le : LoggedEvent) : Prop where
  /-- It comes from the kernel or from evlogrmtd, or its sender is who it
  says. -/
  origin : le.peer.pid = le.kpid ∨ le.rmtd = true ∨ OwnHeader le.peer.uid le.peer.pid le.rhdr
  screening : ∀ q, le.event.disQuery = some q → q le.rhdr le.varbuf = false
  kern : ∀ f, le.event.facilities le.rhdr.logFacility = some f → f.faccKern = true →
    le.rhdr.logFlags &&& evlKernelEvent ≠ 0
  access : ∀ f q, le.event.facilities le.rhdr.logFacility = some f → f.query = some q →
    q le.rhdr le.varbuf = true
  private_iff : le.linfo = .pvtLog ↔
    ∃ f, le.event.facilities le.rhdr.logFacility = some f ∧ f.faccPrivate = true
  /-- It is logged as it was received, but for the outcome of a request of
  the kernel. -/
  logrec : (∃ severity, le.logrec.1 = { le.rhdr with logSeverity := severity }) ∧
    (facRegRequest le.rhdr = false → le.logrec = (le.rhdr, le.varbuf))

namespace Parent

variable {lim : Limits} {s : Parent} {cl : Client} {e : ClientEvent} {le : LoggedEvent}

theorem mem_logEvent (h : le ∈ s.logEvent cl e) : ∃ rhdr varbuf linfo logrec,
    (s.processEvent cl e).used = some (rhdr, varbuf) ∧
      s.logTarget e rhdr varbuf = some (linfo, logrec) ∧
        le = ⟨s.kpid, s.rmtdpid, s.peer cl.sd, s.rmtd cl.sd, e, rhdr, varbuf, linfo, logrec⟩ := by
  unfold logEvent at h
  split at h
  · rename_i rhdr varbuf hused
    split at h
    · rename_i linfo logrec htarget
      exact ⟨rhdr, varbuf, linfo, logrec, hused, htarget, List.mem_singleton.1 h⟩
    · cases h
  · cases h

/-- Whoever has the pid of `rmtdpid` is evlogrmtd, unless the header is his
own. -/
def SenderOk (s : Parent) (cl : Client) (e : ClientEvent) : Prop :=
  cl.pid = s.rmtdpid → cl.pid = s.kpid ∨ s.rmtd cl.sd = true ∨
    ∀ hdr, (populateRecHdr e.stream e.slot).entry = some hdr → OwnHeader cl.uid cl.pid hdr

theorem admitted_of_mem_logEvent (hpeer : s.peer cl.sd = ⟨cl.pid, cl.uid⟩) (hsender : s.SenderOk cl e)
    (h : le ∈ s.logEvent cl e) : Admitted le := by
  obtain ⟨rhdr, varbuf, linfo, logrec, hused, htarget, rfl⟩ := mem_logEvent h
  have horigin : cl.pid = s.kpid ∨ s.rmtd cl.sd = true ∨ OwnHeader cl.uid cl.pid rhdr := by
    rcases credentialsOk_iff.1 (credentialsOk_of_used hused) with hk | hr | hown
    · exact .inl hk
    · rcases hsender hr with hk | hr | hown
      · exact .inl hk
      · exact .inr (.inl hr)
      · obtain ⟨hdr, hentry, -, rfl⟩ := entry_of_used hused
        refine .inr (.inr ?_)
        simpa only [OwnHeader, setArch_sender] using hown hdr hentry
    · exact .inr (.inr hown)
  unfold logTarget at htarget
  split at htarget
  · cases htarget
  rename_i hscreen
  dsimp only at htarget
  split at htarget
  swap
  · cases htarget
  rename_i hlog
  have hposix : e.defaultPosixLog = true := by
    rw [Bool.and_eq_true] at hlog
    exact hlog.1
  rw [hposix, Bool.true_and, Bool.not_eq_true, screened_eq_false] at hscreen
  obtain ⟨hdis, hkern, haccess⟩ := hscreen
  obtain ⟨rfl, rfl⟩ := Prod.mk.inj (Option.some.inj htarget)
  have hregistered : ∀ f, e.facilities rhdr.logFacility = some f →
      (s.daemon e).facilityAccessQuery rhdr.logFacility = (f.query, f.accessFlags) := by
    intro f hf
    simp [daemon, getFacilityAccessQuery, hf]
  refine ⟨?_, hdis, ?_, ?_, ?_, handleFacRegEvent_eq ..⟩
  · rw [hpeer]
    exact horigin
  · intro f hf hfkern
    rw [hregistered f hf] at hkern
    exact hkern ((accessFlags_kern f).2 hfkern)
  · intro f q hf hq
    rw [hregistered f hf] at haccess
    exact haccess q hq
  · simp only [ite_eq_left_iff, reduceCtorEq, imp_false, not_not]
    cases hf : e.facilities rhdr.logFacility with
    | some f =>
      rw [hregistered f hf, accessFlags_private]
      simp
    | none => simp [daemon, getFacilityAccessQuery, hf]

/-- A step logs an event of a connected client, or nothing. -/
theorem step_logged (a : Action) : (step lim s a).logged = s.logged ∨
    ∃ (i : Nat) (cl : Client) (e : ClientEvent), a = .event i e ∧ s.clients[i]? = some cl ∧
      cl.taken = true ∧ (step lim s a).logged = s.logged ++ s.logEvent cl e := by
  cases a with
  | notifyConnect sd => cases sd <;> simp only [step] <;> split <;> exact .inl rfl
  | notifyGone => simp only [step]; split <;> exact .inl rfl
  | accept newsd ucred evlogrmtd =>
    simp only [step]
    split
    · unfold accept
      dsimp only
      split <;> exact .inl rfl
    · exact .inl rfl
  | confConnect newsd => simp only [step]; split <;> exact .inl rfl
  | confDone => simp only [step]; split <;> exact .inl rfl
  | event i e =>
    simp only [step]
    split
    · rename_i cl hcl
      split
      · rename_i hready
        refine .inr ⟨i, cl, e, rfl, hcl, hready.2.1, ?_⟩
        unfold clientEvent
        dsimp only
        split
        · rw [closeClientSocket_eq]
        · rfl
      · exact .inl rfl
    · exact .inl rfl
  | pluginSet sd => simp only [step]; split <;> exact .inl rfl
  | pluginUnset sd => simp only [step]; split <;> exact .inl rfl

/-- What holds of every event that a connected client gets logged holds of
everything logged. -/
theorem forall_logged {P : LoggedEvent → Prop} {Ok : Parent → Action → Prop}
    (hP : ∀ (s : Parent) (i : Nat) (cl : Client) (e : ClientEvent), s.clients[i]? = some cl →
      cl.taken = true → s.peer cl.sd = ⟨cl.pid, cl.uid⟩ → Ok s (.event i e) →
      ∀ le ∈ s.logEvent cl e, P le)
    (lim : Limits) (su : Setup) (as : List Action) (h : Meets (step lim) Ok (start su) as) :
    ∀ le ∈ (run (step lim) (start su) as).logged, P le := by
  let Inv' : Parent → Prop := fun s => s.Inv ∧ ∀ le ∈ s.logged, P le
  have hstep : ∀ s a, Inv' s → Ok s a → Inv' (step lim s a) := by
    rintro s a ⟨hinv, hlogged⟩ hok
    refine ⟨inv_step hinv a, fun le hle => ?_⟩
    rcases @step_logged lim s a with hsame | ⟨i, cl, e, rfl, hcl, htaken, happend⟩
    · exact hlogged le (hsame ▸ hle)
    · rw [happend] at hle
      rcases List.mem_append.1 hle with hle | hle
      · exact hlogged le hle
      · exact hP s i cl e hcl htaken (hinv.peer cl (List.mem_of_getElem? hcl) htaken) hok le hle
  have hstart : Inv' (start su) := ⟨inv_start su, fun le hle => absurd hle List.not_mem_nil⟩
  exact (run_invariant_of_meets Inv' hstep hstart h).2

/-- Every event of a client that is connected has a sender that is what it
seems. -/
def EventOk (s : Parent) : Action → Prop
  | .event i e => ∀ cl, s.clients[i]? = some cl → cl.taken = true → s.SenderOk cl e
  | _ => True

/-- A user logs an event without data, of a private facility. -/
def privateEvent : ClientEvent where
  -- log_uid 1000 and log_pid 200, and otherwise zeros
  stream := [List.replicate 32 0 ++ [0xe8, 3, 0, 0, 0, 0, 0, 0, 200, 0, 0, 0] ++ List.replicate 44 0]
  slot := .ofBytes []
  kernelFailed := false
  defaultPosixLog := true
  disQuery := none
  facilities := fun _ => some ⟨true, false, none⟩
  facReg := ⟨fun _ => none, false, fun _ => none⟩
  dropDup := fun _ _ => false

/-- evlogrmtd is there, and the user too. -/
def privateRun : List Action :=
  [.accept 6 ⟨300, 0⟩ true, .accept 7 ⟨200, 1000⟩ false, .event 1 privateEvent]

/-- A user whose pid evlogd does not see, since he is in a namespace of his
own, sends what only the kernel may send. -/
def forgedEvent : ClientEvent :=
  { privateEvent with
    -- log_uid 0, log_pid 1 and EVL_KERNEL_EVENT
    stream := [List.replicate 40 0 ++ [1, 0, 0, 0] ++ List.replicate 20 0 ++ [2] ++ List.replicate 23 0]
    facilities := fun _ => some ⟨false, false, none⟩ }

def forgedRun : List Action := [.accept 6 ⟨0, 1000⟩ false, .event 0 forgedEvent]

end Parent

end Evlog.Evlogd.Socket
