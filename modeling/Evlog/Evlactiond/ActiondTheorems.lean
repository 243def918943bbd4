/-
Evlog.Evlactiond.ActiondTheorems — as whom an action runs.

"The action will be executed on behalf of the user who registered it":
`RunsAsRegistered` says so of a state of the daemon. Every action in the
list bears the uid of the peer that added it, its command came from that
peer or from root, and so it was with every action that has been run.

The daemon keeps this up only with clients that help it (`Careful`). It
takes the uid of an action from the message and does not compare it with
the peer's, so a client that is not root gets a command run as root by
saying so. And a command with a newline in it is read back from the
registry as two actions (`not_runsAsRegistered` has both).

For careful clients the property holds in every state, over restarts and
crashes and whatever else happens (`actions_run_as_registered`). The
invariant adds to it what the registry needs: each line of the file, if it
is read as an action at all, gives the uid its bytes were written for.
-/
import Evlog.Lib.Transition
import Evlog.Evlactiond.RegistryTheorems

namespace Evlog.Evlactiond

open Evlog.Lib

/-! ## The property -/

/-- With this uid the action is run as who registered it, and the command is
that user's own or root's. -/
def Origin.Permits (origin : Origin) (uid : UInt32) : Prop :=
  uid = origin.owner ∧ (origin.cmdBy = origin.owner ∨ origin.cmdBy = 0)

structure RunsAsRegistered (d : Actiond) : Prop where
  defined : d.status ≠ .undefined
  actions : ∀ act ∈ d.actions, act.origin.Permits act.hdr.uid
  children : ∀ child ∈ d.children, child.origin.Permits child.uid

/-! ## What is asked of the clients -/

/-- An action is added under the peer's own uid. The strings of one that is
to be persistent leave the separators of the registry alone, and so does
a new command for one. -/
def CarefulRequest (env : RequestEnv) (d : Actiond) (uid : UInt32) : Request → Prop
  | .add hdr quStr cmd name anyStr =>
    env.notifyAdd = true →
      hdr.uid = uid ∧
        (hdr.flags &&& posixLogActionPersist ≠ 0 → Printable quStr cmd name anyStr)
  | .change id cmd =>
    ∀ act, findAction d.actions id = some act → mayTouch act uid = true →
      act.persistent = true → IsField cmd
  | _ => True

/-- What comes in on a connection is a careful request, and evlnotifyd
takes the queries of the actions that are loaded. -/
def Careful (d : Actiond) : Event → Prop
  | .start env => env.notifyAdd = true
  | .request ci s env =>
    ∀ uid r, d.clients[ci]? = some (some uid) → readRequest env.malloc s = some r →
      CarefulRequest env d uid r
  | _ => True

/-! ## The invariant -/

/-- An action that can be written to the registry and come back. -/
structure Kept (act : NfyAction) : Prop where
  permits : act.origin.Permits act.hdr.uid
  printable : act.persistent = true → Printable act.quStr act.cmd act.name act.anyStr

structure Inv (d : Actiond) : Prop where
  defined : d.status ≠ .undefined
  actions : ∀ act ∈ d.actions, Kept act
  children : ∀ child ∈ d.children, child.origin.Permits child.uid
  registry : ∀ line ∈ registryLines d.registry, ∀ passwd loaded, Loads passwd line loaded →
    loaded.origin.Permits loaded.hdr.uid

variable {d d' : Actiond} {uid : UInt32} {saved : Bool}

theorem Inv.runsAsRegistered (h : Inv d) : RunsAsRegistered d :=
  ⟨h.defined, fun act hact => (h.actions act hact).permits, h.children⟩

/-- The list changes and the rest of what matters does not. -/
theorem Inv.of_actions (h : Inv d) (hstatus : d'.status = d.status)
    (hregistry : d'.registry = d.registry) (hchildren : d'.children = d.children)
    (hactions : ∀ act ∈ d'.actions, Kept act) : Inv d' where
  defined := by rw [hstatus]; exact h.defined
  actions := hactions
  children := by rw [hchildren]; exact h.children
  registry := by rw [hregistry]; exact h.registry

theorem refreshActionRegistry_inv (h : Inv d) : Inv (refreshActionRegistry saved d) := by
  rw [refreshActionRegistry]
  split
  · refine ⟨h.defined, h.actions, h.children, ?_⟩
    have hprintable : ∀ act ∈ d.actions.filter NfyAction.persistent,
        Printable act.quStr act.cmd act.name act.anyStr := by
      intro act hact
      obtain ⟨hmem, hpersist⟩ := List.mem_filter.1 hact
      exact (h.actions act hmem).printable hpersist
    intro line hline passwd loaded hload
    rw [registryLines_flatMap hprintable] at hline
    obtain ⟨act, hact, rfl⟩ := List.mem_map.1 hline
    obtain ⟨huid, horigin⟩ := loads_writeActionToFile (hprintable act hact) hload
    rw [huid, horigin]
    exact (h.actions act (List.mem_filter.1 hact).1).permits
  · exact h

/-! ## Commands -/

variable {cmd name : CString}

theorem registerAction_inv (h : Inv d) {notifyAdd : Bool} {hdr : NfyActionHdr}
    {quStr anyStr : CString} (hcareful : notifyAdd = true → hdr.uid = uid ∧
      (hdr.flags &&& posixLogActionPersist ≠ 0 → Printable quStr cmd name anyStr)) :
    Inv (registerAction uid notifyAdd saved d hdr quStr cmd name anyStr) := by
  rw [registerAction]
  split
  · rename_i hadd
    obtain ⟨huid, hprintable⟩ := hcareful hadd
    let action : NfyAction :=
      { hdr := { hdr with nfyId := d.nextNfyId + 1 }, quStr, cmd, name, anyStr,
        origin := ⟨uid, uid⟩ }
    have hnew : Kept action :=
      ⟨⟨huid, .inl rfl⟩, fun hpersist => hprintable (by simpa [action, NfyAction.persistent] using hpersist)⟩
    have hadded : Inv { d with nextNfyId := d.nextNfyId + 1, actions := d.actions ++ [action] } := by
      refine h.of_actions rfl rfl rfl ?_
      intro act hact
      rcases List.mem_append.1 hact with hold | hact
      · exact h.actions act hold
      · rw [List.mem_singleton.1 hact]
        exact hnew
    dsimp only
    split
    · exact refreshActionRegistry_inv hadded
    · exact hadded
  · exact h

theorem removeAction_inv (h : Inv d) (id : Int32) : Inv (removeAction saved d id uid) := by
  rw [removeAction]
  dsimp only
  split
  · exact h
  · have hremoved : ∀ ctr goes,
        Inv { d with actions := d.actions.eraseP goes, listDirtyCtr := ctr } := fun ctr goes =>
      h.of_actions rfl rfl rfl fun act hact => h.actions act (List.mem_of_mem_eraseP hact)
    split
    · refine Inv.of_actions (refreshActionRegistry_inv (hremoved _ _)) rfl rfl rfl ?_
      exact (refreshActionRegistry_inv (hremoved _ _)).actions
    · exact hremoved _ _

variable {acts : List NfyAction} {act : NfyAction}

/-- Of a list with a new command somewhere, every action is an old one or
the one that got it. -/
theorem mem_setCmd {id : Int32} (h : act ∈ setCmd id cmd uid acts) :
    act ∈ acts ∨ ∃ old, findAction acts id = some old ∧
      act = { old with cmd, origin := { old.origin with cmdBy := uid } } := by
  induction acts with
  | nil => simp [setCmd] at h
  | cons a acts ih =>
    simp only [setCmd] at h
    split at h
    · rename_i hid
      rcases List.mem_cons.1 h with rfl | hmem
      · exact .inr ⟨a, by simp [findAction, hid], rfl⟩
      · exact .inl (List.mem_cons_of_mem a hmem)
    · rename_i hid
      rcases List.mem_cons.1 h with rfl | hmem
      · exact .inl List.mem_cons_self
      · rcases ih hmem with hold | ⟨old, hfind, heq⟩
        · exact .inl (List.mem_cons_of_mem a hold)
        · refine .inr ⟨old, ?_, heq⟩
          simpa [findAction, hid] using hfind

theorem modifyAction_inv (h : Inv d) {id : Int32}
    (hcareful : ∀ act, findAction d.actions id = some act → mayTouch act uid = true →
      act.persistent = true → IsField cmd) : Inv (modifyAction saved d id cmd uid) := by
  rw [modifyAction]
  split
  · exact h
  rename_i act hfind
  split
  · rename_i hmay
    have hact : Kept act := h.actions act (List.mem_of_find?_eq_some hfind)
    have hby : uid = act.origin.owner ∨ uid = 0 := by
      rw [mayTouch, Bool.or_eq_true, beq_iff_eq, beq_iff_eq, hact.permits.1] at hmay
      exact hmay.imp_left Eq.symm
    have hnew : Inv { d with actions := setCmd id cmd uid d.actions } := by
      refine h.of_actions rfl rfl rfl ?_
      intro a ha
      rcases mem_setCmd ha with hold | ⟨old, hold, rfl⟩
      · exact h.actions a hold
      · obtain rfl : act = old := Option.some.inj (hfind.symm.trans hold)
        refine ⟨⟨hact.permits.1, hby⟩, fun hpersist => ?_⟩
        have hprintable := hact.printable hpersist
        exact ⟨hprintable.quStr, hcareful act hfind hmay hpersist, hprintable.name,
          hprintable.anyStr⟩
    dsimp only
    split
    · exact refreshActionRegistry_inv hnew
    · exact hnew
  · exact h

/-- Sending an action changes only the lengths in its header. -/
theorem writeAction_kept (h : Kept act) : Kept (writeAction act) :=
  ⟨h.permits, h.printable⟩

theorem listActions_kept {written : Nat} (h : ∀ act ∈ acts, Kept act) :
    ∀ act ∈ listActions uid written acts, Kept act := by
  induction acts generalizing written with
  | nil => simp [listActions]
  | cons a acts ih =>
    rw [List.forall_mem_cons] at h
    unfold listActions
    split
    · split
      · exact List.forall_mem_cons.2 ⟨writeAction_kept h.1, h.2⟩
      · exact List.forall_mem_cons.2 ⟨writeAction_kept h.1, ih h.2⟩
    · exact List.forall_mem_cons.2 ⟨h.1, ih h.2⟩

theorem listActionByName_kept (h : ∀ act ∈ acts, Kept act) :
    ∀ act ∈ listActionByName uid name acts, Kept act := by
  induction acts with
  | nil => simp [listActionByName]
  | cons a acts ih =>
    rw [List.forall_mem_cons] at h
    rw [listActionByName]
    split
    · refine List.forall_mem_cons.2 ⟨?_, h.2⟩
      split
      · exact writeAction_kept h.1
      · exact h.1
    · exact List.forall_mem_cons.2 ⟨h.1, ih h.2⟩

theorem doRequest_inv (h : Inv d) {env : RequestEnv} {r : Request}
    (hcareful : CarefulRequest env d uid r) : Inv (doRequest env uid d r) := by
  cases r with
  | add hdr quStr cmd name anyStr => exact registerAction_inv h hcareful
  | remove id => exact removeAction_inv h id
  | change id cmd => exact modifyAction_inv h hcareful
  | listAll => exact h.of_actions rfl rfl rfl (listActions_kept h.actions)
  | listByName name => exact h.of_actions rfl rfl rfl (listActionByName_kept h.actions)
  | unknown => exact h

/-! ## Starting -/

theorem loadLine_inv (h : Inv d) {passwd : UInt32 → Bool} {line : List (UInt8 × Origin)}
    (hline : line ∈ registryLines d.registry) (hload : loadLine passwd d line = some d') :
    Inv d' ∧ d'.registry = d.registry := by
  obtain ⟨n, rfl | ⟨loaded, hloads, rfl⟩⟩ := loadLine_cases hload
  · exact ⟨h.of_actions rfl rfl rfl h.actions, rfl⟩
  · refine ⟨h.of_actions rfl rfl rfl ?_, rfl⟩
    intro act hact
    rcases List.mem_append.1 hact with hold | hact
    · exact h.actions act hold
    · rw [List.mem_singleton.1 hact]
      exact ⟨h.registry line hline passwd loaded hloads, fun _ => printable_of_loads hline hloads⟩

theorem loadLines_inv {passwd : UInt32 → Bool} {lines : List (List (UInt8 × Origin))} (h : Inv d)
    (hlines : ∀ line ∈ lines, line ∈ registryLines d.registry)
    (hload : lines.foldlM (loadLine passwd) d = some d') : Inv d' := by
  induction lines generalizing d with
  | nil =>
    cases hload
    exact h
  | cons line lines ih =>
    rw [List.foldlM_cons, Option.bind_eq_bind, Option.bind_eq_some_iff] at hload
    obtain ⟨d₁, hline, hrest⟩ := hload
    rw [List.forall_mem_cons] at hlines
    obtain ⟨h₁, hregistry⟩ := loadLine_inv h hlines.1 hline
    exact ih h₁ (by rw [hregistry]; exact hlines.2) hrest

theorem exit_inv (h : Inv d) : Inv (exit d) :=
  ⟨by simp [exit], by simp [exit], h.children, h.registry⟩

theorem loadActionsFromFile_inv (h : Inv d) {env : StartEnv} (hnotify : env.notifyAdd = true) :
    Inv (loadActionsFromFile env d) := by
  rw [loadActionsFromFile]
  split
  · split
    · exact exit_inv h
    · rename_i d' hload
      rw [hnotify, Bool.true_or, if_pos rfl]
      exact loadLines_inv h (fun _ hline => hline) hload
  · exact h

/-! ## Running -/

theorem execute_inv (h : Inv d) {env : ExecEnv} (hact : act ∈ d.actions) :
    Inv (execute env d act) := by
  rw [execute]
  split
  · refine ⟨h.defined, h.actions, ?_, h.registry⟩
    intro child hchild
    rcases List.mem_append.1 hchild with hold | hchild
    · exact h.children child hold
    · rw [List.mem_singleton.1 hchild]
      exact (h.actions act hact).permits
  · exact h

theorem actionsHandler_inv (h : Inv d) {env : ExecEnv} {due : Bool} {id : Int32} :
    Inv (actionsHandler env due d id) := by
  rw [actionsHandler]
  split
  · exact h
  rename_i act hfind
  have hrun : Inv (execute env d act) := execute_inv h (List.mem_of_find?_eq_some hfind)
  split
  · split
    · exact hrun
    · exact h
  · exact hrun

/-! ## The daemon -/

theorem step_inv (d : Actiond) (e : Event) (h : Inv d) (hcareful : Careful d e) : Inv (step d e) := by
  unfold step
  split
  case h_1 env =>
    refine loadActionsFromFile_inv ?_ hcareful
    exact ⟨by simp, by simp, h.children, h.registry⟩
  case h_2 uid granted =>
    rw [acceptClient]
    split
    · split
      · exact h.of_actions rfl rfl rfl h.actions
      · exact h
    · exact h
  case h_3 ci s env =>
    rw [processNotifyCmd]
    split
    · rename_i uid hclient
      split
      · exact h.of_actions rfl rfl rfl h.actions
      · rename_i r hr
        exact doRequest_inv h (hcareful uid r hclient hr)
    · exact h
  case h_4 id due env => exact actionsHandler_inv h
  case h_5 saved => exact exit_inv (refreshActionRegistry_inv h)
  case h_6 => exact exit_inv h
  case h_7 => exact h

def Comments (registry : List (UInt8 × Origin)) : Prop :=
  ∀ line ∈ registryLines registry, ∀ b ∈ line.head?, b.1 = 35 ∨ b.1 = newline

theorem beforeStart_inv {registry : List (UInt8 × Origin)} (h : Comments registry) :
    Inv (beforeStart registry) := by
  refine ⟨by simp [beforeStart], by simp [beforeStart], by simp [beforeStart], ?_⟩
  rintro line hline passwd loaded ⟨b, origin, rest, id, s, rfl, hb, -⟩
  exact absurd (h _ hline _ rfl) hb

/-- With careful clients an action runs only as the user who registered it,
in every state of every run: whatever clients connect and send, however
often the daemon is started again from its registry. -/
theorem actions_run_as_registered {registry : List (UInt8 × Origin)} (hregistry : Comments registry)
    {es : List Event} (hes : Meets step Careful (beforeStart registry) es) :
    RunsAsRegistered (run step (beforeStart registry) es) :=
  (run_invariant_of_meets Inv step_inv (beforeStart_inv hregistry) hes).runsAsRegistered

/-! ## Clients that are careful, and clients that are not -/

/-- What `addNfyAction` of evlnotify sends, had it the choice of the uid. -/
def addMessage (uid : Nat) (flags : Nat) (quStr cmd name anyStr : List UInt8) : ByteStream :=
  [[0, 0, uid, 100, flags, quStr.length, cmd.length, name.length, anyStr.length, 0, 0, 0].flatMap
      (leBytes 4), quStr, cmd, name, anyStr]

def nullQuery : List UInt8 := [60, 110, 117, 108, 108, 62]

/-- Add the command "id", with more text behind it, for every record. The
daemon gets all it asks for. -/
def addId (uid : Nat) (flags : Nat) (more : List UInt8) : Event :=
  .request 0 (addMessage uid flags nullQuery ([105, 100] ++ more) [110] [97])
    ⟨fun _ => true, true, true, 0⟩

/-- A user with uid 1000 connects to a daemon that was just started. -/
def connected : List Event := [.start ⟨true, fun _ => true, true⟩, .connect 1000 true]

def notified (id : Int32) : Event := .notify id true ⟨true, fun _ => true, true⟩

/-- The user adds a persistent action of its own, which is run before and
after the daemon is stopped and started again. -/
def ownRun : List Event :=
  connected ++ [addId 1000 0x10 [], notified 1, .terminate true, .start ⟨true, fun _ => true, true⟩,
    notified 1]

set_option maxRecDepth 20000

theorem actions_run_as_registered_ownRun :
    (run step (beforeStart []) ownRun).children.map Child.uid = [1000, 1000] ∧
      RunsAsRegistered (run step (beforeStart []) ownRun) := by
  refine ⟨by decide, actions_run_as_registered (by simp [Comments, registryLines, fgetsAll]) ?_⟩
  refine ⟨rfl, trivial, ?_, trivial, trivial, rfl, trivial, trivial⟩
  intro uid r hclient hr
  obtain rfl : 1000 = uid := by
    have hslot : (run step (beforeStart []) connected).clients[0]? = some (some 1000) := by
      decide
    exact Option.some.inj (Option.some.inj (hslot.symm.trans hclient))
  have hread : readRequest (fun _ => true) (addMessage 1000 0x10 nullQuery ([105, 100] ++ []) [110] [97]) =
      some (.add ⟨0, 0, 1000, 100, 0x10, 6, 2, 1, 1, 0, 0, 0⟩ ⟨nullQuery, by decide⟩
        ⟨[105, 100], by decide⟩ ⟨[110], by decide⟩ ⟨[97], by decide⟩) := by
    decide
  obtain rfl := Option.some.inj (hread.symm.trans hr)
  intro _
  refine ⟨rfl, fun _ => ⟨⟨?_, ?_, ?_⟩, ⟨?_, ?_, ?_⟩, ?_, ?_⟩⟩ <;> decide

/-- The user adds an action under the uid of root, and the command is run
as root. Or it adds one as itself with the command
"id:1:1:0:0:0\n7:<null>:id:0:0:0:0:0"; when the daemon has been started
again, the second line of it is an action of root. -/
theorem not_runsAsRegistered :
    ¬ RunsAsRegistered (run step (beforeStart []) (connected ++ [addId 0 0 [], notified 1])) ∧
    ¬ RunsAsRegistered (run step (beforeStart []) (connected ++
      [addId 1000 0x10 ([58, 49, 58, 49, 58, 48, 58, 48, 58, 48, 10, 55, 58] ++ nullQuery ++
        [58, 105, 100, 58, 48, 58, 48, 58, 48, 58, 48, 58, 48]), .crash,
        .start ⟨true, fun _ => true, true⟩, notified 7])) := by
  have hroot : ¬ (Origin.mk 1000 1000).Permits 0 := fun h => absurd h.1 (by decide)
  refine ⟨fun h => hroot (h.children ⟨0, ⟨[105, 100], by decide⟩, ⟨1000, 1000⟩⟩ ?_),
    fun h => hroot (h.children ⟨0, ⟨[105, 100], by decide⟩, ⟨1000, 1000⟩⟩ ?_)⟩
  · decide
  · decide

end Evlog.Evlactiond
