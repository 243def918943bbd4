/-
Evlog.Evlnotifyd.HandleTheorems — when handles identify requests.

The list and the file are `Serial`: their handles increase and are not
above the counter. Registering keeps that, and so does everything that
only drops requests. A restart takes the counter from the last record it
makes a request of, so it keeps that if it is the last record of the file
(`RestoresHandle`), and `handles_identify_or_collide` is about the runs in
which every restart does. If one does not, the counter falls behind a
record that stays in the file, and after some registrations and another
restart two requests have the same handle.
-/
import Evlog.Lib.SerialList
import Evlog.Evlnotifyd.Notifyd

namespace Evlog.Evlnotifyd

open Evlog.Lib

/-! ## What is claimed, and the condition -/

/-- The answer to a status request that is about this request. -/
def NfyReq.status (req : NfyReq) : Reply where
  nhReqHandle := req.handle
  nhStatus := if req.flags &&& posixLogNfyDisabled = 0 then .nrsEnabled else .nrsDisabled
  info := some (req.flags, req.quExpr, req.sigevent)

/-- The requests have different handles, and the one with the handle is the
one whose status is given and the one that is removed. -/
structure HandlesIdentify (reqs : List NfyReq) : Prop where
  distinct : (reqs.map NfyReq.handle).Nodup
  status : ∀ req ∈ reqs, requestStatus reqs req.handle = req.status
  remove : ∀ req ∈ reqs, ∀ r, r ∈ removeNode reqs req.handle ↔ r ∈ reqs ∧ r ≠ req

def BelowWrap (s : Notifyd) : Action → Prop
  | .clientRequest _ msg _ => msg.nhMsgType = nmtNewRequest → s.notifyReqHandle.toNat + 1 < 2 ^ 64
  | _ => True

/-- `loadReqFromFile` returns -1 at the record. -/
def LoadAnswer.Stops (answer : LoadAnswer) (r : ReqRec) : Prop :=
  ¬ answer.readOk ∨ answer.validateProc ∧ r.queryStr ≠ nullqu ∧ ¬ answer.queryCreate

instance (answer : LoadAnswer) (r : ReqRec) : Decidable (answer.Stops r) :=
  inferInstanceAs (Decidable (_ ∨ _))

/-- No record from the `i`-th on stops the load. -/
def ReadsAll (answer : Nat → LoadAnswer) : Nat → List ReqRec → Prop
  | _, [] => True
  | i, r :: recs => ¬ (answer i).Stops r ∧ ReadsAll answer (i + 1) recs

instance decidableReadsAll (answer : Nat → LoadAnswer) :
    (i : Nat) → (recs : List ReqRec) → Decidable (ReadsAll answer i recs)
  | _, [] => .isTrue trivial
  | i, _ :: recs =>
    have := decidableReadsAll answer (i + 1) recs
    inferInstanceAs (Decidable (_ ∧ _))

/-- No record stops the load, and the process of the last one is there. -/
def ReadsLast (answer : Nat → LoadAnswer) : Nat → List ReqRec → Prop
  | _, [] => True
  | i, r :: recs =>
    ¬ (answer i).Stops r ∧ (recs = [] → (answer i).validateProc) ∧ ReadsLast answer (i + 1) recs

/-- The load gets to the last record of the file and makes a request of it,
unless there is none or the file is lost then. -/
def RestoresHandle (recs : List ReqRec) (load : LoadEnv) : Prop :=
  recs = [] ∨
  match load.outcome with
  | .notOpened | .failed => False
  | .unlinked => ReadsAll load.answer 0 recs
  | .succeeded => ReadsLast load.answer 0 recs

/-- Every restart finds the last record's process, in the sense above. -/
def Restores (s : Notifyd) : Action → Prop
  | .restart sigterm load => RestoresHandle ((fileLeft s sigterm).getD []) load
  | _ => True

/-! ## Serial handles -/

def reqKey (req : NfyReq) : Nat := req.handle.toNat
def recKey (r : ReqRec) : Nat := r.handle.toNat

/-- The invariant. -/
structure Inv (s : Notifyd) : Prop where
  reqs : Serial reqKey s.notifyReqHandle.toNat s.reqs
  file : Serial recKey s.notifyReqHandle.toNat (s.file.getD [])

variable {n i : Nat} {reqs : List NfyReq}

theorem handlesIdentify_of_serial (h : Serial reqKey n reqs) : HandlesIdentify reqs := by
  have hdistinct : (reqs.map NfyReq.handle).Nodup := by
    have := h.nodup
    rw [show reqKey = UInt64.toNat ∘ NfyReq.handle from rfl, ← List.map_map] at this
    exact this.of_map _
  refine ⟨hdistinct, ?_, ?_⟩
  · intro req hreq
    have hfind : findRequest reqs req.handle = some req := find?_key hdistinct hreq
    rw [requestStatus, hfind]
    rfl
  · intro req hreq r
    have herase : removeNode reqs req.handle = reqs.filter fun r => r.handle ≠ req.handle :=
      eraseP_key hdistinct _
    rw [herase, List.mem_filter]
    refine and_congr_right fun hr => ?_
    have hinj : r.handle = req.handle ↔ r = req :=
      ⟨List.inj_on_of_nodup_map hdistinct hr hreq, congrArg _⟩
    simpa using not_congr hinj

theorem toRec_recKey {req : NfyReq} {r : ReqRec} (h : req.toRec = some r) : recKey r = reqKey req := by
  obtain ⟨cmd, -, rfl⟩ := Option.map_eq_some_iff.1 h
  rfl

variable {recs : List ReqRec}

theorem mapM_toRec_recKey (h : reqs.mapM NfyReq.toRec = some recs) :
    recs.map recKey = reqs.map reqKey := by
  induction reqs generalizing recs with
  | nil =>
    obtain rfl : [] = recs := Option.some.inj h
    rfl
  | cons req reqs ih =>
    rw [List.mapM_cons] at h
    simp only [Option.bind_eq_bind, Option.bind_eq_some_iff, Option.pure_def, Option.some.injEq] at h
    obtain ⟨r, hr, recs', hrecs, rfl⟩ := h
    rw [List.map_cons, List.map_cons, ih hrecs, toRec_recKey hr]

/-! ## What a step does to them -/

theorem reqs_removeZombies (validateProc : Nat → Bool) (reqs : List NfyReq) :
    (removeZombieRequestsInList validateProc reqs).Sublist reqs := by
  refine (List.filter_sublist.map Prod.fst).trans ?_
  rw [List.zipIdx_map_fst]

variable {file : Option (List ReqRec)}

theorem writeRequestsToFile_serial (outcome : FileOutcome) (hreqs : Serial reqKey n reqs)
    (hfile : Serial recKey n (file.getD [])) :
    Serial recKey n ((writeRequestsToFile outcome reqs file).getD []) := by
  unfold writeRequestsToFile
  split
  · exact serial_nil
  · split
    · exact hfile
    · exact serial_nil
    · exact serial_nil
    · exact serial_nil
    · next hrecs => exact hreqs.of_map_eq (mapM_toRec_recKey hrecs)

variable {s : Notifyd}

theorem flushRequestList_inv (env : FlushEnv) (h : Inv s) : Inv (flushRequestList env s) := by
  have hreqs := h.reqs.sublist (reqs_removeZombies env.validateProc s.reqs)
  refine ⟨hreqs, writeRequestsToFile_serial env.outcome ?_ h.file⟩
  exact hreqs.of_map_eq (by rw [List.map_map]; rfl)

theorem Inv.of_sublist {s' : Notifyd} (h : Inv s) (hreqs : s'.reqs.Sublist s.reqs)
    (hhandle : s'.notifyReqHandle = s.notifyReqHandle) (hfile : s'.file = s.file) : Inv s' := by
  refine ⟨?_, ?_⟩
  · rw [hhandle]
    exact h.reqs.sublist hreqs
  · rw [hhandle, hfile]
    exact h.file

theorem closeClientSocket_inv (h : Inv s) : Inv (closeClientSocket s) :=
  h.of_sublist List.filter_sublist rfl rfl

theorem removeRequestWithHandle_inv (handle : UInt64) (env : FlushEnv) (h : Inv s) :
    Inv (removeRequestWithHandle s handle env).1 := by
  unfold removeRequestWithHandle
  split
  · exact h
  · have hremoved : Inv { s with
        reqs := removeNode s.reqs handle, listDirtyCtr := s.listDirtyCtr + 1 } :=
      h.of_sublist List.eraseP_sublist rfl rfl
    dsimp only
    split
    · have := flushRequestList_inv env hremoved
      exact ⟨this.reqs, this.file⟩
    · exact hremoved

theorem appendReqToFile_serial {req : NfyReq} (outcome : FileOutcome) (hreq : reqKey req = n + 1)
    (hfile : Serial recKey n (file.getD [])) :
    Serial recKey (n + 1) ((appendReqToFile outcome req file).getD []) := by
  have hkept := hfile.mono (Nat.le_succ n)
  unfold appendReqToFile
  split
  · exact hkept
  · exact hkept
  · exact hkept
  · exact serial_nil
  · next hrec => exact hfile.append_succ ((toRec_recKey hrec).trans hreq)

theorem registerRequest_inv (ci : ClientInfo) (msg : NfyNewRqMsg) (env : RequestEnv)
    (hwrap : s.notifyReqHandle.toNat + 1 < 2 ^ 64) (h : Inv s) :
    Inv (registerRequest (fun req => req) s ci msg env).1 := by
  have hhandle : (s.notifyReqHandle + 1).toNat = s.notifyReqHandle.toNat + 1 := by
    rw [UInt64.toNat_add]
    exact Nat.mod_eq_of_lt hwrap
  unfold registerRequest
  split
  · exact h
  · split
    · exact h
    · refine ⟨?_, ?_⟩
      · dsimp only
        rw [hhandle]
        exact h.reqs.append_succ hhandle
      · dsimp only
        rw [hhandle]
        exact appendReqToFile_serial env.append hhandle h.file

theorem answerClient_inv (ci : ClientInfo) {msg : NfyNewRqMsg} (env : RequestEnv)
    (hwrap : BelowWrap s (.clientRequest ci msg env)) (h : Inv s) :
    Inv (answerClient (fun req => req) s ci msg env).1 := by
  unfold answerClient
  split
  · exact h
  · split
    case isTrue hnew => exact registerRequest_inv ci msg env (hwrap hnew) h
    · split
      · exact removeRequestWithHandle_inv msg.nhReqHandle env.flush h
      · split <;> exact h

theorem processClientRequest_inv (ci : ClientInfo) {msg : NfyNewRqMsg} (env : RequestEnv)
    (hwrap : BelowWrap s (.clientRequest ci msg env)) (h : Inv s) :
    Inv (processClientRequest (fun req => req) s ci msg env).1 := by
  have hanswer := answerClient_inv ci env hwrap h
  unfold processClientRequest
  dsimp only
  split
  · exact closeClientSocket_inv hanswer
  · exact hanswer

theorem notify_handle (req : NfyReq) (answer : EventAnswer) : (notify req answer).handle = req.handle := by
  unfold notify
  grind

theorem processEvent_inv (answer : Nat → EventAnswer) (h : Inv s) :
    Inv (processEvent s answer) := by
  refine ⟨h.reqs.of_map_eq ?_, h.file⟩
  have hkey : (fun x : NfyReq × Nat => reqKey (notify x.1 (answer x.2))) = reqKey ∘ Prod.fst := by
    funext x
    exact congrArg UInt64.toNat (notify_handle x.1 (answer x.2))
  rw [processEvent, List.map_map]
  change List.map (fun x : NfyReq × Nat => reqKey (notify x.1 (answer x.2))) s.reqs.zipIdx = _
  rw [hkey, ← List.map_map, List.zipIdx_map_fst]

/-! ## What a load does -/

def loaded (answer : Nat → LoadAnswer) : Nat → List ReqRec → List ReqRec
  | _, [] => []
  | i, r :: recs =>
    if (answer i).Stops r then []
    else if (answer i).validateProc then r :: loaded answer (i + 1) recs
    else loaded answer (i + 1) recs

/-- The counter after the requests of some records have been made. -/
def handleAfter (h : UInt64) (recs : List ReqRec) : UInt64 :=
  (recs.getLast?.map ReqRec.handle).getD h

theorem handleAfter_cons (h : UInt64) (r : ReqRec) (recs : List ReqRec) :
    handleAfter h (r :: recs) = handleAfter r.handle recs := by
  cases recs with
  | nil => rfl
  | cons r' recs => rfl

theorem loadRecords_cons (answer : Nat → LoadAnswer) (i : Nat) (r : ReqRec) (recs : List ReqRec)
    (s : Notifyd) :
    loadRecords answer i (r :: recs) s =
      if (answer i).Stops r then (s, false)
      else if (answer i).validateProc then
        loadRecords answer (i + 1) recs
          { s with reqs := s.reqs ++ [r.request], notifyReqHandle := r.handle }
      else loadRecords answer (i + 1) recs s := by
  rw [loadRecords]
  by_cases hread : (answer i).readOk
  · by_cases hproc : (answer i).validateProc
    · simp [LoadAnswer.Stops, hread, hproc]
    · simp [LoadAnswer.Stops, hread, hproc]
  · simp [LoadAnswer.Stops, hread]

/-- The loop in terms of the records it makes requests of. -/
theorem loadRecords_eq (answer : Nat → LoadAnswer) (i : Nat) (recs : List ReqRec) (s : Notifyd) :
    loadRecords answer i recs s =
      ({ s with
          reqs := s.reqs ++ (loaded answer i recs).map ReqRec.request
          notifyReqHandle := handleAfter s.notifyReqHandle (loaded answer i recs) },
        decide (ReadsAll answer i recs)) := by
  induction recs generalizing i s with
  | nil =>
    rw [loadRecords, loaded, List.map_nil, List.append_nil, decide_eq_true (by trivial)]
    rfl
  | cons r recs ih =>
    rw [loadRecords_cons, loaded]
    by_cases hstops : (answer i).Stops r
    · rw [if_pos hstops, if_pos hstops, List.map_nil, List.append_nil,
        decide_eq_false fun h => h.1 hstops]
      rfl
    · have hreads : ReadsAll answer i (r :: recs) ↔ ReadsAll answer (i + 1) recs :=
        and_iff_right hstops
      rw [if_neg hstops, if_neg hstops]
      simp only [hreads]
      by_cases hproc : (answer i).validateProc
      · rw [if_pos hproc, if_pos hproc, ih, handleAfter_cons]
        simp only [List.append_assoc, List.map_cons, List.singleton_append]
      · rw [if_neg hproc, if_neg hproc, ih]

theorem loaded_sublist (answer : Nat → LoadAnswer) (i : Nat) (recs : List ReqRec) :
    (loaded answer i recs).Sublist recs := by
  induction recs generalizing i with
  | nil => exact List.Sublist.slnil
  | cons r recs ih =>
    rw [loaded]
    split
    · exact List.nil_sublist _
    · split
      · exact (ih (i + 1)).cons_cons r
      · exact (ih (i + 1)).cons r

variable {answer : Nat → LoadAnswer}

theorem readsAll_of_readsLast (h : ReadsLast answer i recs) : ReadsAll answer i recs := by
  induction recs generalizing i with
  | nil => trivial
  | cons r recs ih => exact ⟨h.1, ih h.2.2⟩

/-- The last record is the last one that a request is made of. -/
theorem loaded_getLast (h : ReadsLast answer i recs) :
    (loaded answer i recs).getLast? = recs.getLast? := by
  induction recs generalizing i with
  | nil => rfl
  | cons r recs ih =>
    obtain ⟨hstops, hlast, hrest⟩ := h
    have hrec := ih hrest
    rw [loaded, if_neg hstops]
    cases recs with
    | nil =>
      rw [if_pos (hlast rfl)]
      rfl
    | cons r' recs =>
      rw [List.getLast?_cons_cons, ← hrec]
      split
      · have hne : loaded answer (i + 1) (r' :: recs) ≠ [] := by
          intro he
          rw [he, List.getLast?_cons] at hrec
          cases hrec
        rw [List.getLast?_cons_of_ne_nil hne]
      · rfl

theorem loaded_sublist_dropLast (h : ¬ ReadsLast answer i recs) :
    (loaded answer i recs).Sublist recs.dropLast := by
  induction recs generalizing i with
  | nil => exact absurd trivial h
  | cons r recs ih =>
    rw [loaded]
    by_cases hstops : (answer i).Stops r
    · rw [if_pos hstops]
      exact List.nil_sublist _
    · rw [if_neg hstops]
      cases recs with
      | nil =>
        have hproc : ¬ (answer i).validateProc := fun hproc => h ⟨hstops, fun _ => hproc, trivial⟩
        rw [if_neg hproc]
        exact List.nil_sublist _
      | cons r' recs =>
        have hrest := ih (i := i + 1) fun hrest => h ⟨hstops, nofun, hrest⟩
        rw [List.dropLast_cons_cons]
        split
        · exact hrest.cons_cons r
        · exact hrest.cons r

theorem handleAfter_toNat_lt {h : UInt64} (hh : h.toNat < n) (hrecs : ∀ r ∈ recs, recKey r < n) :
    (handleAfter h recs).toNat < n := by
  unfold handleAfter
  cases hlast : recs.getLast? with
  | none => exact hh
  | some r => exact hrecs r (List.mem_of_getLast? hlast)

/-- Serial records are so up to the counter that is taken from them. -/
theorem serial_handleAfter (h : Serial recKey n recs) :
    Serial recKey (handleAfter 0 recs).toNat recs := by
  rcases List.eq_nil_or_concat recs with rfl | ⟨l, r, rfl⟩
  · exact serial_nil
  · rw [List.concat_eq_append] at h ⊢
    have hlast : handleAfter 0 (l ++ [r]) = r.handle := by simp [handleAfter]
    rw [hlast]
    exact h.last

theorem requests_serial (h : Serial recKey n recs) : Serial reqKey n (recs.map ReqRec.request) := by
  refine h.of_map_eq ?_
  rw [List.map_map]
  rfl

/-- A load that gets to the last record, or does not find one, leaves serial
handles. -/
theorem loadReqFromFile_inv {load : LoadEnv} (hfile : Serial recKey n (file.getD []))
    (h : RestoresHandle (file.getD []) load) : Inv (loadReqFromFile load (initial file)) := by
  have hloaded := serial_handleAfter (hfile.sublist (loaded_sublist load.answer 0 (file.getD [])))
  have hreqs := requests_serial hloaded
  unfold loadReqFromFile initial
  rcases h with hnil | h
  · simp only [hnil, loadRecords]
    split
    · exact ⟨serial_nil, by simpa [hnil] using serial_nil⟩
    · exact ⟨serial_nil, serial_nil⟩
    · exact ⟨serial_nil, serial_nil⟩
    · exact ⟨serial_nil, serial_nil⟩
  · simp only [loadRecords_eq, List.nil_append]
    cases houtcome : load.outcome with
    | notOpened =>
      rw [houtcome] at h
      exact h.elim
    | failed =>
      rw [houtcome] at h
      exact h.elim
    | unlinked =>
      rw [houtcome] at h
      simp only [decide_eq_true (show ReadsAll load.answer 0 (file.getD []) from h), if_true]
      exact ⟨hreqs, serial_nil⟩
    | succeeded =>
      rw [houtcome] at h
      refine ⟨hreqs, ?_⟩
      have hlast : handleAfter 0 (loaded load.answer 0 (file.getD [])) = handleAfter 0 (file.getD []) := by
        rw [handleAfter, handleAfter, loaded_getLast h]
      simp only [hlast]
      exact serial_handleAfter hfile

/-! ## Runs -/

theorem fileLeft_serial (sigterm : Option FlushEnv) (h : Inv s) :
    Serial recKey s.notifyReqHandle.toNat ((fileLeft s sigterm).getD []) := by
  cases sigterm with
  | none => exact h.file
  | some env => exact (flushRequestList_inv env h).file

theorem initial_inv : Inv (initial none) := ⟨serial_nil, serial_nil⟩

theorem step_inv (s : Notifyd) (a : Action) (h : Inv s) (hstep : BelowWrap s a ∧ Restores s a) :
    Inv (step s a) := by
  cases a with
  | clientRequest ci msg env => exact processClientRequest_inv ci env hstep.1 h
  | event answer => exact processEvent_inv answer h
  | restart sigterm load => exact loadReqFromFile_inv (fileLeft_serial sigterm h) hstep.2

/-! ## A counter that falls behind -/

/-- A load that does not get to the last record leaves it in the file, and
leaves the counter below its handle. -/
theorem loadReqFromFile_behind {load : LoadEnv} (hfile : Serial recKey n (file.getD []))
    (h : ¬ RestoresHandle (file.getD []) load) :
    ∃ recs r, (loadReqFromFile load (initial file)).file = some (recs ++ [r]) ∧
      (loadReqFromFile load (initial file)).notifyReqHandle.toNat < recKey r := by
  obtain ⟨hne, h⟩ := not_or.1 h
  obtain ⟨recs, rfl⟩ : ∃ recs, file = some recs := by
    cases file with
    | none => exact absurd rfl hne
    | some recs => exact ⟨recs, rfl⟩
  obtain ⟨l, r, hl⟩ := (List.eq_nil_or_concat recs).resolve_left hne
  rw [List.concat_eq_append] at hl
  subst hl
  refine ⟨l, r, ?_⟩
  have hpos : 0 < recKey r := hfile.pos r (by simp)
  have hbehind : ¬ ReadsLast load.answer 0 (l ++ [r]) →
      (handleAfter 0 (loaded load.answer 0 (l ++ [r]))).toNat < recKey r := by
    intro hlast
    have hsub := loaded_sublist_dropLast hlast
    rw [List.dropLast_concat] at hsub
    exact handleAfter_toNat_lt hpos fun y hy => hfile.lt_of_append y (hsub.subset hy)
  unfold loadReqFromFile initial
  simp only [loadRecords_eq, Option.getD_some, List.nil_append]
  cases houtcome : load.outcome with
  | notOpened => exact ⟨rfl, hpos⟩
  | failed => exact ⟨rfl, hpos⟩
  | unlinked =>
    rw [houtcome] at h
    have hreads : ¬ ReadsAll load.answer 0 (l ++ [r]) := h
    simp only [decide_eq_true_eq, if_neg hreads]
    exact ⟨trivial, hbehind fun hlast => h (readsAll_of_readsLast hlast)⟩
  | succeeded =>
    rw [houtcome] at h
    exact ⟨rfl, hbehind h⟩

/-- A registration that succeeds, from a process without a name. -/
def registrationOf (pid : Int32) : Action :=
  .clientRequest ⟨5, pid⟩ ⟨nmtNewRequest, 0, ⟨sigevSignal, 0, 0⟩, 0⟩
    { readOk := true
      queryStr := nullqu
      queryCreate := true
      procCmd := some []
      append := .succeeded
      flush := ⟨fun _ => true, .succeeded⟩
      writeOk := true }

def registration : Action := registrationOf 100

def registered (handle : UInt64) : ReqRec := ⟨handle, 100, 5, 0, ⟨sigevSignal, 0, 0⟩, nullqu, []⟩

theorem step_registration (h : s.notifyReqHandle.toNat + 1 < 2 ^ 64) :
    (step s registration).notifyReqHandle.toNat = s.notifyReqHandle.toNat + 1 ∧
    (step s registration).file =
      some (s.file.getD [] ++ [registered (UInt64.ofNat (s.notifyReqHandle.toNat + 1))]) := by
  have hnext : (s.notifyReqHandle + 1).toNat = s.notifyReqHandle.toNat + 1 := by
    rw [UInt64.toNat_add]
    exact Nat.mod_eq_of_lt h
  refine ⟨hnext, ?_⟩
  rw [← hnext, UInt64.ofNat_toNat]
  rfl

/-- Some registrations one after the other: the file grows, and the last
record has the handle that the counter has got to. -/
theorem run_registrations (n : Nat) (h : s.notifyReqHandle.toNat + (n + 1) < 2 ^ 64) :
    Meets step BelowWrap s (List.replicate (n + 1) registration) ∧
    ∃ recs, (run step s (List.replicate (n + 1) registration)).file =
      some (s.file.getD [] ++ recs ++
        [registered (UInt64.ofNat (s.notifyReqHandle.toNat + (n + 1)))]) := by
  obtain ⟨hhandle, hfile⟩ := step_registration (s := s) (by omega)
  have hbelow : BelowWrap s registration := by
    intro _
    omega
  induction n generalizing s with
  | zero =>
    refine ⟨⟨hbelow, trivial⟩, [], ?_⟩
    rw [List.replicate_one, run_cons, run_nil, hfile, List.append_nil]
  | succ n ih =>
    have hlt : (step s registration).notifyReqHandle.toNat + 1 < 2 ^ 64 := by omega
    obtain ⟨hhandle', hfile'⟩ := step_registration hlt
    obtain ⟨hmeets, recs, hrun⟩ := ih (by omega) hhandle' hfile' fun _ => hlt
    refine ⟨⟨hbelow, hmeets⟩,
      registered (UInt64.ofNat (s.notifyReqHandle.toNat + 1)) :: recs, ?_⟩
    have hlast : s.notifyReqHandle.toNat + 1 + (n + 1) = s.notifyReqHandle.toNat + (n + 1 + 1) := by
      omega
    rw [List.replicate_succ, run_cons, hrun, hfile, hhandle, hlast]
    simp only [Option.getD_some, List.append_assoc, List.nil_append, List.cons_append]

def loadAll : LoadEnv := ⟨.succeeded, fun _ => ⟨true, true, true⟩⟩

theorem readsLast_loadAll (i : Nat) (recs : List ReqRec) : ReadsLast loadAll.answer i recs := by
  induction recs generalizing i with
  | nil => trivial
  | cons r recs ih => exact ⟨by simp [LoadAnswer.Stops, loadAll], fun _ => rfl, ih (i + 1)⟩

theorem loaded_loadAll (i : Nat) (recs : List ReqRec) : loaded loadAll.answer i recs = recs := by
  induction recs generalizing i with
  | nil => rfl
  | cons r recs ih =>
    have hstops : ¬ (loadAll.answer i).Stops r := by simp [LoadAnswer.Stops, loadAll]
    have hproc : (loadAll.answer i).validateProc := rfl
    rw [loaded, if_neg hstops, if_pos hproc, ih]

/-- A restart that finds every process makes a request of every record. -/
theorem restart_loadAll_reqs (s : Notifyd) :
    (step s (.restart none loadAll)).reqs = (s.file.getD []).map ReqRec.request := by
  have hloaded := loaded_loadAll 0 (s.file.getD [])
  simp only [step, loadReqFromFile, loadRecords_eq, fileLeft, initial, loadAll, List.nil_append] at hloaded ⊢
  rw [hloaded]

/-- Where the counter is behind a record of the file, some registrations and
a restart make two requests with its handle. -/
theorem exists_collision {r : ReqRec} (hfile : s.file = some (recs ++ [r]))
    (hbehind : s.notifyReqHandle.toNat < recKey r) :
    ∃ as, Meets step BelowWrap s as ∧ Meets step Restores s as ∧
      ¬ HandlesIdentify (run step s as).reqs := by
  obtain ⟨n, hn⟩ : ∃ n, recKey r = s.notifyReqHandle.toNat + (n + 1) :=
    ⟨recKey r - s.notifyReqHandle.toNat - 1, by omega⟩
  have hlt : recKey r < 2 ^ 64 := r.handle.toNat_lt
  obtain ⟨hmeets, recs', hrun⟩ := run_registrations n (s := s) (by omega)
  refine ⟨List.replicate (n + 1) registration ++ [.restart none loadAll], ?_, ?_, ?_⟩
  · exact meets_append hmeets ⟨trivial, trivial⟩
  · refine meets_append (meets_of_forall_mem ?_) ⟨.inr (readsLast_loadAll 0 _), trivial⟩
    intro a ha s
    rw [List.eq_of_mem_replicate ha]
    trivial
  · intro h
    have hdistinct := h.distinct
    rw [run_append, run_cons, run_nil, restart_loadAll_reqs, hrun, hfile, ← hn] at hdistinct
    have hhandle : (registered (UInt64.ofNat (recKey r))).request.handle = r.request.handle :=
      UInt64.ofNat_toNat
    rw [List.map_map, Option.getD_some, Option.getD_some, List.map_append] at hdistinct
    have hleft : r.request.handle ∈ ((recs ++ [r]) ++ recs').map (NfyReq.handle ∘ ReqRec.request) :=
      List.mem_map_of_mem (by simp)
    exact List.disjoint_of_nodup_append hdistinct hleft (by simp [hhandle])

/-! ## The result -/

/-- In a run in which every restart restores the counter the handles
identify the requests all the time. A run with a restart that does not has
a beginning after which two requests can get the same handle, by
registrations and a restart that does. -/
theorem handles_identify_or_collide (as : List Action) (hwrap : Meets step BelowWrap (initial none) as) :
    (Meets step Restores (initial none) as →
      Always step (fun s => HandlesIdentify s.reqs) (initial none) as) ∧
    (¬ Meets step Restores (initial none) as →
      ∃ pre bs, pre <+: as ∧ Meets step BelowWrap (run step (initial none) pre) bs ∧
        Meets step Restores (run step (initial none) pre) bs ∧
        ¬ HandlesIdentify (run step (initial none) (pre ++ bs)).reqs) := by
  constructor
  · intro hrestores
    exact always_of_meets step_inv (fun s h => handlesIdentify_of_serial h.reqs) initial_inv
      (meets_and hwrap hrestores)
  · intro hrestores
    obtain ⟨pre, a, post, rfl, hpre, ha⟩ :=
      exists_first_not_meets step_inv initial_inv hwrap hrestores
    cases a with
    | clientRequest ci msg env => exact absurd trivial ha
    | event answer => exact absurd trivial ha
    | restart sigterm load =>
      obtain ⟨recs, r, hfile, hbehind⟩ := loadReqFromFile_behind (fileLeft_serial sigterm hpre) ha
      obtain ⟨bs, hbelow, hmeets, hcollide⟩ :=
        exists_collision (s := step (run step (initial none) pre) (.restart sigterm load)) hfile hbehind
      refine ⟨pre ++ [.restart sigterm load], bs, ?_, ?_, ?_, ?_⟩
      · exact ⟨post, by simp⟩
      · rwa [run_append]
      · rwa [run_append]
      · rwa [run_append, run_append]

theorem handles_identify_or_collide_two :
    Always step (fun s => HandlesIdentify s.reqs) (initial none)
      [registrationOf 100, registrationOf 101, .restart none loadAll] :=
  (handles_identify_or_collide [registrationOf 100, registrationOf 101, .restart none loadAll]
    ⟨fun _ => by decide, fun _ => by decide, trivial, trivial⟩).1
    ⟨trivial, trivial, .inr (readsLast_loadAll 0 _), trivial⟩

/-- Two processes register, the second is gone when the daemon starts again,
a third registers, and when the daemon starts once more there is a process
with the number and the name of the second. -/
def reusedRun : List Action :=
  [registrationOf 100, registrationOf 101,
    .restart none ⟨.succeeded, fun i => ⟨true, i == 0, true⟩⟩,
    registrationOf 102, .restart none loadAll]

theorem handle_given_twice : Meets step BelowWrap (initial none) reusedRun ∧
    (run step (initial none) reusedRun).reqs.map (fun req => (req.handle, req.pid)) =
      [(1, 100), (2, 101), (2, 102)] ∧
    ¬ HandlesIdentify (run step (initial none) reusedRun).reqs := by
  refine ⟨⟨fun _ => by decide, fun _ => by decide, trivial, fun _ => by decide, trivial, trivial⟩,
    by decide, ?_⟩
  intro h
  exact absurd h.distinct (by decide)

end Evlog.Evlnotifyd
