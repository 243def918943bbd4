/-
Evlog.Evlogd.Parent — `run_parent`, the loop in which evlogd waits for its
clients.

A slot of `clients[]` has the process that connected, as the kernel says.
What comes over that connection is an event: `Process_Event` reads, screens
and logs it, or closes the connection. evlogd also waits for new clients, for
evlconfig, the notification daemon and the descriptors of plug-ins.

An `Action` is a branch of the loop; in which order the branches come is
left open. Where the code asks `FD_ISSET`, the step asks whether the
descriptor is in `all_sds`; that it was below `maxsd` too when select was
called is not asked, for `maxsd` may have changed in the same round. What
is chosen outside evlogd is part of the action: a descriptor that the
kernel gives out, the credentials of a peer, the bytes it sends, what the
configuration and the facility registry are at that time.

`peer`, `rmtd` and `logged` are not in the code. `peer` is what the kernel
knows of a descriptor, `rmtd` whether evlogrmtd is at the other end, and
`logged` is what has reached `log_evl_rec`. A plug-in takes back only a
descriptor that it has handed over before (`plugged`).
-/
import Evlog.Lib.ClientTable
import Evlog.Lib.Transition
import Evlog.Evlogd.Receive
import Evlog.Posix.Facility

namespace Evlog.Evlogd.Socket

open Evlog.Lib Evlog.Posix

/-! ## Clients -/

def clientSlotAvailable : Int := -1

def maxClients : Nat := 240

/-- `clientinfo_t`. -/
structure Client where
  sd : Int
  uid : UInt32
  pid : Int32
  deriving DecidableEq, Repr

def Client.taken (cl : Client) : Bool := cl.sd != clientSlotAvailable

/-- `struct ucred`, as `SO_PEERCRED` gives it. -/
structure Ucred where
  pid : Int32
  uid : UInt32
  deriving DecidableEq, Repr

/-- What the loop over `clients[]` finds for a client that is connecting:
a free slot, the connections of the user, and the largest index in use
with the one that is going to be. -/
structure Scan where
  empty : Option Nat
  userconns : Nat
  maxci : Nat
  deriving DecidableEq, Repr

def scanClient (uid : UInt32) (sc : Scan) (idx : Nat) (cl : Client) : Scan where
  maxci := if cl.taken then idx else if sc.empty = none then idx else sc.maxci
  empty := if cl.taken then sc.empty else if sc.empty = none then some idx else sc.empty
  userconns := if cl.uid = uid then sc.userconns + 1 else sc.userconns

def scanClients (uid : UInt32) : List Client → Nat → Scan → Scan
  | [], _, sc => sc
  | cl :: clients, idx, sc => scanClients uid clients (idx + 1) (scanClient uid sc idx cl)

def getMaxClientIndex (clients : List Client) : Int :=
  ClientTable.maxIndex Client.sd clientSlotAvailable clients

/-- The loop over `clients[]` in `closeClientSocket`, from `maxci` down. -/
def newMaxsd (clients : List Client) (maxci : Int) : Int := ClientTable.maxSd Client.sd clients maxci

/-! ## The facility registry -/

def evlFaccPrivate : Int32 := 0x1

/-- An entry of the registry. `accessFlags` has these two bits only. -/
structure Facility where
  faccPrivate : Bool
  faccKern : Bool
  /-- `faQuery`. -/
  query : Option QueryEval

def Facility.accessFlags (f : Facility) : Int32 :=
  (if f.faccPrivate then evlFaccPrivate else 0) ||| (if f.faccKern then evlFaccKern else 0)

def getFacilityAccessQuery (facilities : UInt32 → Option Facility) (facNum : UInt32) :
    Option QueryEval × Int32 :=
  match facilities facNum with
  | some f => (f.query, f.accessFlags)
  | none => (none, -1)

/-- What `handleFacRegEvent` finds out: the code of a facility by its name,
whether it could be added, and its code after that. -/
structure FacReg where
  strtofac : List UInt8 → Option UInt32
  added : Bool
  strtofacAfter : List UInt8 → Option UInt32

def frstKernelFailed : UInt32 := 0xffffffff
def frstAlreadyRegistered : UInt32 := 1
def frstRegisteredOk : UInt32 := 2
def frstRegistrationFailed : UInt32 := 3
def frstFaccodeMismatch : UInt32 := 4

def logErr : Int32 := 3
def logInfo : Int32 := 6

/-- A word of the `struct evl_facreg_rq` in the data of a record. -/
def facregWord (varbuf : List UInt8) (i : Nat) : UInt32 :=
  .ofNat (leNat ((varbuf.drop (4 * i)).take 4))

def setFacregWord (varbuf : List UInt8) (i : Nat) (w : UInt32) : List UInt8 :=
  varbuf.take (4 * i) ++ leBytes 4 w.toNat ++ varbuf.drop (4 * i + 4)

/-- `handleFacRegEvent`: the header and the data, annotated with the
outcome of the request. The words are `fr_kernel_fac_code`,
`fr_registry_fac_code` and `fr_rq_status`. -/
def handleFacRegEvent (reg : FacReg) (rhdr : PosixLogEntry) (varbuf : List UInt8) :
    PosixLogEntry × List UInt8 :=
  if facRegRequest rhdr then
    let facName := (varbuf.drop 12).takeWhile (· ≠ 0)
    let rq := setFacregWord varbuf 1 evlInvalidFacility
    let failed : PosixLogEntry × List UInt8 :=
      ({ rhdr with logSeverity := logErr }, setFacregWord rq 2 frstRegistrationFailed)
    let facIsInRegistry (codeFromRegistry success : UInt32) : PosixLogEntry × List UInt8 :=
      let rq := setFacregWord rq 1 codeFromRegistry
      if codeFromRegistry = facregWord varbuf 0 then
        ({ rhdr with logSeverity := logInfo }, setFacregWord rq 2 success)
      else ({ rhdr with logSeverity := logErr }, setFacregWord rq 2 frstFaccodeMismatch)
    if facregWord varbuf 2 = frstKernelFailed then ({ rhdr with logSeverity := logErr }, rq)
    else
      match reg.strtofac facName with
      | some code => facIsInRegistry code frstAlreadyRegistered
      | none =>
        if reg.added then
          match reg.strtofacAfter facName with
          | some code => facIsInRegistry code frstRegisteredOk
          | none => failed
        else failed
  else (rhdr, varbuf)

/-! ## The daemon -/

/-- A client event, with what evlogd finds when it deals with it. -/
structure ClientEvent where
  /-- What the client sends. -/
  stream : ByteStream
  /-- The header that the slot of the lookback buffer holds from before. -/
  slot : PosixLogEntry
  kernelFailed : Bool
  defaultPosixLog : Bool
  /-- `dis_query`. -/
  disQuery : Option QueryEval
  facilities : UInt32 → Option Facility
  facReg : FacReg
  dropDup : PosixLogEntry → List UInt8 → Bool

/-- What reached `log_evl_rec`, and how it got there. -/
structure LoggedEvent where
  /-- `kpid` and `rmtdpid` at that time. -/
  kpid : Int32
  rmtdpid : Int32
  /-- The credentials of the peer it was read from, and whether that was
  evlogrmtd: it ran as root and had the name in its command line. -/
  peer : Ucred
  rmtd : Bool
  event : ClientEvent
  /-- The event as it was received. -/
  rhdr : PosixLogEntry
  varbuf : List UInt8
  linfo : LogId
  /-- The record as it was passed on. -/
  logrec : PosixLogEntry × List UInt8

structure Parent extends SelectSet where
  clients : List Client
  maxci : Int
  kpid : Int32
  rmtdpid : Int32
  notifySd : Int
  listenSd : Int
  confSd : Int
  confSocket : Int
  plugged : Finset Int
  peer : Int → Ucred
  rmtd : Int → Bool
  logged : List LoggedEvent

namespace Parent

/-- The globals that `Process_Event` reads. -/
def daemon (s : Parent) (e : ClientEvent) : Daemon where
  kpid := s.kpid
  rmtdpid := s.rmtdpid
  defaultPosixLog := e.defaultPosixLog
  disQuery := e.disQuery
  facilityAccessQuery := getFacilityAccessQuery e.facilities

/-- `Process_Event` as far as the connection goes. -/
def processEvent (s : Parent) (cl : Client) (e : ClientEvent) : EventTrace :=
  Socket.processEvent (s.daemon e) ⟨cl.pid, cl.uid⟩ ⟨e.slot, e.kernelFailed, e.dropDup⟩ e.stream

/-- `Process_Event` behind the last byte read: the log the record goes to,
and the record. -/
def logTarget (s : Parent) (e : ClientEvent) (rhdr : PosixLogEntry) (varbuf : List UInt8) :
    Option (LogId × PosixLogEntry × List UInt8) :=
  if e.defaultPosixLog && screened (s.daemon e) rhdr varbuf then none
  else
    let logrec := handleFacRegEvent e.facReg rhdr varbuf
    let accFlags := ((s.daemon e).facilityAccessQuery rhdr.logFacility).2
    if e.defaultPosixLog && !e.dropDup logrec.1 logrec.2 then
      some (if accFlags ≠ -1 ∧ accFlags &&& evlFaccPrivate ≠ 0 then .pvtLog else .evlLog, logrec)
    else none

def closeClientSocket (s : Parent) (i : Nat) (ci : Client) : Parent :=
  let clients := s.clients.set i { ci with sd := clientSlotAvailable }
  let rmtdpid := if ci.pid = s.rmtdpid then 0 else s.rmtdpid
  -- If maxsd is notify socket don't compute new maxsd
  if s.maxsd = s.notifySd then
    { s with toSelectSet := s.remove ci.sd s.maxsd, clients, rmtdpid }
  else
    let maxci := getMaxClientIndex clients
    let newMaxsd := newMaxsd clients maxci
    let maxsd :=
      if newMaxsd = 0 ∧ ci.sd = s.maxsd then s.maxsd - 1
      else if newMaxsd ≠ 0 then if newMaxsd < s.notifySd then s.notifySd else newMaxsd
      else s.maxsd
    { s with toSelectSet := s.remove ci.sd maxsd, clients, rmtdpid, maxci }

/-- `rmSocket`, up to its result. -/
def rmSocket (s : Parent) (soc : Int) : Parent := { s with toSelectSet := s.lower soc }

end Parent

/-- Why a connection is refused, if it is. -/
inductive Refusal where
  /-- No free slot. -/
  | maxClients
  /-- Too many simultaneous connections of the user. -/
  | userconns
  deriving DecidableEq, Repr

/-- `max_sysuid` and `max_userconns`, the arguments of `run_parent`. -/
structure Limits where
  maxSysuid : UInt32
  maxUserconns : Int

namespace Parent

def refusal (lim : Limits) (s : Parent) (ucred : Ucred) : Option Refusal :=
  let sc := scanClients ucred.uid s.clients 0 ⟨none, 0, 0⟩
  if sc.empty = none then some .maxClients
  else if lim.maxSysuid < ucred.uid ∧ lim.maxUserconns ≤ sc.userconns then some .userconns
  else none

/-- A client connects. `evlogrmtd` says whether its command line has that
name in it. -/
def accept (lim : Limits) (s : Parent) (newsd : Int) (ucred : Ucred) (evlogrmtd : Bool) : Parent :=
  let rmtdpid := if s.rmtdpid = 0 ∧ ucred.uid = 0 ∧ evlogrmtd then ucred.pid else s.rmtdpid
  let sc := scanClients ucred.uid s.clients 0 ⟨none, 0, 0⟩
  match s.refusal lim ucred, sc.empty with
  | none, some idx =>
    { s with
      toSelectSet := s.watch newsd
      clients := s.clients.set idx ⟨newsd, ucred.uid, ucred.pid⟩
      maxci := sc.maxci
      rmtdpid
      peer := Function.update s.peer newsd ucred
      rmtd := Function.update s.rmtd newsd (decide (ucred.uid = 0) && evlogrmtd) }
  | _, _ => { s with maxci := sc.maxci, rmtdpid }

/-- The event reaches `log_evl_rec`, or does not. -/
def logEvent (s : Parent) (cl : Client) (e : ClientEvent) : List LoggedEvent :=
  match (s.processEvent cl e).used with
  | some (rhdr, varbuf) =>
    match s.logTarget e rhdr varbuf with
    | some (linfo, logrec) =>
      [⟨s.kpid, s.rmtdpid, s.peer cl.sd, s.rmtd cl.sd, e, rhdr, varbuf, linfo, logrec⟩]
    | none => []
  | none => []

def clientEvent (s : Parent) (i : Nat) (cl : Client) (e : ClientEvent) : Parent :=
  let s' := { s with logged := s.logged ++ s.logEvent cl e }
  if (s.processEvent cl e).closed then s'.closeClientSocket i cl else s'

/-- The branches of the loop. -/
inductive Action where
  /-- `establishNfyConnection`, which may fail. -/
  | notifyConnect (sd : Option Int)
  /-- The notification daemon goes away. -/
  | notifyGone
  | accept (newsd : Int) (ucred : Ucred) (evlogrmtd : Bool)
  /-- The connection to evlconfig is accepted. -/
  | confConnect (newsd : Int)
  /-- The connection to evlconfig has been served. -/
  | confDone
  | event (i : Nat) (e : ClientEvent)
  /-- `CB_PLUGIN_FD_SET` and `CB_PLUGIN_FD_UNSET`. -/
  | pluginSet (sd : Int)
  | pluginUnset (sd : Int)

def step (lim : Limits) (s : Parent) : Action → Parent
  | .notifyConnect none => if s.notifySd ≤ 0 then { s with notifySd := -1 } else s
  | .notifyConnect (some sd) =>
    if s.notifySd ≤ 0 ∧ s.Unused sd then { s with toSelectSet := s.watch sd, notifySd := sd } else s
  | .notifyGone =>
    if 0 < s.notifySd ∧ s.notifySd ∈ s.allSds then { s.rmSocket s.notifySd with notifySd := 0 } else s
  | .accept newsd ucred evlogrmtd =>
    if s.listenSd ∈ s.allSds ∧ s.Unused newsd then s.accept lim newsd ucred evlogrmtd else s
  | .confConnect newsd =>
    if s.confSd ∈ s.allSds ∧ s.Unused newsd then
      { s with toSelectSet := s.watch newsd, confSocket := newsd }
    else s
  | .confDone =>
    if s.confSocket ≠ -1 ∧ s.confSocket ∈ s.allSds then
      { s.rmSocket s.confSocket with confSocket := 0 }
    else s
  | .event i e =>
    match s.clients[i]? with
    | some cl =>
      if (i : Int) ≤ s.maxci ∧ cl.taken ∧ cl.sd ∈ s.allSds then s.clientEvent i cl e else s
    | none => s
  | .pluginSet sd =>
    if s.Unused sd then { s with toSelectSet := s.watch sd, plugged := insert sd s.plugged } else s
  | .pluginUnset sd =>
    if sd ∈ s.plugged then { s.rmSocket sd with plugged := s.plugged.erase sd } else s

/-- The descriptors that evlogd has when the loop begins. 0, 1 and 2 are
/dev/null, or the terminal. -/
structure Setup where
  kpid : Int32
  notifySd : Int
  listenSd : Int
  confSd : Int
  opened : Finset Int
  std : {0, 1, 2} ⊆ opened
  notify : notifySd = -1 ∨ 0 < notifySd
  distinct : listenSd ≠ confSd ∧ listenSd ≠ notifySd ∧ confSd ≠ notifySd
  listening : 0 < listenSd ∧ 0 < confSd
  isOpen : listenSd ∈ opened ∧ confSd ∈ opened ∧ (0 < notifySd → notifySd ∈ opened)

/-- `run_parent` at the top of the loop for the first time. -/
def start (su : Setup) : Parent where
  allSds := if 0 < su.notifySd then {su.notifySd, su.confSd, su.listenSd} else {su.confSd, su.listenSd}
  maxsd := max (max su.notifySd su.confSd) su.listenSd
  opened := su.opened
  clients := List.replicate maxClients ⟨clientSlotAvailable, 0, 0⟩
  maxci := 0
  kpid := su.kpid
  rmtdpid := 0
  notifySd := su.notifySd
  listenSd := su.listenSd
  confSd := su.confSd
  confSocket := -1
  plugged := ∅
  peer := fun _ => ⟨0, 0⟩
  rmtd := fun _ => false
  logged := []

end Parent

end Evlog.Evlogd.Socket
