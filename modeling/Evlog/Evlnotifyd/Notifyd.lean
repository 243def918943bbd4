/-
Evlog.Evlnotifyd.Notifyd — the notification daemon and its requests.

A process registers a request with evlnotifyd: a query, and the signal it
wants for an event that matches. The daemon keeps the requests in a list and
gives each a handle from a counter. Every request is also appended to a
file. From time to time, and at the end, the list is written over the file;
at the start the list is made from it and the counter is set to the handle
of each request on the way.

The model is a state with one step for each message of a client, each
event, and each restart. What is found outside is part of the step: the
query that can or cannot be made, `/proc`, the matches, and what becomes
of the file. The file is only ever renamed from a complete copy or
truncated, so it is a list of complete records, or missing.
`disableRequest` is not called, and the sockets and the number of
registrations of a client are left out. What the functions do does not
depend on what else the list may keep with a request (`Listed`).
-/
import Evlog.Lib.Transition
import Mathlib.Data.UInt

namespace Evlog.Evlnotifyd

/-! ## Requests -/

structure Sigevent where
  sigevNotify : Int32
  sigevSigno : Int32
  sigevValue : UInt64
  deriving DecidableEq, Repr

def sigevSignal : Int32 := 0

def posixLogOnceOnly : UInt32 := 0x01
def posixLogNfyDisabled : UInt32 := 0x08
def posixLogNfyPendingRemove : UInt32 := 0x512

def clientSlotAvailable : Int32 := -100

/-- A `nfyReq_t`. There is no query expression where `qu_tree` is NULL, and
no command where `getProcessCmd` failed. -/
structure NfyReq where
  handle : UInt64
  pid : Int32
  sd : Int32
  flags : UInt32
  sigevent : Sigevent
  quExpr : Option (List UInt8)
  procCmd : Option (List UInt8)
  deriving DecidableEq, Repr

/-- A record of the file: a `req_rec_hdr_t`, the query and the command. -/
structure ReqRec where
  handle : UInt64
  pid : Int32
  sd : Int32
  flags : UInt32
  sigevent : Sigevent
  queryStr : List UInt8
  cmdStr : List UInt8
  deriving DecidableEq, Repr

def nullqu : List UInt8 := [0x3c, 0x6e, 0x75, 0x6c, 0x6c, 0x3e]

/-- The record `writeReqToFile` writes, if it does not fail. -/
def NfyReq.toRec (req : NfyReq) : Option ReqRec :=
  req.procCmd.map fun cmd =>
    { handle := req.handle
      pid := req.pid
      sd := req.sd
      flags := req.flags
      sigevent := req.sigevent
      queryStr := req.quExpr.getD nullqu
      cmdStr := cmd }

/-- An entry of the list: a request, or a request with something that the
code does not keep. -/
class Listed (α : Type) where
  req : α → NfyReq

instance : Listed NfyReq := ⟨fun req => req⟩

/-- The daemon's list, which is `pNfyReqList` without its empty first node,
and the file. -/
structure Daemon (α : Type) where
  reqs : List α
  notifyReqHandle : UInt64
  listDirtyCtr : Nat
  file : Option (List ReqRec)
  deriving DecidableEq

abbrev Notifyd := Daemon NfyReq

section Lists

variable {α : Type} [Listed α]

def findRequest (reqs : List α) (handle : UInt64) : Option α :=
  reqs.find? fun x => (Listed.req x).handle = handle

/-- The loop of `removeRequestWithHandle`. -/
def removeNode (reqs : List α) (handle : UInt64) : List α :=
  reqs.eraseP fun x => (Listed.req x).handle = handle

def removeRequestsWithSD (reqs : List α) (sd : Int32) : List α :=
  reqs.filter fun x => (Listed.req x).sd ≠ sd

end Lists

/-! ## The file -/

/-- What becomes of the file in a function that works on a copy of it. The
copy may not even be made, or not be finished, or the daemon may end
between `unlink` and `rename`. -/
inductive FileOutcome where
  | notOpened
  | failed
  | unlinked
  | succeeded
  deriving DecidableEq, Repr

/-- `appendReqToFile`, which creates the file if there is none. -/
def appendReqToFile (outcome : FileOutcome) (req : NfyReq) (file : Option (List ReqRec)) :
    Option (List ReqRec) :=
  match outcome, req.toRec with
  | .notOpened, _ => file
  | .failed, _ => some (file.getD [])
  | _, none => some (file.getD [])
  | .unlinked, some _ => none
  | .succeeded, some r => some (file.getD [] ++ [r])

/-- `writeRequestsToFile`. The file is truncated when it is opened, and not
created. -/
def writeRequestsToFile (outcome : FileOutcome) (reqs : List NfyReq) (file : Option (List ReqRec)) :
    Option (List ReqRec) :=
  match file with
  | none => none
  | some recs =>
    match outcome, reqs.mapM NfyReq.toRec with
    | .notOpened, _ => some recs
    | .failed, _ => some []
    | _, none => some []
    | .unlinked, some _ => none
    | .succeeded, some recs' => some recs'

/-- What a `flushRequestList` finds: whether the process of the `i`-th
request is there (`validateProc`), and what becomes of the file. -/
structure FlushEnv where
  validateProc : Nat → Bool
  outcome : FileOutcome

section Lists

variable {α : Type} [Listed α]

def removeZombieRequestsInList (validateProc : Nat → Bool) (reqs : List α) : List α :=
  (reqs.zipIdx.filter fun (x, i) =>
    (Listed.req x).flags &&& posixLogNfyPendingRemove ≠ posixLogNfyPendingRemove && validateProc i).map
      Prod.fst

def flushRequestList (env : FlushEnv) (s : Daemon α) : Daemon α :=
  let reqs := removeZombieRequestsInList env.validateProc s.reqs
  { s with reqs := reqs, file := writeRequestsToFile env.outcome (reqs.map Listed.req) s.file }

end Lists

/-- What the loop of `loadReqFromFile` finds at a record. -/
structure LoadAnswer where
  /-- The record can be read, and memory be had for it. -/
  readOk : Bool
  validateProc : Bool
  /-- One of the three `posix_log_query_create` succeeds. -/
  queryCreate : Bool

def ReqRec.request (r : ReqRec) : NfyReq where
  handle := r.handle
  pid := r.pid
  sd := -1
  flags := r.flags
  sigevent := r.sigevent
  quExpr := if r.queryStr = nullqu then none else some r.queryStr
  procCmd := some r.cmdStr

/-- The loop of `loadReqFromFile` from the `i`-th record on. It also says
whether it got to the end of the file. -/
def loadRecords (answer : Nat → LoadAnswer) : Nat → List ReqRec → Notifyd → Notifyd × Bool
  | _, [], s => (s, true)
  | i, r :: recs, s =>
    if ¬ (answer i).readOk then (s, false)
    else if ¬ (answer i).validateProc then loadRecords answer (i + 1) recs s
    else if r.queryStr ≠ nullqu ∧ ¬ (answer i).queryCreate then (s, false)
    else
      loadRecords answer (i + 1) recs
        { s with reqs := s.reqs ++ [r.request], notifyReqHandle := r.handle }

structure LoadEnv where
  outcome : FileOutcome
  answer : Nat → LoadAnswer

/-- `loadReqFromFile`, which creates the file if there is none. -/
def loadReqFromFile (env : LoadEnv) (s : Notifyd) : Notifyd :=
  let recs := s.file.getD []
  match env.outcome with
  | .notOpened => s
  | .failed => { s with file := some recs }
  | .unlinked =>
    let (s, complete) := loadRecords env.answer 0 recs { s with file := some recs }
    if complete then { s with file := none } else s
  | .succeeded => (loadRecords env.answer 0 recs { s with file := some recs }).1

/-! ## Messages of clients -/

def nmtNewRequest : Int32 := 0
def nmtGetRequestStatus : Int32 := 1
def nmtRmRequest : Int32 := 2

/-- A `nfyRqStatus_t`. -/
inductive NfyRqStatus where
  | nrsEnabled
  | nrsDisabled
  | nrsRemoved
  | nrsNoRequest
  deriving DecidableEq, Repr

/-- A `nfyNewRqMsg_t`. -/
structure NfyNewRqMsg where
  nhMsgType : Int32
  nhReqHandle : UInt64
  nwSigevent : Sigevent
  nwFlags : UInt32
  deriving DecidableEq, Repr

/-- A `clientinfo_t`. -/
structure ClientInfo where
  sd : Int32
  pid : Int32
  deriving DecidableEq, Repr

/-- What is found outside while a message is processed. -/
structure RequestEnv where
  /-- The message, and for a new request the query behind it, is there. -/
  readOk : Bool
  queryStr : List UInt8
  queryCreate : Bool
  /-- `getProcessCmd`. -/
  procCmd : Option (List UInt8)
  append : FileOutcome
  flush : FlushEnv
  /-- The answer can be written to the client. -/
  writeOk : Bool

/-- What a client is sent: a status, and for a request that is there its
flags, query and signal. -/
structure Reply where
  nhReqHandle : UInt64
  nhStatus : NfyRqStatus
  info : Option (UInt32 × Option (List UInt8) × Sigevent)
  deriving DecidableEq, Repr

/-- `-EINVAL` as a `HANDLE`. -/
def einvalHandle : UInt64 := -22

def maxListDirtyCount : Nat := 100

section Lists

variable {α : Type} [Listed α]

/-- `registerRequest`, with `createNewHandle`. The list gets `entry` of the
request. -/
def registerRequest (entry : NfyReq → α) (s : Daemon α) (ci : ClientInfo) (msg : NfyNewRqMsg)
    (env : RequestEnv) : Daemon α × UInt64 :=
  if env.queryStr ≠ nullqu ∧ ¬ env.queryCreate then (s, einvalHandle)
  else if msg.nwSigevent.sigevNotify ≠ sigevSignal then (s, einvalHandle)
  else
    let nfyReq : NfyReq :=
      { handle := s.notifyReqHandle + 1
        pid := ci.pid
        sd := ci.sd
        flags := msg.nwFlags
        sigevent := msg.nwSigevent
        quExpr := if env.queryStr = nullqu then none else some env.queryStr
        procCmd := env.procCmd }
    ({ s with
        reqs := s.reqs ++ [entry nfyReq]
        notifyReqHandle := s.notifyReqHandle + 1
        file := appendReqToFile env.append nfyReq s.file }, s.notifyReqHandle + 1)

def removeRequestWithHandle (s : Daemon α) (handle : UInt64) (env : FlushEnv) : Daemon α × Bool :=
  match findRequest s.reqs handle with
  | none => (s, false)
  | some _ =>
    let s := { s with reqs := removeNode s.reqs handle, listDirtyCtr := s.listDirtyCtr + 1 }
    if maxListDirtyCount ≤ s.listDirtyCtr then
      ({ flushRequestList env s with listDirtyCtr := 0 }, true)
    else (s, true)

/-- `closeClientSocket` with `RM_REQUESTS`. The slot is free by the time its
descriptor is looked at. -/
def closeClientSocket (s : Daemon α) : Daemon α :=
  { s with reqs := removeRequestsWithSD s.reqs clientSlotAvailable }

/-- The answer to `nmtGetRequestStatus`. -/
def requestStatus (reqs : List α) (handle : UInt64) : Reply :=
  match findRequest reqs handle with
  | none => ⟨handle, .nrsNoRequest, none⟩
  | some x =>
    let req := Listed.req x
    let status : NfyRqStatus :=
      if req.flags &&& posixLogNfyDisabled = 0 then .nrsEnabled else .nrsDisabled
    ⟨handle, status, some (req.flags, req.quExpr, req.sigevent)⟩

/-- What `processClientRequest` does before it closes the client's socket,
if it does: the next state, what the client is sent, and whether the socket
is closed. -/
def answerClient (entry : NfyReq → α) (s : Daemon α) (ci : ClientInfo) (msg : NfyNewRqMsg)
    (env : RequestEnv) : Daemon α × Option Reply × Bool :=
  if ¬ env.readOk then (s, none, true)
  else if msg.nhMsgType = nmtNewRequest then
    let (s, handle) := registerRequest entry s ci msg env
    -- a HANDLE is not negative, so the status is the same if it failed
    (s, some ⟨handle, .nrsEnabled, none⟩, !env.writeOk)
  else if msg.nhMsgType = nmtRmRequest then
    let (s, removed) := removeRequestWithHandle s msg.nhReqHandle env.flush
    let status : NfyRqStatus := if removed then .nrsRemoved else .nrsNoRequest
    (s, some ⟨msg.nhReqHandle, status, none⟩, !env.writeOk)
  else if msg.nhMsgType = nmtGetRequestStatus then
    (s, some (requestStatus s.reqs msg.nhReqHandle), !env.writeOk)
  else (s, none, false)

/-- `processClientRequest`: the next state, and what the client is sent. -/
def processClientRequest (entry : NfyReq → α) (s : Daemon α) (ci : ClientInfo) (msg : NfyNewRqMsg)
    (env : RequestEnv) : Daemon α × Option Reply :=
  let (s, reply, closes) := answerClient entry s ci msg env
  (if closes then closeClientSocket s else s, reply)

end Lists

/-! ## Events -/

/-- What `processEvent` finds at a request. -/
structure EventAnswer where
  /-- `posix_log_query_match` succeeds and there is a match. -/
  isMatch : Bool
  validateProc : Bool
  /-- What `rt_sigqueueinfo` returns. -/
  sigqueue : Int32

def esrch : Int32 := -3

/-- The round of the loop of `processEvent` for a request. -/
def notify (req : NfyReq) (answer : EventAnswer) : NfyReq :=
  if req.flags &&& posixLogNfyDisabled ≠ 0 then req
  else if req.quExpr.isSome ∧ ¬ answer.isMatch then req
  else if ¬ answer.validateProc then
    { req with flags := req.flags ||| (posixLogNfyDisabled ||| posixLogNfyPendingRemove) }
  else
    let req :=
      if answer.sigqueue = esrch then
        { req with flags := req.flags ||| (posixLogNfyDisabled ||| posixLogNfyPendingRemove) }
      else req
    if req.flags &&& posixLogOnceOnly ≠ 0 then
      { req with flags := req.flags ||| posixLogNfyDisabled }
    else req

def processEvent (s : Notifyd) (answer : Nat → EventAnswer) : Notifyd :=
  { s with reqs := s.reqs.zipIdx.map fun (req, i) => notify req (answer i) }

/-! ## Runs -/

/-- A daemon that has just been started, before it loads the file. -/
def initial (file : Option (List ReqRec)) : Notifyd where
  reqs := []
  notifyReqHandle := 0
  listDirtyCtr := 0
  file := file

inductive Action where
  | clientRequest (ci : ClientInfo) (msg : NfyNewRqMsg) (env : RequestEnv)
  | event (answer : Nat → EventAnswer)
  /-- The daemon ends, with a flush if it gets a SIGTERM, and is started
  again. -/
  | restart (sigterm : Option FlushEnv) (load : LoadEnv)

def fileLeft (s : Notifyd) (sigterm : Option FlushEnv) : Option (List ReqRec) :=
  match sigterm with
  | none => s.file
  | some env => (flushRequestList env s).file

def step (s : Notifyd) : Action → Notifyd
  | .clientRequest ci msg env => (processClientRequest (fun req => req) s ci msg env).1
  | .event answer => processEvent s answer
  | .restart sigterm load => loadReqFromFile load (initial (fileLeft s sigterm))

end Evlog.Evlnotifyd
