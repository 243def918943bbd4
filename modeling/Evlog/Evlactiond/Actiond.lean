/-
Evlog.Evlactiond.Actiond — the action daemon: who may register, and who
runs.

The daemon keeps the uid of each client that connects. A client adds an
action (a query and a shell command), removes or changes one. When
evlnotifyd signals a match the daemon forks, calls `setuid` with the uid in
the action's header, and runs the command. Persistent actions are written to
the action registry, one line each, and read again at the start.

The model is a state with one step for each event. What is chosen outside
the daemon is part of the event: the bytes a client sends, whether a
`malloc` whose size a client chose is granted, whether evlnotifyd accepts
a query, whether the registry can be written, which uids have an entry in
the password file, and whether an action with a threshold is due. Allocations
of fixed size succeed; a `write` writes everything or fails.

Two things are added to what the daemon keeps. An action carries its
`Origin`: the uid the kernel gave for the connection that added it, and
the one for the connection that last supplied its command. So does every
byte of the registry file, which tells whose action a line that is read
back was written for. No decision of the daemon looks at an origin.

What clients are sent in answer is left out, and so are the fields of an
action that nothing here reads (`handle`, `any_list`, `state`).
-/
import Mathlib.Data.UInt
import Evlog.Lib.CString
import Evlog.Evlogd.Receive

namespace Evlog.Evlactiond

open Evlog.Lib Evlog.Evlogd.Socket

/-! ## Messages -/

def nfyCmdAdd : Int32 := 0
def nfyCmdRemove : Int32 := 1
def nfyCmdChange : Int32 := 2
def nfyCmdListAll : Int32 := 3
def nfyListByName : Int32 := 4

/-- `nfy_action_hdr_t`: what every message starts with, and what an action
is kept under. -/
structure NfyActionHdr where
  cmdType : Int32
  nfyId : Int32
  uid : UInt32
  gid : UInt32
  flags : Int32
  quStrLen : Int32
  actionCmdLen : Int32
  nameLen : Int32
  anyStrLen : Int32
  thres : Int32
  interval : UInt32
  queryFlags : Int32
  deriving DecidableEq, Repr

/-- `sizeof(nfy_action_hdr_t)`. -/
def nfyActionHdrSize : Nat := 48

/-- A four-byte field of the header, as the unsigned number in it. -/
def takeWord (bs : List UInt8) : UInt32 × List UInt8 :=
  let (n, bs) := takeLE 4 bs
  (.ofNat n, bs)

def NfyActionHdr.ofBytes (bs : List UInt8) : NfyActionHdr :=
  let (cmdType, bs) := takeWord bs
  let (nfyId, bs) := takeWord bs
  let (uid, bs) := takeWord bs
  let (gid, bs) := takeWord bs
  let (flags, bs) := takeWord bs
  let (quStrLen, bs) := takeWord bs
  let (actionCmdLen, bs) := takeWord bs
  let (nameLen, bs) := takeWord bs
  let (anyStrLen, bs) := takeWord bs
  let (thres, bs) := takeWord bs
  let (interval, bs) := takeWord bs
  let (queryFlags, _) := takeWord bs
  { cmdType := cmdType.toInt32, nfyId := nfyId.toInt32, uid, gid, flags := flags.toInt32,
    quStrLen := quStrLen.toInt32, actionCmdLen := actionCmdLen.toInt32, nameLen := nameLen.toInt32,
    anyStrLen := anyStrLen.toInt32, thres := thres.toInt32, interval,
    queryFlags := queryFlags.toInt32 }

/-- A command of a client, with the strings that came after its header. -/
inductive Request where
  | add (hdr : NfyActionHdr) (quStr cmd name anyStr : CString)
  | remove (nfyId : Int32)
  | change (nfyId : Int32) (cmd : CString)
  | listAll
  | listByName (name : CString)
  /-- A `cmd_type` without a case in the switch. -/
  | unknown
  deriving DecidableEq, Repr

/-- `malloc(len + 1)` is not NULL. No size of `2^63` or more is granted. -/
def mallocFor (malloc : UInt64 → Bool) (len : Int32) : Bool :=
  (len + 1).toInt64.toUInt64 < 2 ^ 63 && malloc (len + 1).toInt64.toUInt64

/-- Read a string of the length the header gives, and terminate it. -/
def readString (s : ByteStream) (len : Int32) : Option (CString × ByteStream) :=
  let r := evlReadEx s len.toInt64.toUInt64
  if r.ret = -1 then none else some (.ofBuf r.stored, r.rest)

/-- The reading half of `processNotifyCmd`: the command that is in the
stream, or `none` where the code closes the connection instead. -/
def readRequest (malloc : UInt64 → Bool) (s : ByteStream) : Option Request := do
  let r := evlReadEx s (.ofNat nfyActionHdrSize)
  guard (r.ret ≠ -1)
  let hdr := NfyActionHdr.ofBytes r.stored
  if hdr.cmdType = nfyCmdAdd then do
    guard (mallocFor malloc hdr.quStrLen)
    guard (mallocFor malloc hdr.actionCmdLen)
    guard (mallocFor malloc hdr.nameLen)
    guard (mallocFor malloc hdr.anyStrLen)
    let (quStr, s) ← readString r.rest hdr.quStrLen
    let (cmd, s) ← readString s hdr.actionCmdLen
    let (name, s) ← readString s hdr.nameLen
    let (anyStr, _) ← readString s hdr.anyStrLen
    pure (.add hdr quStr cmd name anyStr)
  else if hdr.cmdType = nfyCmdRemove then pure (.remove hdr.nfyId)
  else if hdr.cmdType = nfyCmdChange then do
    guard (mallocFor malloc hdr.actionCmdLen)
    let (cmd, _) ← readString r.rest hdr.actionCmdLen
    pure (.change hdr.nfyId cmd)
  else if hdr.cmdType = nfyCmdListAll then pure .listAll
  else if hdr.cmdType = nfyListByName then do
    guard (mallocFor malloc hdr.nameLen)
    let (name, _) ← readString r.rest hdr.nameLen
    pure (.listByName name)
  else pure .unknown

/-! ## The daemon's state -/

def posixLogOnceOnly : Int32 := 0x01
def posixLogActionPersist : Int32 := 0x16

/-- Who is behind an action: the peer of the connection that added it, and
the peer of the one that last supplied its command. -/
structure Origin where
  owner : UInt32
  cmdBy : UInt32
  deriving DecidableEq, Repr

/-- `nfy_action_t`. -/
structure NfyAction where
  hdr : NfyActionHdr
  quStr : CString
  cmd : CString
  name : CString
  anyStr : CString
  origin : Origin
  deriving DecidableEq, Repr

/-- `act->hdr.flags & POSIX_LOG_ACTION_PERSIST`. -/
def NfyAction.persistent (act : NfyAction) : Bool := act.hdr.flags &&& posixLogActionPersist ≠ 0

/-- A child that `execute` forked, from its call of `setuid` on. -/
structure Child where
  uid : UInt32
  cmd : CString
  origin : Origin
  deriving DecidableEq, Repr

inductive Status where
  | running
  | gone
  /-- The daemon has used memory it had freed. Nothing is known of what it
  does from here on. -/
  | undefined
  deriving DecidableEq, Repr

def maxClients : Nat := 32

/-- The daemon, the registry file and the children it has started. -/
structure Actiond where
  status : Status
  /-- The slots of `clients`: the uid of the connection in it, if any. -/
  clients : List (Option UInt32)
  nextNfyId : Int32
  /-- `pActionList` without its empty first node. -/
  actions : List NfyAction
  /-- `list_dirty_ctr` of `removeAction`. -/
  listDirtyCtr : Int32
  registry : List (UInt8 × Origin)
  children : List Child
  deriving Repr

/-- The daemon ends and leaves the registry file, and its children. -/
def exit (d : Actiond) : Actiond := { d with status := .gone, clients := [], actions := [] }

/-! ## The action registry, written -/

/-- `SMALL_BUF_SIZE`, the length of every line buffer. -/
def smallBufSize : Nat := 1024

def colon : UInt8 := 58
def newline : UInt8 := 10

def registryText (act : NfyAction) : List UInt8 :=
  CString.decimal act.hdr.nfyId.toUInt32.toNat ++ colon :: act.quStr.bytes ++ colon ::
    act.cmd.bytes ++ colon :: CString.decimal act.hdr.uid.toNat ++ colon ::
    CString.decimal act.hdr.gid.toNat ++ colon ::
    CString.decimal (act.hdr.flags &&& posixLogOnceOnly).toUInt32.toNat ++ colon ::
    CString.decimal act.hdr.thres.toUInt32.toNat ++ colon ::
    CString.decimal act.hdr.interval.toNat ++ colon :: act.name.bytes ++ colon ::
    act.anyStr.bytes ++ [newline]

/-- `writeActionToFile`: `snprintf` keeps what fits in the buffer. -/
def writeActionToFile (act : NfyAction) : List (UInt8 × Origin) :=
  ((registryText act).take (smallBufSize - 1)).map (·, act.origin)

/-- `refreshActionRegistry`. The old file stays when the new one could not
be written or put in its place. -/
def refreshActionRegistry (saved : Bool) (d : Actiond) : Actiond :=
  if saved then
    { d with registry := (d.actions.filter NfyAction.persistent).flatMap writeActionToFile }
  else d

/-! ## Commands -/

def findAction (actions : List NfyAction) (id : Int32) : Option NfyAction :=
  actions.find? (·.hdr.nfyId == id)

/-- A user may touch its own actions, and root all of them. -/
def mayTouch (act : NfyAction) (uid : UInt32) : Bool := act.hdr.uid == uid || uid == 0

/-- `registerAction`, for a connection whose peer is `uid`. The uid is not
passed to the function: it stands here for the origin only. -/
def registerAction (uid : UInt32) (notifyAdd saved : Bool) (d : Actiond) (hdr : NfyActionHdr)
    (quStr cmd name anyStr : CString) : Actiond :=
  if notifyAdd then
    let id := d.nextNfyId + 1
    let action : NfyAction :=
      { hdr := { hdr with nfyId := id }, quStr, cmd, name, anyStr, origin := ⟨uid, uid⟩ }
    let d := { d with nextNfyId := id, actions := d.actions ++ [action] }
    if action.persistent then refreshActionRegistry saved d else d
  else d

/-- `removeAction`. The registry is written again only when twenty actions
have gone. -/
def removeAction (saved : Bool) (d : Actiond) (id : Int32) (uid : UInt32) : Actiond :=
  let goes (act : NfyAction) : Bool := act.hdr.nfyId == id && mayTouch act uid
  match d.actions.find? goes with
  | none => d
  | some act =>
    let d := { d with actions := d.actions.eraseP goes, listDirtyCtr := d.listDirtyCtr + 1 }
    if act.persistent && 20 ≤ d.listDirtyCtr then
      { refreshActionRegistry saved d with listDirtyCtr := 0 }
    else d

def setCmd (id : Int32) (cmd : CString) (uid : UInt32) : List NfyAction → List NfyAction
  | [] => []
  | act :: acts =>
    if act.hdr.nfyId == id then
      { act with cmd, origin := { act.origin with cmdBy := uid } } :: acts
    else act :: setCmd id cmd uid acts

def modifyAction (saved : Bool) (d : Actiond) (id : Int32) (cmd : CString) (uid : UInt32) :
    Actiond :=
  match findAction d.actions id with
  | none => d
  | some act =>
    if mayTouch act uid then
      let d := { d with actions := setCmd id cmd uid d.actions }
      if act.persistent then refreshActionRegistry saved d else d
    else d

/-- `writeAction` sets the lengths before it sends the header. -/
def writeAction (act : NfyAction) : NfyAction :=
  { act with
    hdr :=
      { act.hdr with
        quStrLen := .ofNat act.quStr.bytes.length
        actionCmdLen := .ofNat act.cmd.bytes.length
        nameLen := .ofNat act.name.bytes.length
        anyStrLen := .ofNat act.anyStr.bytes.length } }

/-- `listActions`, of which `written` actions get through to the client
before a `write` fails. -/
def listActions (uid : UInt32) : Nat → List NfyAction → List NfyAction
  | _, [] => []
  | written, act :: acts =>
    if mayTouch act uid then
      match written with
      | 0 => writeAction act :: acts
      | written + 1 => writeAction act :: listActions uid written acts
    else act :: listActions uid written acts

/-- `listActionByName`, on the action `findActionByName` finds. -/
def listActionByName (uid : UInt32) (name : CString) : List NfyAction → List NfyAction
  | [] => []
  | act :: acts =>
    if act.name == name then (if mayTouch act uid then writeAction act else act) :: acts
    else act :: listActionByName uid name acts

/-- What the system decides while a command is processed. -/
structure RequestEnv where
  malloc : UInt64 → Bool
  /-- evlnotifyd takes the query of an action that is added. -/
  notifyAdd : Bool
  /-- The registry can be written. -/
  saved : Bool
  /-- How many actions are sent before a `write` to the client fails. -/
  written : Nat

/-- The acting half of `processNotifyCmd`, for a connection with peer `uid`. -/
def doRequest (env : RequestEnv) (uid : UInt32) (d : Actiond) : Request → Actiond
  | .add hdr quStr cmd name anyStr =>
    registerAction uid env.notifyAdd env.saved d hdr quStr cmd name anyStr
  | .remove id => removeAction env.saved d id uid
  | .change id cmd => modifyAction env.saved d id cmd uid
  | .listAll => { d with actions := listActions uid env.written d.actions }
  | .listByName name => { d with actions := listActionByName uid name d.actions }
  | .unknown => d

/-- `processNotifyCmd` on the connection in slot `ci`, if there is one. -/
def processNotifyCmd (env : RequestEnv) (s : ByteStream) (d : Actiond) (ci : Nat) : Actiond :=
  match d.clients[ci]? with
  | some (some uid) =>
    match readRequest env.malloc s with
    | none => { d with clients := d.clients.set ci none }
    | some r => doRequest env uid d r
  | _ => d

/-! ## The action registry, read -/

/-- Why a line of the registry is not made into an action. -/
inductive LineFault where
  /-- "it is not what we intend to read" -/
  | notIntended
  /-- `strtok` returned NULL, and NULL was followed. -/
  | segv
  deriving DecidableEq, Repr

def field (s : CString) : Except LineFault (CString × CString) :=
  match CString.strtok [colon] s with
  | none => .error .segv
  | some r => .ok r

def number (s : CString) : Except LineFault (UInt64 × CString) := do
  let (tok, rest) ← field s
  match CString.strtoul tok with
  | none => .error .notIntended
  | some n => .ok (n, rest)

/-- The last two fields end at a blank too, and have a default. -/
def word (default s : CString) : CString × CString :=
  (CString.strtok [colon, 32, newline] s).getD (default, ⟨[], CString.noNul_nil⟩)

def noname : CString := ⟨[110, 111, 110, 97, 109, 101], by decide⟩

def noAnyStr : CString := ⟨[110, 111, 95, 97, 110, 121, 95, 115, 116, 114], by decide⟩

/-- An action from what follows the id on its line. The fields of the
header that the file does not have stay as `malloc` left them, and nothing
reads them before they are set. -/
def loadAction (passwd : UInt32 → Bool) (origin : Origin) (id : UInt64) (s : CString) :
    Except LineFault NfyAction := do
  let (quStr, s) ← field s
  if quStr.bytes = [] then .error .notIntended
  let (cmd, s) ← field s
  if cmd.bytes = [] then .error .notIntended
  let (uid, s) ← number s
  if passwd uid.toUInt32 = false then .error .notIntended
  let (gid, s) ← number s
  let (flags, s) ← number s
  let (thres, s) ← number s
  let (interval, s) ← number s
  let (name, s) := word noname s
  let (anyStr, _) := word noAnyStr s
  return {
    hdr := {
      cmdType := 0, nfyId := id.toUInt32.toInt32, uid := uid.toUInt32, gid := gid.toUInt32,
      flags := flags.toUInt32.toInt32 ||| posixLogActionPersist,
      quStrLen := 0, actionCmdLen := 0, nameLen := 0, anyStrLen := 0,
      thres := thres.toUInt32.toInt32, interval := interval.toUInt32, queryFlags := 0 }
    quStr, cmd, name, anyStr, origin }

/-- One turn of the loop in `loadActionsFromFile`, on a line as `fgets` read
it. `none` is the end of the daemon. -/
def loadLine (passwd : UInt32 → Bool) (d : Actiond) (line : List (UInt8 × Origin)) :
    Option Actiond :=
  match line with
  | [] => some d
  | (b, origin) :: _ =>
    if b = 35 ∨ b = newline then some d
    else
      match number (.ofBuf (line.map Prod.fst)) with
      | .error .notIntended => some d
      | .error .segv => none
      | .ok (id, s) =>
        let d := { d with nextNfyId := id.toUInt32.toInt32 }
        match loadAction passwd origin id s with
        | .error .notIntended => some d
        | .error .segv => none
        | .ok act => some { d with actions := d.actions ++ [act] }

def isNewline (b : UInt8 × Origin) : Bool := b.1 == newline

/-- The lines `fgets(line, SMALL_BUF_SIZE, f)` reads from the registry. -/
def registryLines (r : List (UInt8 × Origin)) : List (List (UInt8 × Origin)) :=
  fgetsAll isNewline (smallBufSize - 1) r.length r

/-- What the system decides while the daemon starts. -/
structure StartEnv where
  /-- The registry can be opened. -/
  opened : Bool
  /-- `getpwuid` finds the user. -/
  passwd : UInt32 → Bool
  /-- evlnotifyd takes the queries of all the actions. -/
  notifyAdd : Bool

/-- `loadActionsFromFile`. When evlnotifyd does not take a query, the
action is freed and stays in the list. -/
def loadActionsFromFile (env : StartEnv) (d : Actiond) : Actiond :=
  if env.opened then
    match (registryLines d.registry).foldlM (loadLine env.passwd) d with
    | none => exit d
    | some d => if env.notifyAdd || d.actions.isEmpty then d else { d with status := .undefined }
  else d

/-! ## Running an action -/

/-- What the system decides while an action is run. -/
structure ExecEnv where
  fork : Bool
  passwd : UInt32 → Bool
  initgroups : Bool

/-- `execute`: the child it forks, if that gets as far as `setuid`. -/
def execute (env : ExecEnv) (d : Actiond) (act : NfyAction) : Actiond :=
  if env.fork && env.passwd act.hdr.uid && env.initgroups then
    { d with children := d.children ++ [⟨act.hdr.uid, act.cmd, act.origin⟩] }
  else d

/-- `actions_handler`. An action with a threshold is run when its history
is past it (`due`). -/
def actionsHandler (env : ExecEnv) (due : Bool) (d : Actiond) (id : Int32) : Actiond :=
  match findAction d.actions id with
  | none => d
  | some act =>
    if 0 < act.hdr.thres ∧ 0 < act.hdr.interval then if due then execute env d act else d
    else execute env d act

/-! ## The daemon -/

/-- What happens to the daemon. -/
inductive Event where
  /-- It is started. -/
  | start (env : StartEnv)
  /-- A process of the user connects, and passes the checks or not. -/
  | connect (uid : UInt32) (granted : Bool)
  /-- Bytes have come in on a connection. -/
  | request (ci : Nat) (s : ByteStream) (env : RequestEnv)
  /-- evlnotifyd signals a match. -/
  | notify (id : Int32) (due : Bool) (env : ExecEnv)
  /-- SIGTERM, SIGHUP or SIGINT. -/
  | terminate (saved : Bool)
  /-- It is killed, or the machine goes down. -/
  | crash

def acceptClient (uid : UInt32) (granted : Bool) (d : Actiond) : Actiond :=
  match d.clients.findIdx? Option.isNone with
  | some ci => if granted then { d with clients := d.clients.set ci (some uid) } else d
  | none => d

/-- `main`, up to its loop. -/
def startActiond (env : StartEnv) (d : Actiond) : Actiond :=
  loadActionsFromFile env
    { d with
      status := .running, clients := List.replicate maxClients none, nextNfyId := 0, actions := []
      listDirtyCtr := 0 }

def step (d : Actiond) (e : Event) : Actiond :=
  match d.status, e with
  | .gone, .start env => startActiond env d
  | .running, .connect uid granted => acceptClient uid granted d
  | .running, .request ci s env => processNotifyCmd env s d ci
  | .running, .notify id due env => actionsHandler env due d id
  | .running, .terminate saved => exit (refreshActionRegistry saved d)
  | .running, .crash => exit d
  | _, _ => d

def beforeStart (registry : List (UInt8 × Origin)) : Actiond where
  status := .gone
  clients := []
  nextNfyId := 0
  actions := []
  listDirtyCtr := 0
  registry := registry
  children := []

end Evlog.Evlactiond
