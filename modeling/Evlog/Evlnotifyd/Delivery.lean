/-
Evlog.Evlnotifyd.Delivery — which events the daemon signals to whom.

The daemon of `Evlnotifyd.Notifyd`, but for one run of it and with its
clients. A request keeps a number, which tells it from every other one of
the run, and the connection it was registered over, if it was not loaded
from the file; the code has neither. A step
also gives the calls of `rt_sigqueueinfo` that it makes, and the
connections that it closes with `RM_REQUESTS`, in their order.

`validateProc` compares what it reads in `/proc` with the command that
was read there at the registration. If nothing was read then, `strcmp`
is given a null pointer, and that is the end of the daemon.
-/
import Evlog.Evlnotifyd.Notifyd

namespace Evlog.Evlnotifyd

/-- A request of the list. -/
structure Entry where
  req : NfyReq
  serial : Nat
  conn : Option Nat
  deriving DecidableEq, Repr

instance : Listed Entry := ⟨Entry.req⟩

/-- A slot of `clients` that is in use. -/
structure Client where
  ci : ClientInfo
  conn : Nat
  deriving DecidableEq, Repr

inductive Output where
  /-- A call of `rt_sigqueueinfo` for the request, and what it returned. -/
  | signalled (x : Entry) (ret : Int32)
  /-- `closeClientSocket` with `RM_REQUESTS`. -/
  | closed (conn : Nat)
  deriving DecidableEq, Repr

structure Server extends Daemon Entry where
  clients : List Client
  /-- How many connections there were. -/
  accepted : Nat
  /-- The number that a request gets which is registered with the next message. -/
  nextSerial : Nat
  crashed : Bool
  deriving DecidableEq

/-- The daemon without what is kept with the requests. -/
def plain (d : Daemon Entry) : Notifyd := { d with reqs := d.reqs.map Entry.req }

def Server.notifyd (s : Server) : Notifyd := plain s.toDaemon

def Server.start (n : Notifyd) : Server where
  reqs := n.reqs.zipIdx.map fun (req, i) => ⟨req, i, none⟩
  notifyReqHandle := n.notifyReqHandle
  listDirtyCtr := n.listDirtyCtr
  file := n.file
  clients := []
  accepted := 0
  nextSerial := n.reqs.length
  crashed := false

/-! ## Clients -/

def maxClients : Nat := 128

namespace Server

/-- The part of `main` that accepts a client that may read the log and gives
it a slot, if there is one left. -/
def connect (s : Server) (ci : ClientInfo) : Server :=
  if ci.sd < 0 then s
  else if s.clients.length < maxClients then
    { s with clients := s.clients ++ [⟨ci, s.accepted⟩], accepted := s.accepted + 1 }
  else s

/-- `closeClientSocket` with `RM_REQUESTS`. -/
def closeClientSocket (s : Server) (c : Client) : Server × List Output :=
  ({ s with
      toDaemon := Evlnotifyd.closeClientSocket s.toDaemon
      clients := s.clients.filter fun c' => c'.conn ≠ c.conn }, [.closed c.conn])

/-- What a message does to the list, and whether the connection is closed
then. -/
def request (s : Server) (c : Client) (msg : NfyNewRqMsg) (env : RequestEnv) : Server × Bool :=
  let (daemon, _, closes) :=
    answerClient (fun req => ⟨req, s.nextSerial, some c.conn⟩) s.toDaemon c.ci msg env
  ({ s with toDaemon := daemon, nextSerial := s.nextSerial + 1 }, closes)

def processClientRequest (s : Server) (c : Client) (msg : NfyNewRqMsg) (env : RequestEnv) :
    Server × List Output :=
  if (request s c msg env).2 then closeClientSocket (request s c msg env).1 c
  else ((request s c msg env).1, [])

end Server

/-! ## Events -/

/-- What a round of the loop of `processEvent` finds: whether there is a
match, the command line of the process in `/proc`, and what
`rt_sigqueueinfo` returns. -/
structure RoundEnv where
  isMatch : Bool
  cmdline : Option (List UInt8)
  sigqueue : Int32

/-- `validateProc`, which crashes where there is a command line and none to
compare it with. -/
def validateProc (cmdline procCmd : Option (List UInt8)) : Option Bool :=
  match cmdline, procCmd with
  | none, _ => some false
  | some _, none => none
  | some cmd, some cmdStr => some (cmdStr = cmd)

/-- The round for a request, if it comes to an end: what becomes of it, and
the signal. -/
def Entry.round (x : Entry) (env : RoundEnv) : Option (Entry × List Output) :=
  if x.req.flags &&& posixLogNfyDisabled ≠ 0 then some (x, [])
  else if x.req.quExpr.isSome ∧ ¬ env.isMatch then some (x, [])
  else
    match validateProc env.cmdline x.req.procCmd with
    | none => none
    | some alive =>
      some ({ x with req := notify x.req ⟨env.isMatch, alive, env.sigqueue⟩ },
        if alive then [.signalled x env.sigqueue] else [])

/-- The loop of `processEvent` from the `i`-th request on. It also says
whether it crashed. -/
def rounds (env : Nat → RoundEnv) : Nat → List Entry → List (Entry × List Output) × Bool
  | _, [] => ([], false)
  | i, x :: rest =>
    match x.round (env i) with
    | none => ((x :: rest).map fun y => (y, []), true)
    | some r => (r :: (rounds env (i + 1) rest).1, (rounds env (i + 1) rest).2)

def Server.processEvent (s : Server) (env : Nat → RoundEnv) : Server × List Output :=
  let (rs, crashed) := rounds env 0 s.reqs
  ({ s with reqs := rs.map Prod.fst, crashed := crashed }, rs.flatMap Prod.snd)

/-! ## Runs -/

namespace Server

inductive Act where
  | connect (ci : ClientInfo)
  | clientRequest (conn : Nat) (msg : NfyNewRqMsg) (env : RequestEnv)
  | event (env : Nat → RoundEnv)

def step (s : Server) (a : Act) : Server × List Output :=
  if s.crashed then (s, [])
  else
    match a with
    | .connect ci => (s.connect ci, [])
    | .clientRequest conn msg env =>
      match s.clients.find? fun c => c.conn = conn with
      | none => (s, [])
      | some c => s.processClientRequest c msg env
    | .event env => s.processEvent env

def stepTrace (t : Server × List Output) (a : Act) : Server × List Output :=
  ((step t.1 a).1, t.2 ++ (step t.1 a).2)

end Server

end Evlog.Evlnotifyd
