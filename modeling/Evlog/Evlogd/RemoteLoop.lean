/-
Evlog.Evlogd.RemoteLoop — the main loop of evlogrmtd.

evlogrmtd waits for hosts that connect, for the UDP socket, for each
connected host and for its own connection to evlogd. A host has to be in the
host table and to send the password; from then on its records are
forwarded. When the connection to evlogd breaks, evlogrmtd tries to connect
again each time it comes round.

An `Action` is a branch of the loop, and in which order the branches come
is left open. `validateTCPClients`, which closes the clients whose host is
not in the table any more, is an action for each slot. What is chosen
outside evlogrmtd is part of the action: a descriptor that the kernel gives
out, who the peer is, the bytes it sends, the password in the configuration
and how evlogd takes the record.
-/
import Evlog.Lib.ClientTable
import Evlog.Lib.Transition
import Evlog.Evlogd.Remote

namespace Evlog.Evlogd.Rmt

open Evlog.Lib Evlog.Posix Evlog.Evlogd.Socket

def clientSlotAvailable : Int := -100

def maxRmtConnections : Nat := 64

def maxRmtAuthdata : Int32 := 128

/-- `rmt_clientinfo_t`. `authdata_len` is the length of `authdata`. -/
structure Client where
  sd : Int
  addr : UInt32
  nodeId : Int32
  authenticated : Bool
  authdata : List UInt8
  deriving DecidableEq, Repr

def Client.taken (cl : Client) : Bool := cl.sd != clientSlotAvailable

def getMaxClientIndex (clients : List Client) : Int :=
  ClientTable.maxIndex Client.sd clientSlotAvailable clients

/-- The loop over `clients[]` in `closeClientSocket`, from `maxci` down. -/
def newMaxsd (clients : List Client) (maxci : Int) : Int := ClientTable.maxSd Client.sd clients maxci

/-! ## `authenticate` -/

inductive AuthResult where
  /-- More has to come. -/
  | more (authdata : List UInt8)
  | authenticated
  | failed
  deriving DecidableEq, Repr

/-- `sizeof(int)`. -/
def intSize : Nat := 4

/-- How many bytes to ask for, and how many there are going to be (-1 as
long as the length of the password is not known). -/
def authWanted (authdata : List UInt8) : Option (Nat × Int32) :=
  if authdata.length < intSize then some (intSize - authdata.length, -1)
  else
    let pwlen := ntohl (.ofNat (leNat (authdata.take intSize)))
    let total : Int32 := (UInt32.ofNat intSize + pwlen).toInt32
    if maxRmtAuthdata - 1 ≤ total ∨ total.toInt < authdata.length then none
    else some (total.toNatClampNeg - authdata.length, total)

/-- `authenticate` up to what it does about the result. `passwd` is the
password in the configuration; a `malloc` that fails is a `read` that
returns nothing. -/
def authenticate (passwd : Option (List UInt8)) (ci : Client) (s : ByteStream) : AuthResult :=
  match authWanted ci.authdata with
  | none => .failed
  | some (n, total) =>
    let data := (s.read n).1
    if data = [] then .failed
    else
      let authdata := ci.authdata ++ data
      if total < 0 ∨ (authdata.length : Int) < total.toInt then .more authdata
      else
        -- the password ends at its length, or at a NUL before that
        let clntPassword := (authdata.drop intSize).takeWhile (· ≠ 0)
        if passwd = some clntPassword then .authenticated else .failed

/-! ## The loop -/

structure Loop extends SelectSet where
  clients : List Client
  maxcl : Int
  maxci : Int
  evlogSd : Int
  tcpSd : Int
  udpSd : Int
  hostArray : List HostEntry

namespace Loop

def closeClientSocket (s : Loop) (i : Nat) (ci : Client) : Loop :=
  let clients := s.clients.set i { ci with sd := clientSlotAvailable, authdata := [] }
  let maxcl := s.maxcl - 1
  -- If maxsd = evlogd_sd, we don't need to compute the new maxsd
  if s.maxsd = s.evlogSd then
    { s with toSelectSet := s.remove ci.sd s.maxsd, clients, maxcl }
  else
    let maxci := getMaxClientIndex clients
    let newMaxsd := newMaxsd clients maxci
    let maxsd :=
      if newMaxsd = 0 ∧ ci.sd = s.maxsd then s.maxsd - 1
      else if newMaxsd ≠ 0 then if newMaxsd < s.evlogSd then s.evlogSd else newMaxsd
      else s.maxsd
    { s with toSelectSet := s.remove ci.sd maxsd, clients, maxcl, maxci }

/-- A client connects; `addr` is what `getpeername` says, if it says
anything. -/
def accept (s : Loop) (newsd : Int) (addr : Option UInt32) : Loop :=
  if s.maxcl = maxRmtConnections - 1 then s
  else
    match addr with
    | none => s
    | some addr =>
      match hostLookUp s.hostArray addr with
      | none => s
      | some nodeId =>
        let clients :=
          match s.clients.findIdx? fun cl => cl.sd == clientSlotAvailable with
          | some idx => s.clients.set idx ⟨newsd, addr, nodeId, false, []⟩
          | none => s.clients
        { s with
          toSelectSet := s.watch newsd
          clients
          maxcl := s.maxcl + 1
          maxci := getMaxClientIndex clients }

/-- evlogd at the other end, while evlogrmtd is connected. -/
def peer (s : Loop) (evlogd : EvlogdPeer) : Option EvlogdPeer :=
  if s.evlogSd = -1 then none else some evlogd

/-- The record that the trace hands on cannot be written to evlogd, or is
not answered. -/
def writeFails (s : Loop) (evlogd : EvlogdPeer) (t : ForwardTrace) : Bool :=
  match t.forwarded, s.peer evlogd with
  | some (rhdr, varbuf), some evlogd => (writeToEvlogd (some evlogd) rhdr varbuf).ret == -1
  | _, _ => false

/-- The way out of `writeToEvlogd` when something fails: `evlog_sd` is
closed. -/
def errExit (s : Loop) : Loop :=
  { s with opened := s.opened.erase s.evlogSd, evlogSd := -1 }

def finishWrite (s : Loop) (evlogd : EvlogdPeer) (t : ForwardTrace) : Loop :=
  if s.writeFails evlogd t then s.errExit else s

def unknownHost (s : Loop) (ci : Client) : Bool := (hostLookUp s.hostArray ci.addr).isNone

/-- `fwdClientEvent`. -/
def clientTrace (s : Loop) (ci : Client) (evlogd : EvlogdPeer) (stream : ByteStream) : ForwardTrace :=
  fwdClientEvent (s.peer evlogd) ci.nodeId stream

def clientReady (s : Loop) (i : Nat) (ci : Client) (stream : ByteStream)
    (passwd : Option (List UInt8)) (evlogd : EvlogdPeer) : Loop :=
  if ci.authenticated then
    let t := s.clientTrace ci evlogd stream
    if t.closed then s.closeClientSocket i ci else s.finishWrite evlogd t
  else
    match authenticate passwd ci stream with
    | .more authdata => { s with clients := s.clients.set i { ci with authdata } }
    | .authenticated =>
      { s with clients := s.clients.set i { ci with authenticated := true, authdata := [] } }
    | .failed => s.closeClientSocket i ci

/-- The branches of the loop. -/
inductive Action where
  /-- `reinitHostArray`, with the table as it is then. -/
  | reinit (hostArray : List HostEntry)
  /-- `validateTCPClients` comes to a slot. -/
  | validate (i : Nat)
  /-- `connectToEvlogd`, which may fail. -/
  | reconnect (sd : Option Int)
  | accept (newsd : Int) (addr : Option UInt32)
  | udp (addr : UInt32) (datagram : List UInt8) (evlogd : EvlogdPeer)
  | client (i : Nat) (stream : ByteStream) (passwd : Option (List UInt8)) (evlogd : EvlogdPeer)
  /-- evlogd goes away. -/
  | evlogdGone

def step (s : Loop) : Action → Loop
  | .reinit hostArray => { s with hostArray }
  | .validate i =>
    match s.clients[i]? with
    | some ci => if ci.taken && s.unknownHost ci then s.closeClientSocket i ci else s
    | none => s
  | .reconnect none => s
  | .reconnect (some sd) =>
    if s.evlogSd = -1 ∧ s.Unused sd then { s with toSelectSet := s.watch sd, evlogSd := sd } else s
  | .accept newsd addr =>
    if s.tcpSd ∈ s.allSds ∧ s.Unused newsd then s.accept newsd addr else s
  | .udp addr datagram evlogd =>
    if s.udpSd ∈ s.allSds then
      s.finishWrite evlogd (recvUDP (s.peer evlogd) s.hostArray addr datagram)
    else s
  | .client i stream passwd evlogd =>
    match s.clients[i]? with
    | some ci =>
      if (i : Int) ≤ s.maxci ∧ ci.taken ∧ ci.sd ∈ s.allSds then
        s.clientReady i ci stream passwd evlogd
      else s
    | none => s
  | .evlogdGone =>
    if 0 < s.evlogSd ∧ s.evlogSd ∈ s.allSds then
      { s with toSelectSet := s.lower s.evlogSd, evlogSd := -1 }
    else s

/-- What evlogrmtd has when the loop begins. 0, 1 and 2 are /dev/null, or
the terminal. -/
structure Setup where
  evlogSd : Int
  tcpSd : Int
  udpSd : Int
  hostArray : List HostEntry
  opened : Finset Int
  std : {0, 1, 2} ⊆ opened
  evlogd : evlogSd = -1 ∨ 0 < evlogSd
  distinct : tcpSd ≠ udpSd ∧ tcpSd ≠ evlogSd ∧ udpSd ≠ evlogSd
  listening : 0 < tcpSd ∧ 0 < udpSd
  isOpen : tcpSd ∈ opened ∧ udpSd ∈ opened ∧ (evlogSd ≠ -1 → evlogSd ∈ opened)

def start (su : Setup) : Loop where
  allSds := if su.evlogSd ≠ -1 then {su.evlogSd, su.tcpSd, su.udpSd} else {su.tcpSd, su.udpSd}
  maxsd := if su.evlogSd ≠ -1 then max (max su.tcpSd su.udpSd) su.evlogSd else max su.tcpSd su.udpSd
  opened := su.opened
  clients := List.replicate maxRmtConnections ⟨clientSlotAvailable, 0, 0, false, []⟩
  maxcl := 0
  maxci := 0
  evlogSd := su.evlogSd
  tcpSd := su.tcpSd
  udpSd := su.udpSd
  hostArray := su.hostArray

end Loop

end Evlog.Evlogd.Rmt
