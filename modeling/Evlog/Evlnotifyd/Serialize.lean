/-
Evlog.Evlnotifyd.Serialize — the file of requests (serialize.c).

A request is saved as a `req_rec_hdr_t`, the expression of its query and
the command line of its process; the header has the two lengths, and
`<null>` stands for a query that is not there. The functions work on a
copy of the file that is renamed when they have succeeded. The structures
are laid out as on x86_64, and the padding and the members of `sigevent_t`
that are not for `SIGEV_SIGNAL` are rendered as zeros.

`Evlnotifyd.Notifyd` has the same functions on lists of records; this is
how they come to be records.
-/
import Evlog.Lib.OpenFile
import Evlog.Query.Create
import Evlog.Evlnotifyd.Notifyd

namespace Evlog.Evlnotifyd.Serialize

open Evlog.Lib Evlog.Query

/-- A `nfyReq_t`, with its query. -/
structure Request where
  handle : UInt64
  pid : Int32
  sd : Int32
  flags : UInt32
  sigevent : Sigevent
  nfyQuery : Option PosixLogQuery
  procCmd : Option (List UInt8)

/-! ## Records -/

/-- A `req_rec_hdr_t`. -/
structure ReqRecHdr where
  recMagic : UInt32
  handle : UInt64
  pid : Int32
  sd : Int32
  flags : UInt32
  sigEvt : Sigevent
  queryLen : Int32
  cmdLineLen : Int32
  deriving DecidableEq, Repr

/-- `sizeof(req_rec_hdr_t)`. -/
def reqRecHdrSize : Nat := 104

def reqRecMagic : UInt32 := 0xbeefface

def ReqRecHdr.toBytes (h : ReqRecHdr) : List UInt8 :=
  leBytes 4 h.recMagic.toNat ++ (leBytes 4 0 ++ (leBytes 8 h.handle.toNat ++
  (leBytes 4 h.pid.toUInt32.toNat ++ (leBytes 4 h.sd.toUInt32.toNat ++
  (leBytes 4 h.flags.toNat ++ (leBytes 4 0 ++ (leBytes 8 h.sigEvt.sigevValue.toNat ++
  (leBytes 4 h.sigEvt.sigevSigno.toUInt32.toNat ++ (leBytes 4 h.sigEvt.sigevNotify.toUInt32.toNat ++
  (leBytes 48 0 ++ (leBytes 4 h.queryLen.toUInt32.toNat ++
  leBytes 4 h.cmdLineLen.toUInt32.toNat)))))))))))

def ReqRecHdr.ofBytes (bs : List UInt8) : ReqRecHdr :=
  let (magic, bs) := takeLE 4 bs
  let (_, bs) := takeLE 4 bs
  let (handle, bs) := takeLE 8 bs
  let (pid, bs) := takeLE 4 bs
  let (sd, bs) := takeLE 4 bs
  let (flags, bs) := takeLE 4 bs
  let (_, bs) := takeLE 4 bs
  let (value, bs) := takeLE 8 bs
  let (signo, bs) := takeLE 4 bs
  let (notify, bs) := takeLE 4 bs
  let (_, bs) := takeLE 48 bs
  let (queryLen, bs) := takeLE 4 bs
  let (cmdLineLen, _) := takeLE 4 bs
  { recMagic := .ofNat magic
    handle := .ofNat handle
    pid := (UInt32.ofNat pid).toInt32
    sd := (UInt32.ofNat sd).toInt32
    flags := .ofNat flags
    sigEvt := ⟨(UInt32.ofNat notify).toInt32, (UInt32.ofNat signo).toInt32, .ofNat value⟩
    queryLen := (UInt32.ofNat queryLen).toInt32
    cmdLineLen := (UInt32.ofNat cmdLineLen).toInt32 }

def Request.queryStr (req : Request) : List UInt8 :=
  match req.nfyQuery with
  | none => nullqu
  | some q => q.expr

def Request.hdr (req : Request) (cmd : List UInt8) : ReqRecHdr where
  recMagic := reqRecMagic
  handle := req.handle
  pid := req.pid
  sd := req.sd
  flags := req.flags
  sigEvt := req.sigevent
  queryLen := .ofNat req.queryStr.length
  cmdLineLen := .ofNat cmd.length

/-- `writeReqToFile`; `ok` is that the three writes are complete. -/
def writeReqToFile (f : OpenFile) (req : Request) (ok : Bool) : Option OpenFile :=
  match req.procCmd with
  | none => none
  | some cmd =>
    if ok then some (((f.write (req.hdr cmd).toBytes).write req.queryStr).write cmd) else none

/-! ## The file and its copy -/

/-- What the functions find: whether the file can be opened, the copy be
made of it, and the `i`-th request be written. -/
structure FileEnv where
  openOk : Bool
  copyOk : Bool
  writeOk : Nat → Bool

/-- `openReqFile` without and with `O_TRUNC`, and the copy if there is
one. -/
def openReqFile (env : FileEnv) (create trunc : Bool) (file : Option (List UInt8)) :
    Option (List UInt8) × Option OpenFile :=
  if env.openOk ∧ (create ∨ file.isSome) then
    let content := if trunc then [] else file.getD []
    (some content, if env.copyOk then some ⟨content, 0⟩ else none)
  else (file, none)

/-- `closeReqFile` after success. -/
def closeReqFile (f : OpenFile) : Option (List UInt8) := some f.content

/-- The loop of `writeRequestsToFile` from the `i`-th request on. -/
def writeLoop (env : FileEnv) : Nat → List Request → OpenFile → Option OpenFile
  | _, [], f => some f
  | i, req :: reqs, f =>
    match writeReqToFile f req (env.writeOk i) with
    | none => none
    | some f => writeLoop env (i + 1) reqs f

/-- `writeRequestsToFile`: the file, and whether it returns 0. -/
def writeRequestsToFile (env : FileEnv) (reqs : List Request) (file : Option (List UInt8)) :
    Option (List UInt8) × Bool :=
  match openReqFile env false true file with
  | (file, none) => (file, false)
  | (file, some f) =>
    match writeLoop env 0 reqs f with
    | none => (file, false)
    | some f => (closeReqFile f, true)

/-- `appendReqToFile`: the file, and whether it returns 0. -/
def appendReqToFile (env : FileEnv) (req : Request) (file : Option (List UInt8)) :
    Option (List UInt8) × Bool :=
  match openReqFile env true false file with
  | (file, none) => (file, false)
  | (file, some f) =>
    match writeReqToFile { f with offset := f.content.length } req (env.writeOk 0) with
    | none => (file, false)
    | some f => (closeReqFile f, true)

/-! ## The load -/

/-- `readNextQueryStrFromFile` and `readNextCmdStrFromFile`. A length below
zero is none that a read can return. -/
def readNextStrFromFile (f : OpenFile) (len : Int32) : Option (List UInt8 × OpenFile) :=
  if len < 0 then none
  else
    let (bytes, f) := f.read len.toNatClampNeg
    if bytes.length = len.toNatClampNeg then some (bytes, f) else none

def cStr (bytes : List UInt8) : List UInt8 := bytes.takeWhile (· ≠ 0)

/-- What the load finds besides the file: the surroundings and the grammar
of queries, and the command line in `/proc` of the process of the `i`-th
record. -/
structure LoadEnv where
  sys : System
  parse : List UInt8 → Option PNode
  cmdline : Nat → Int32 → Option (List UInt8)

/-- The three calls of `posix_log_query_create`. -/
def LoadEnv.queryCreate (env : LoadEnv) (expr : List UInt8) : Option (Except Errno PosixLogQuery) :=
  match posixLogQueryCreate env.sys env.parse expr posixLogPrpsNotify with
  | some (.error _) =>
    match posixLogQueryCreate env.sys env.parse expr posixLogPrpsNotify with
    | some (.error _) => posixLogQueryCreate env.sys env.parse expr evlPrpsTemplate
    | r => r
  | r => r

structure Loaded where
  reqs : List Request
  notifyReqHandle : UInt64

/-- The rest of the round for a record whose process is there, if the query
can be made. -/
def loadRequest (env : LoadEnv) (s : Loaded) (hdr : ReqRecHdr) (queryStr cmdStr : List UInt8) :
    Option (Except Errno Loaded) :=
  let query : Option (Except Errno (Option PosixLogQuery)) :=
    if queryStr = nullqu then some (.ok none) else (env.queryCreate queryStr).map (·.map some)
  query.map fun r => r.map fun nfyQuery =>
    { reqs := s.reqs ++
        [{ handle := hdr.handle
           pid := hdr.pid
           sd := -1
           flags := hdr.flags
           sigevent := hdr.sigEvt
           nfyQuery := nfyQuery
           procCmd := some cmdStr }]
      notifyReqHandle := hdr.handle }

/-- How a round of the loop ends: with what `rec` holds, the file and the
list for the next one, or with the loop. -/
inductive Round where
  | next (buf : List UInt8) (f : OpenFile) (s : Loaded)
  | leave (complete : Bool)

/-- The round of the loop of `loadReqFromFile` for the `i`-th record, where
`buf` is what `rec` holds. It is `none` if an assertion fails in the making
of a query. -/
def loadRound (env : LoadEnv) (i : Nat) (buf : List UInt8) (f : OpenFile) (s : Loaded) : Option Round :=
  let (bytes, f) := f.read reqRecHdrSize
  if bytes = [] then some (.leave true)
  else
    let buf := bytes ++ buf.drop bytes.length
    let hdr := ReqRecHdr.ofBytes buf
    if hdr.recMagic ≠ reqRecMagic then some (.leave false)
    else
      match readNextStrFromFile f hdr.queryLen with
      | none => some (.leave false)
      | some (query, f) =>
        match readNextStrFromFile f hdr.cmdLineLen with
        | none => some (.leave false)
        | some (cmd, f) =>
          if env.cmdline i hdr.pid ≠ some (cStr cmd) then some (.next buf f s)
          else
            match loadRequest env s hdr (cStr query) (cStr cmd) with
            | none => none
            | some (.error _) => some (.leave false)
            | some (.ok s) => some (.next buf f s)

/-- The loop from the `i`-th record on. It also says whether it got to the
end of the file. -/
def loadLoop (env : LoadEnv) : Nat → Nat → List UInt8 → OpenFile → Loaded → Option (Loaded × Bool)
  | 0, _, _, _, s => some (s, false)
  | fuel + 1, i, buf, f, s =>
    match loadRound env i buf f s with
    | none => none
    | some (.leave complete) => some (s, complete)
    | some (.next buf f s) => loadLoop env fuel (i + 1) buf f s

/-- `loadReqFromFile` from the content of the file, which each round takes
some bytes of. -/
def loadReqFromFile (env : LoadEnv) (content : List UInt8) : Option (Loaded × Bool) :=
  loadLoop env (content.length + 1) 0 (List.replicate reqRecHdrSize 0) ⟨content, 0⟩ ⟨[], 0⟩

end Evlog.Evlnotifyd.Serialize
