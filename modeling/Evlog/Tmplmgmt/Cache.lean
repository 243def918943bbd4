/-
Evlog.Tmplmgmt.Cache — the templates the template manager hands out.

A template is known by its address, and an address is never used again, so
that what points to a template that was freed can be told from what points
to one that is in memory. `TmplFile` is what is read from a file; what
`redirect2` reads of a populated template are the attributes' values, which
depend on the file and on the record.

A call uses the templates that are on the disk while it runs (`Disk`). It
fails (`Fault`) where an assertion does, where a slot is none of the hash
table, and where a template that is no longer in memory is used.
-/
import Evlog.Tmplmgmt.HashTheorems
import Evlog.Lib.WhileLoop

namespace Evlog.Tmplmgmt

open Evlog.Lib

/-! ## Templates -/

/-- `struct redirectedAttribute` -/
inductive RedirectedAttribute (α : Type) where
  | none
  | const (value : α)
  | attname (name : CString)
  deriving DecidableEq, Repr

/-- `posix_log_facility_t` -/
abbrev FacCode := { n : Nat // n < 2 ^ 32 }

abbrev EventType := { n : Int // IsInt32 n }

/-- `tmpl_redirection_t` -/
structure Redirection where
  fac : Option (RedirectedAttribute FacCode)
  evtype : Option (RedirectedAttribute EventType)
  deriving DecidableEq

/-- What `getRedirectionAtt` gives the value of: a scalar that is a string
or an integer. -/
inductive AttValue where
  | string (s : CString)
  | integer (ulong : Nat) (long : Int)
  deriving DecidableEq, Repr

variable {R : Type}

/-- What is in the file of a template. `att` is the attribute of the name,
once the template is populated with a record; there may be none, or none
that has such a value. -/
structure TmplFile (R : Type) where
  key : FacEvent
  redirection : Option Redirection
  att : R → CString → Option AttValue

/-- `template_t`, as far as the manager sees it. -/
structure Template (R : Type) where
  file : TmplFile R
  master : Option Nat
  refCount : Nat
  populated : Option R
  freed : Bool

/-- The cache, and the templates that were ever in memory. -/
structure Mgr (R : Type) where
  hash : FetHash
  tmpls : List (Template R)

/-- `_evlTmplMgmtFlags` -/
structure MgmtFlags where
  ignoreAll : Bool
  reuse1Clone : Bool
  lazyDepop : Bool
  deriving DecidableEq, Repr

/-- Why a call does not return. -/
inductive Fault where
  | assertion
  /-- The slot is none of the table. -/
  | outOfBounds
  /-- There is no such template in memory. -/
  | dangling
  deriving DecidableEq, Repr

def Fault.ofAbort : Abort → Fault
  | .assertion => .assertion
  | .outOfBounds => .outOfBounds

inductive Errno where
  | einval
  | enoent
  | eio
  deriving DecidableEq, Repr

/-- What is found at a path: no file, one that no template can be loaded
from, or a template. -/
inductive DiskFile (R : Type) where
  | missing
  | unreadable
  | template (file : TmplFile R)

/-- What is outside while a call runs: for a facility that is in the
registry, what is in each directory of the path; and what facility and what
event type a string is. -/
structure Host (R : Type) where
  files : FacEvent → Option (List (DiskFile R))
  strtofac : CString → Option FacCode
  genEventType : CString → EventType

/-- An event record: its facility and event type, the rest of it, and
whether there is no buffer though it has data. -/
structure Event (R : Type) where
  key : FacEvent
  record : R
  noBuf : Bool

def evlDefaultEventType : Int := -1

def FacEvent.toDefault (k : FacEvent) : FacEvent :=
  ⟨k.facility, evlDefaultEventType, k.facility_lt, by decide⟩

namespace Mgr

def start : Mgr R := ⟨.empty, []⟩

def deref (m : Mgr R) (t : Nat) : Except Fault (Template R) :=
  match m.tmpls[t]? with
  | some tm => if tm.freed then .error .dangling else .ok tm
  | none => .error .dangling

def put (m : Mgr R) (t : Nat) (tm : Template R) : Mgr R := { m with tmpls := m.tmpls.set t tm }

def putFet (m : Mgr R) (addr : Nat) (fet : Fet) : Mgr R :=
  { m with hash := { m.hash with fets := m.hash.fets.set addr fet } }

/-- `_evlReadTemplate`, for a file that has a template in it. -/
def readTemplateFile (m : Mgr R) (file : TmplFile R) : Nat × Mgr R :=
  (m.tmpls.length, { m with tmpls := m.tmpls ++ [⟨file, none, 0, none, false⟩] })

def cloneTemplate (m : Mgr R) (t : Nat) : Except Fault (Nat × Mgr R) := do
  let tm ← m.deref t
  if tm.master.isSome ∨ tm.populated.isSome then .error .assertion
  else
    let m := m.put t { tm with refCount := tm.refCount + 1 }
    .ok (m.tmpls.length, { m with tmpls := m.tmpls ++ [⟨tm.file, some t, 0, none, false⟩] })

def tmplDecRef (m : Mgr R) (t : Nat) : Except Fault (Mgr R) := do
  let tm ← m.deref t
  .ok (m.put t { tm with refCount := tm.refCount - 1 })

def freeTemplate (m : Mgr R) (t : Nat) : Except Fault (Mgr R) := do
  let tm ← m.deref t
  if tm.refCount ≠ 0 then .error .assertion
  else
    let m := m.put t { tm with populated := none, freed := true }
    match tm.master with
    | some master => m.tmplDecRef master
    | none => .ok m

/-- `evl_populatetemplate`, for a clone. -/
def populateTemplate (m : Mgr R) (t : Nat) (record : R) : Except Fault (Mgr R) := do
  let tm ← m.deref t
  .ok (m.put t { tm with populated := some record })

def depopulateTemplate (m : Mgr R) (t : Nat) : Except Fault (Mgr R) := do
  let tm ← m.deref t
  .ok (m.put t { tm with populated := none })

/-! ## Finding a template -/

/-- The FET that is found, or the one for the default template that it has. -/
def findFet (m : Mgr R) (k : FacEvent) : Except Fault (Option (Nat × Fet)) :=
  match findFETInHash k m.hash with
  | none => .error .outOfBounds
  | some none => .ok none
  | some (some node) =>
    match m.hash.fets[node.addr]? with
    | none => .error .dangling
    | some fet =>
      match fet.default with
      | none => .ok (some (node.addr, fet))
      | some dflt =>
        match m.hash.fets[dflt]? with
        | none => .error .dangling
        | some fet => .ok (some (dflt, fet))

/-- `findEvlogTemplate`: the template, if there is one in memory, and the
FET's flag. -/
def findEvlogTemplate (flags : MgmtFlags) (m : Mgr R) (k : FacEvent) (clone : Bool) :
    Except Fault (Option Nat × Bool × Mgr R) := do
  match ← m.findFet k with
  | none => .ok (none, false, m)
  | some (addr, fet) =>
    match fet.template with
    | none => .ok (none, fet.notThere, m)
    | some t =>
      let tm ← m.deref t
      if tm.master.isNone then
        if clone then
          let (cl, m) ← m.cloneTemplate t
          let m := if flags.reuse1Clone then m.putFet addr { fet with template := some cl } else m
          .ok (some cl, fet.notThere, m)
        else .ok (some t, fet.notThere, m)
      else if clone then .ok (some t, fet.notThere, m)
      else .ok (tm.master, fet.notThere, m)

/-! ## `evl_readtemplate` -/

/-- The loop over the directories: the first template whose header matches,
and whether a file that is no good was seen. -/
def searchDirs (k : FacEvent) : List (DiskFile R) → Option (TmplFile R) × Bool
  | [] => (none, false)
  | .missing :: rest => searchDirs k rest
  | .unreadable :: rest => ((searchDirs k rest).1, true)
  | .template file :: rest =>
    if file.key = k then (some file, false) else ((searchDirs k rest).1, true)

/-- The template is handed out, and is in the cache from now on: the clone
is, if a clone is wanted. -/
def handOut (m : Mgr R) (file : TmplFile R) (clone : Bool) : Except Fault (Nat × Mgr R) := do
  let (t, m) := m.readTemplateFile file
  let (t, m) ← if clone then m.cloneTemplate t else .ok (t, m)
  match addTemplateToFETHash m.hash file.key t with
  | .ok hash => .ok (t, { m with hash := hash })
  | .error a => .error (.ofAbort a)

def addFet (m : Mgr R) (k : FacEvent) (fet : Fet) : Except Fault (Mgr R) :=
  match addFETToHash m.hash k fet with
  | some hash => .ok { m with hash := hash }
  | none => .error .outOfBounds

/-- What is read when there is no template for the event type, which is the
default one if there is nothing to fall back to. -/
def noSuchTemplate (fallback : Option (Mgr R → Except Fault (Except Errno Nat × Mgr R)))
    (m : Mgr R) (k : FacEvent) (unreadable : Bool) : Except Fault (Except Errno Nat × Mgr R) := do
  let failed (m : Mgr R) (e : Errno) : Except Fault (Except Errno Nat × Mgr R) := do
    let m ← m.addFet k ⟨none, none, true⟩
    .ok (.error (if unreadable then .eio else e), m)
  match fallback with
  | none => failed m .enoent
  | some readDefault =>
    match ← readDefault m with
    | (.error e, m) => failed m e
    | (.ok t, m) =>
      match findFETInHash k.toDefault m.hash with
      | none => .error .outOfBounds
      | some none => .error .assertion
      | some (some node) => do
        let m ← m.addFet k ⟨none, some node.addr, false⟩
        .ok (.ok t, m)

/-- `readTemplateLocked`, with what it falls back to. -/
def readTemplateOr (fallback : Option (Mgr R → Except Fault (Except Errno Nat × Mgr R)))
    (flags : MgmtFlags) (host : Host R) (m : Mgr R) (k : FacEvent) (clone : Bool) :
    Except Fault (Except Errno Nat × Mgr R) := do
  if flags.ignoreAll then .ok (.error .enoent, m)
  else
    match ← m.findEvlogTemplate flags k clone with
    | (some t, _, m) => .ok (.ok t, m)
    | (none, true, m) => .ok (.error .enoent, m)
    | (none, false, m) =>
      match (host.files k).elim (none, false) (searchDirs k) with
      | (some file, _) => do
        let (t, m) ← m.handOut file clone
        .ok (.ok t, m)
      | (none, unreadable) => noSuchTemplate fallback m k unreadable

/-- `evl_readtemplate`, which calls itself for the default event type. -/
def readTemplate (flags : MgmtFlags) (host : Host R) (m : Mgr R) (k : FacEvent) (clone : Bool) :
    Except Fault (Except Errno Nat × Mgr R) :=
  if k.eventType = evlDefaultEventType then readTemplateOr none flags host m k clone
  else
    readTemplateOr (some fun m => readTemplateOr none flags host m k.toDefault clone) flags host m k
      clone

/-! ## `evl_releasetemplate` -/

/-- `evl_freetemplate`. The caller has looked at `tm_ref_count`. -/
def freeCached (m : Mgr R) (t : Nat) : Except Fault (Mgr R) := do
  let tm ← m.deref t
  match findFETInHash tm.file.key m.hash with
  | none => .error .outOfBounds
  | some none => m.freeTemplate t
  | some (some node) =>
    match m.hash.fets[node.addr]? with
    | none => .error .dangling
    | some fet =>
      let m := if fet.template = some t then m.putFet node.addr { fet with template := tm.master } else m
      m.freeTemplate t

def releaseTemplate (flags : MgmtFlags) (m : Mgr R) (t : Nat) : Except Fault (Mgr R) := do
  let tm ← m.deref t
  if tm.refCount ≠ 0 then .ok m
  else
    let m ← if flags.lazyDepop then .ok m else m.depopulateTemplate t
    if tm.master.isSome ∧ flags.reuse1Clone then .ok m else m.freeCached t

/-! ## `evl_gettemplate` -/

/-- `getRedirectionAtt`, and the value. -/
def getRedirectionAtt (m : Mgr R) (event : Event R) (t : Nat) (name : CString) :
    Except Fault (Option AttValue × Mgr R) := do
  let tm ← m.deref t
  match tm.populated with
  | some record => .ok (tm.file.att record name, m)
  | none =>
    if event.noBuf then .ok (none, m)
    else
      let m ← m.populateTemplate t event.record
      .ok (tm.file.att event.record name, m)

/-- The facility in `redirect2`. -/
def redirectFac (m : Mgr R) (host : Host R) (event : Event R) (t : Nat) (fac : FacCode) :
    Option (RedirectedAttribute FacCode) → Except Fault (Option FacCode × Mgr R)
  | none | some .none => .ok (some fac, m)
  | some (.const value) => .ok (some value, m)
  | some (.attname name) => do
    match ← m.getRedirectionAtt event t name with
    | (none, m) => .ok (none, m)
    | (some (.string s), m) => .ok (host.strtofac s, m)
    | (some (.integer ulong _), m) => .ok (some ⟨ulong % 2 ^ 32, Nat.mod_lt _ (by decide)⟩, m)

/-- The event type in `redirect2`. -/
def redirectEvtype (m : Mgr R) (host : Host R) (event : Event R) (t : Nat) (evtype : EventType) :
    Option (RedirectedAttribute EventType) → Except Fault (Option EventType × Mgr R)
  | none | some .none => .ok (some evtype, m)
  | some (.const value) => .ok (some value, m)
  | some (.attname name) => do
    match ← m.getRedirectionAtt event t name with
    | (none, m) => .ok (none, m)
    | (some (.string s), m) => .ok (some (host.genEventType s), m)
    | (some (.integer _ long), m) => .ok (some ⟨toInt32 long, isInt32_toInt32 long⟩, m)

/-- `redirect`, with `redirect2`: the facility and the event type, unless
the redirection fails or comes round. -/
def redirect (m : Mgr R) (host : Host R) (event : Event R) (t : Nat) (rd : Redirection) (k : FacEvent)
    (history : List FacEvent) : Except Fault (Option FacEvent × Mgr R) := do
  if k ∈ history then .ok (none, m)
  else
    match ← m.redirectFac host event t ⟨k.facility, k.facility_lt⟩ rd.fac with
    | (none, m) => .ok (none, m)
    | (some fac, m) =>
      match ← m.redirectEvtype host event t ⟨k.eventType, k.isInt32⟩ rd.evtype with
      | (none, m) => .ok (none, m)
      | (some evtype, m) => .ok (some ⟨fac.1, evtype.1, fac.2, evtype.2⟩, m)

end Mgr

/-- The variables of `evl_gettemplate`. -/
structure GetState (R : Type) where
  mgr : Mgr R
  key : FacEvent
  history : List FacEvent
  lastValidTmpl : Option Nat
  prevTmpl : Option Nat

/-- The body of the loop of `evl_gettemplate`. What it reports is that there
will be another turn, and what will be read. -/
def getTurn (flags : MgmtFlags) (host : Host R) (event : Event R) (s : GetState R) :
    Turn (GetState R) (Except Fault (Except Errno Nat × Mgr R)) (Mgr R × FacEvent) :=
  match s.mgr.readTemplate flags host s.key true with
  | .error f => .stop (.error f)
  | .ok (.error e, m) => .stop (.ok (s.lastValidTmpl.elim (.error e) .ok, m))
  | .ok (.ok t, m) =>
    match s.prevTmpl.elim (.ok m) (m.releaseTemplate flags) with
    | .error f => .stop (.error f)
    | .ok m =>
      match m.deref t with
      | .error f => .stop (.error f)
      | .ok tm =>
        match tm.file.redirection with
        | none => .stop (.ok (.ok t, m))
        | some rd =>
          match m.redirect host event t rd s.key s.history with
          | .error f => .stop (.error f)
          | .ok (none, m) => .stop (.ok (.ok t, m))
          | .ok (some k, m) =>
            .next ⟨m, k, s.history ++ [s.key], some t, some t⟩ [(m, k)]

/-- As many turns as there are facilities and event types, and one more. -/
def getTurns : Nat := 2 ^ 64 + 1

def getTemplate (flags : MgmtFlags) (host : Host R) (m : Mgr R) (event : Event R) :
    Option (Except Fault (Except Errno Nat × Mgr R) × List (Mgr R × FacEvent)) :=
  whileLoop (getTurn flags host event) getTurns ⟨m, event.key, [], none, none⟩

/-! ## Programs -/

/-- A call that a program makes. A template that is released is one that was
handed out. -/
inductive Call (R : Type) where
  | read (host : Host R) (k : FacEvent)
  | get (host : Host R) (event : Event R)
  | release (i : Nat)

/-- A program: the templates it was handed out and has not released, and
whether a call did not return. -/
structure Program (R : Type) where
  mgr : Mgr R
  held : List Nat
  ended : Bool

namespace Program

def start : Program R := ⟨.start, [], false⟩

def returned (p : Program R) : Except Fault (Except Errno Nat × Mgr R) → Program R
  | .error _ => { p with ended := true }
  | .ok (.error _, m) => { p with mgr := m }
  | .ok (.ok t, m) => { p with mgr := m, held := p.held ++ [t] }

def step (flags : MgmtFlags) (p : Program R) (c : Call R) : Program R :=
  if p.ended then p
  else
    match c with
    | .read host k => p.returned (p.mgr.readTemplate flags host k true)
    | .get host event =>
      match getTemplate flags host p.mgr event with
      | none => { p with ended := true }
      | some (res, _) => p.returned res
    | .release i =>
      match p.held[i]? with
      | none => p
      | some t =>
        match p.mgr.releaseTemplate flags t with
        | .error _ => { p with ended := true }
        | .ok m => { p with mgr := m, held := p.held.eraseIdx i }

end Program

end Evlog.Tmplmgmt
