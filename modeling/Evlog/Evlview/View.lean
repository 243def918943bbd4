/-
Evlog.Evlview.View — evlview, from one operation on the log to the next.

evlview copies the records of a log that match a filter: all, the last few,
either way round, or those logged while it waits. Meanwhile evlogmgr may
delete records. The next operation on the log then fails with EBADF;
evlview opens the log again and looks for the place where it was.

The program is a machine here. A `Point` is an operation on the log that
it is about to make, with the variables that are alive there; `Pc` adds
the operations of `handleReadOrSeekFailure`, which remembers the point
that it was called from. One step is one operation. Before it the world
moves on by one entry of the `script`: records are logged, or deleted by
a maintenance run. When the script is used up the log does not change any
more, so a script stands for a finite number of changes between any two
operations.

The log is a list of records and the read pointer an index into it;
`Evlog.Evlview.LogTheorems` shows that `posix_log_seek` does to a log file
what `logSeek` does to the list, and that `posix_log_read` returns the
record at the index. That the log can be opened again after a maintenance run is taken
for granted, as is that evlnotifyd is there. With `--timeout` the program
ends where the machine stays asleep.
-/
import Evlog.Lib.Cursor
import Evlog.Lib.Machine
import Evlog.Posix.SeekTheorems

namespace Evlog.Evlview

open Evlog.Lib Evlog.Posix

/-! ## The log -/

def recid (r : LogRecord) : Int := r.entry.logRecid.toInt

/-- `posix_log_seek` on a log that has not been touched since it was
opened: whether a record was found, and the new place. -/
def logSeek (query : Option QueryEval) (direction : SeekDirection) (log : List LogRecord)
    (pos : Nat) : Bool × Nat :=
  let forwardFrom (start : Nat) : Bool × Nat :=
    match Cursor.nextIndex (LogRecord.matches query) log start with
    | some j => (true, j)
    | none => (false, start)
  let backwardFrom (start : Nat) : Bool × Nat :=
    match Cursor.prevIndex (LogRecord.matches query) log start with
    | some j => (true, j)
    | none => (false, start)
  match direction with
  | .POSIX_LOG_SEEK_START => (true, 0)
  | .POSIX_LOG_SEEK_END => (true, log.length)
  | .POSIX_LOG_SEEK_FIRST => if query.isSome then forwardFrom 0 else (true, 0)
  | .POSIX_LOG_SEEK_LAST => backwardFrom log.length
  | .POSIX_LOG_SEEK_FORWARD => forwardFrom pos
  | .POSIX_LOG_SEEK_BACKWARD => backwardFrom pos

/-- What happens to the log while evlview is not looking. -/
inductive Change where
  /-- evlogmgr deletes the records it does not keep. -/
  | maintain (keep : LogRecord → Bool)
  /-- evlogd writes a record. -/
  | logged (r : LogRecord)

/-- What happens between two operations. `notified` tells whether a
notification is there for an evlview that is asleep. -/
structure Between where
  changes : List Change
  notified : Bool

/-! ## Options -/

/-- `--new`, `--reverse`, `--tail` and `--recid`, as `checkSemantics` lets
them be combined. -/
inductive Mode where
  | plain
  | tail (n : ℕ+)
  | reverse
  | reverseTail (n : ℕ+)
  | new
  | newRecid (n : Nat)
  deriving DecidableEq

def Mode.newFlag : Mode → Bool
  | .new => true
  | .newRecid _ => true
  | _ => false

def Mode.reverseFlag : Mode → Bool
  | .reverse => true
  | .reverseTail _ => true
  | _ => false

def Mode.nTailRecs : Mode → Option Nat
  | .tail n => some n
  | .reverseTail n => some n
  | _ => none

structure Config where
  mode : Mode
  filter : Option QueryEval

def Config.matches (c : Config) (r : LogRecord) : Bool := r.matches c.filter

/-! ## The machine -/

/-- The operations outside `handleReadOrSeekFailure`. An `i` counts the
records as the loop it stands in does. -/
inductive Point where
  /-- `seekToEnd`. -/
  | seekToEnd
  /-- The three operations of `copyBackward`. -/
  | backwardSeek (i : Nat)
  | backwardRead (i : Nat)
  | backwardSkip (i : Nat)
  /-- `prepareToTailForward`. -/
  | tailSeek (i : Nat)
  /-- The two operations of `copyOldTail`. -/
  | oldTailSeek
  | oldTailSkip
  /-- The two operations of `copyForward`. -/
  | forwardSeek (i : Nat)
  | forwardRead (i : Nat)
  /-- The sleep in `copyNewRecords`, which is no operation. -/
  | sleep
  deriving DecidableEq, Repr

/-- The operations of `handleReadOrSeekFailure`, in the order in which they
come. -/
inductive Phase where
  /-- `posix_log_open` in `awaitEndOfLogMaint`. -/
  | reopen
  /-- The seek that the strategy is for. -/
  | resync
  /-- The second seek, when the first one found nothing. -/
  | noent
  /-- The record that was sought is read. -/
  | read
  /-- And the pointer set back before it. -/
  | back
  deriving DecidableEq, Repr

inductive Pc where
  | at (p : Point)
  | failed (ph : Phase) (p : Point)
  deriving DecidableEq, Repr

/-- The log as it is now, and what has been copied of it. -/
structure View where
  log : List LogRecord
  lastRecordCopied : Int
  /-- The records copied, in the order in which they were copied. -/
  copied : List LogRecord
  /-- The log as it was when the tail was last located. -/
  tailLog : List LogRecord

structure State extends View where
  /-- The read pointer. -/
  pos : Nat
  /-- The log has been maintained since it was opened. -/
  stale : Bool
  script : List Between
  pc : Pc

def State.change (s : State) : Change → State
  | .maintain keep => { s with log := s.log.filter keep, stale := true }
  | .logged r => { s with log := s.log ++ [r] }

def State.disturb (s : State) : State :=
  match s.script with
  | [] => s
  | b :: script => b.changes.foldl State.change { s with script }

/-- `LMRESYNC_*`: where the pointer is wanted after an interruption. -/
inductive ResyncAction where
  | start
  | end
  | beforeLast
  | afterLast
  deriving DecidableEq, Repr

/-- The `resyncAction` with which the operation calls
`handleReadOrSeekFailure`. -/
def Point.resyncAction : Point → ResyncAction
  | .seekToEnd => .end
  | .backwardSeek _ => .beforeLast
  | .backwardRead _ => .beforeLast
  | .backwardSkip _ => .beforeLast
  | .tailSeek _ => .end
  | .oldTailSeek => .start
  | .oldTailSkip => .start
  | .forwardSeek _ => .afterLast
  | .forwardRead _ => .afterLast
  | .sleep => .start

section Machine

variable (c : Config)

/-- The top of the loop in `copyForward`. -/
def copyForward (i : Nat) : Point :=
  if c.filter.isSome then .forwardSeek i else .forwardRead i

/-- Where the program starts over: `main` for `copyForward`, `copyBackward`
and `prepareToTailForward`, and `copyNewRecords`. -/
def startOver : Point :=
  match c.mode with
  | .plain => copyForward c 1
  | .newRecid _ => .oldTailSeek
  | _ => .seekToEnd

/-- What comes after `seekToEnd`. -/
def afterSeekToEnd : Point :=
  match c.mode with
  | .tail _ => .tailSeek 1
  | .new => .sleep
  | _ => .backwardSeek 1

/-- The loop condition `nTailRecs == -1 || i <= nTailRecs`. -/
def goesOn (i : Nat) : Bool := c.mode.nTailRecs.all (i ≤ ·)

def State.goto (s : State) (p : Point) : State ⊕ State := .inl { s with pc := .at p }

/-- `copyForward` returns 0. -/
def State.copiedForward (s : State) : State ⊕ State :=
  if c.mode.newFlag then s.goto .sleep else .inr s

/-- The next turn of the loop in `copyBackward`. -/
def State.nextBackward (s : State) (i : Nat) : State ⊕ State :=
  if goesOn c i then s.goto (.backwardSeek i) else .inr s

/-- `copyRecord`, after `posix_log_read` has passed over the record. -/
def State.copyRecord (s : State) (r : LogRecord) : State :=
  { s with pos := s.pos + 1, copied := s.copied ++ [r], lastRecordCopied := recid r }

/-- The operation at a point, on a log that has not been touched. Where the
code reports a failure and exits the machine stops too. -/
def operate (s : State) : Point → State ⊕ State
  | .seekToEnd =>
    { s with pos := (logSeek none .POSIX_LOG_SEEK_END s.log s.pos).2 }.goto (afterSeekToEnd c)
  | .backwardSeek i =>
    match logSeek c.filter .POSIX_LOG_SEEK_BACKWARD s.log s.pos with
    | (true, pos) => { s with pos, tailLog := s.log }.goto (.backwardRead i)
    | (false, _) => .inr s
  | .backwardRead i =>
    match s.log[s.pos]? with
    | some r => (s.copyRecord r).goto (.backwardSkip i)
    | none => .inr s
  | .backwardSkip i =>
    match logSeek none .POSIX_LOG_SEEK_BACKWARD s.log s.pos with
    | (true, pos) => { s with pos }.nextBackward c (i + 1)
    | (false, _) => .inr s
  | .tailSeek i =>
    match logSeek c.filter .POSIX_LOG_SEEK_BACKWARD s.log s.pos with
    | (true, pos) =>
      { s with pos, tailLog := s.log }.goto
        (if goesOn c (i + 1) then .tailSeek (i + 1) else copyForward c 1)
    | (false, pos) => { s with pos, tailLog := s.log }.goto (copyForward c 1)
  | .oldTailSeek =>
    match c.mode with
    | .newRecid n =>
      -- "recid < n"
      match logSeek (some fun e _ => e.logRecid.toInt < n) .POSIX_LOG_SEEK_LAST s.log s.pos with
      | (true, pos) => { s with pos }.goto .oldTailSkip
      | (false, pos) => { s with pos }.goto (copyForward c 1)
    | _ => .inr s
  | .oldTailSkip =>
    match s.log[s.pos]? with
    | some _ => { s with pos := s.pos + 1 }.goto (copyForward c 1)
    | none => .inr s
  | .forwardSeek i =>
    match logSeek c.filter .POSIX_LOG_SEEK_FORWARD s.log s.pos with
    | (true, pos) => { s with pos }.goto (.forwardRead i)
    | (false, _) => s.copiedForward c
  | .forwardRead i =>
    match s.log[s.pos]? with
    | some r =>
      if goesOn c (i + 1) then (s.copyRecord r).goto (copyForward c (i + 1))
      else (s.copyRecord r).copiedForward c
    | none => s.copiedForward c
  | .sleep => s.goto .sleep

/-- `handleReadOrSeekFailure` returns to the point it was called from. -/
def resume (s : State) : Point → State ⊕ State
  | .seekToEnd => s.goto (afterSeekToEnd c)
  | .backwardSeek i | .backwardRead i =>
    if s.lastRecordCopied = -1 then s.goto .seekToEnd else s.nextBackward c i
  | .backwardSkip i => s.nextBackward c (i + 1)
  | .tailSeek _ => s.goto (.tailSeek 1)
  | .oldTailSeek | .oldTailSkip => s.goto .oldTailSeek
  | .forwardSeek i | .forwardRead i =>
    s.goto (if s.lastRecordCopied = -1 then startOver c else copyForward c i)
  | .sleep => s.goto .sleep

/-- `figureResyncStrategy`: the log is searched from its end. -/
def fromEnd : Bool := c.mode.newFlag || c.mode.nTailRecs.isSome

def resyncSeek (s : State) (action : ResyncAction) : Option QueryEval × SeekDirection :=
  let last := s.lastRecordCopied
  match action with
  | .end => (none, .POSIX_LOG_SEEK_END)
  | _ =>
    if fromEnd c then (some fun e _ => e.logRecid.toInt ≤ last, .POSIX_LOG_SEEK_LAST)
    else if action = .beforeLast then
      (some fun e _ => last ≤ e.logRecid.toInt, .POSIX_LOG_SEEK_FIRST)
    else (some fun e _ => last < e.logRecid.toInt, .POSIX_LOG_SEEK_FIRST)

/-- `rsNoentDxn`. -/
def noentDxn : SeekDirection :=
  if fromEnd c then .POSIX_LOG_SEEK_START else .POSIX_LOG_SEEK_END

/-- An operation of `handleReadOrSeekFailure` on a log that has not been
touched since it was opened again. -/
def recover (s : State) (p : Point) : Phase → State ⊕ State
  | .reopen =>
    let s := { s with pos := 0, stale := false }
    if p.resyncAction = .start ∨ s.lastRecordCopied = -1 then resume c s p
    else .inl { s with pc := .failed .resync p }
  | .resync =>
    let (query, direction) := resyncSeek c s p.resyncAction
    match logSeek query direction s.log s.pos with
    | (true, pos) =>
      -- `rsJustSeek`
      if fromEnd c ∧ p.resyncAction ≠ .end then .inl { s with pos, pc := .failed .read p }
      else resume c { s with pos } p
    | (false, pos) => .inl { s with pos, pc := .failed .noent p }
  | .noent => resume c { s with pos := (logSeek none (noentDxn c) s.log s.pos).2 } p
  | .read =>
    match s.log[s.pos]? with
    | some r =>
      if p.resyncAction = .afterLast ∨ recid r ≠ s.lastRecordCopied then
        resume c { s with pos := s.pos + 1 } p
      else .inl { s with pos := s.pos + 1, pc := .failed .back p }
    | none => .inr s
  | .back =>
    match logSeek none .POSIX_LOG_SEEK_BACKWARD s.log s.pos with
    | (true, pos) => resume c { s with pos } p
    | (false, _) => .inr s

/-- One operation, or a while asleep. What the machine stops in is the
state the program exits in, or sleeps in for good. -/
def step (s : State) : State ⊕ State :=
  let t := s.disturb
  match s.pc with
  | .at .sleep =>
    match s.script with
    | [] => .inr s
    | b :: _ => if b.notified then t.goto (copyForward c 1) else t.goto .sleep
  | .at p => if t.stale then .inl { t with pc := .failed .reopen p } else operate c t p
  | .failed .reopen p => recover c t p .reopen
  | .failed ph p => if t.stale then .inl { t with pc := .failed .reopen p } else recover c t p ph

/-- The log has been opened and `main` begins. -/
def start (log : List LogRecord) (script : List Between) : State where
  log := log
  pos := 0
  stale := false
  script := script
  pc := .at (startOver c)
  lastRecordCopied := -1
  copied := []
  tailLog := []

end Machine

end Evlog.Evlview
