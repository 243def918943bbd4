/-
Evlog.Evlogd.Config — evlogd's settings and the socket they are changed by.

evlconfig connects to a socket of evlogd and sends the settings that the
administrator has asked for: the number of a setting, and a number or a
string with its length in front. `updateConfvalues` reads them one after
the other until it gets a number above those of the settings.

An `int` that is read into is four bytes of memory: a `read` that gets
fewer leaves the rest as it was. The model keeps the four bytes, and reports
for each setting that is taken over whether the reads got all its bytes. An
expression for the screen is taken over behind the loop, and only the last
one. Writing outside of an array is a result of its own. A `read` does not fail, and at the end of the
stream it goes on returning 0.
-/
import Evlog.Lib.ByteCodec
import Evlog.Lib.ByteStream
import Evlog.Lib.WhileLoop

namespace Evlog.Evlogd.Config

open Evlog.Lib

/-! ## Settings -/

def maxDupInterval : Int := 3600
def maxDupCount : Int := 10000
def maxDupArraySize : Int := 1000
def defaultDupInterval : Int := 60
def defaultDupCount : Int := 10
def defaultDupArraySize : Int := 5

/-- `MAX_EVL_LINE`, the size of `cbuf` and of `query_exp`. -/
def maxEvlLine : Nat := 1024

def disCount : Int := 0
def disInterval : Int := 1
def disSize : Int := 3
def disDups : Int := 4
def eventScreen : Int := 5

/-- The globals. There is no expression in `dis_query` where its tree is
NULL. -/
structure Conf where
  dupCount : Int
  dupInterval : Int
  dupArraySize : Int
  disDupRecs : Bool
  bufSize : Int
  disQuery : Option (List UInt8)
  deriving DecidableEq, Repr

def defaultConf : Conf where
  dupCount := defaultDupCount
  dupInterval := defaultDupInterval
  dupArraySize := defaultDupArraySize
  disDupRecs := true
  bufSize := 0
  disQuery := none

def nofilter : List UInt8 := [0x6e, 0x6f, 0x66, 0x69, 0x6c, 0x74, 0x65, 0x72]

def on : List UInt8 := [0x6f, 0x6e]
def off : List UInt8 := [0x6f, 0x66, 0x66]

/-- `createQuery`, and whether it succeeds. `queryCreate` tells the
expressions `posix_log_query_create` takes. -/
def createQuery (queryCreate : List UInt8 → Bool) (qexp : List UInt8) (conf : Conf) : Conf × Bool :=
  let conf := { conf with disQuery := none }
  if qexp = nofilter then (conf, true)
  else if queryCreate qexp then ({ conf with disQuery := some qexp }, true)
  else (conf, false)

/-- `reallocBuffer`, without what is in the buffers. -/
def reallocBuffer (newsize : Int) (curOn : Bool) (conf : Conf) : Conf :=
  { conf with
    dupArraySize := newsize
    bufSize := if curOn then 2 * newsize + 1 else 1 }

/-! ## `updateConfvalues` -/

/-- The `int` in four bytes. -/
def intOf (bs : List UInt8) : Int := leInt bs

def cstr (bs : List UInt8) : List UInt8 := bs.takeWhile (· ≠ 0)

/-- `read(sd, &x, n)` where `old` is in `x`. It also tells whether all of
the `n` bytes came. -/
def readInto (old : List UInt8) (n : Nat) (s : ByteStream) : List UInt8 × Bool × ByteStream :=
  let (bs, s') := s.read n
  (bs ++ old.drop bs.length, bs.length == n, s')

/-- At the head of the loop: the memory, whether all of `ctype` and of the
expression in `queryExp` came, and what is to come. -/
structure Loop where
  ctype : List UInt8
  value : List UInt8
  cbuf : List UInt8
  typeRead : Bool
  queryExp : List UInt8
  qexpDefined : Bool
  screenRead : Bool
  conf : Conf
  stream : ByteStream
  deriving DecidableEq

/-- A setting that is taken over: its number, whether all of its bytes came,
and what the settings are then. -/
structure Applied where
  ctype : Int
  complete : Bool
  conf : Conf
  deriving DecidableEq

/-- What `updateConfvalues` returns, with the screen it has taken over, if any. -/
inductive Result where
  | returned (ret : Int) (conf : Conf) (screen : Option Applied)
  | overrun
  deriving DecidableEq

/-- The cases with a number. `value` is assigned to where it is a size. -/
def applyNumber (ctype value : Int) (conf : Conf) : Conf × Int :=
  if ctype = disCount then
    ({ conf with dupCount := if value = 0 then 10 * maxDupCount else value }, value)
  else if ctype = disInterval then
    ({ conf with dupInterval := if value = 0 then 24 * maxDupInterval else value }, value)
  else if ctype = disSize ∧ conf.dupArraySize ≠ value then
    let value := if value = 0 then defaultDupArraySize else value
    (reallocBuffer value conf.disDupRecs conf, value)
  else (conf, value)

/-- Whether a number is taken over; a lookback size is not if it is the same. -/
def takesNumber (ctype value : Int) (conf : Conf) : Bool :=
  ctype = disCount ∨ ctype = disInterval ∨ (ctype = disSize ∧ conf.dupArraySize ≠ value)

/-- Whether a text turns the discarding on or off. -/
def switches (text : List UInt8) (disDupRecs : Bool) : Bool :=
  (disDupRecs = false ∧ text = on) ∨ (disDupRecs = true ∧ text = off)

/-- The case `DIS_DUPS`. -/
def applyDups (cbuf : List UInt8) (conf : Conf) : Conf :=
  if conf.disDupRecs = false ∧ cstr cbuf = on then
    { reallocBuffer conf.dupArraySize true conf with disDupRecs := true }
  else if conf.disDupRecs = true ∧ cstr cbuf = off then
    { reallocBuffer conf.dupArraySize false conf with disDupRecs := false }
  else conf

/-- A setting is reported if it is taken over. -/
def report (ctype : Int) (taken complete : Bool) (conf : Conf) : List Applied :=
  if taken then [⟨ctype, complete, conf⟩] else []

/-- The next number is read into `ctype`. -/
def Loop.readType (l : Loop) : Loop :=
  let (ctype, typeRead, stream) := readInto l.ctype 4 l.stream
  { l with ctype := ctype, typeRead := typeRead, stream := stream }

def finish (queryCreate : List UInt8 → Bool) (l : Loop) : Result :=
  if l.qexpDefined then
    let (conf, created) := createQuery queryCreate l.queryExp l.conf
    .returned (if created then 0 else -1) conf (some ⟨eventScreen, l.screenRead, conf⟩)
  else .returned 0 l.conf none

/-- The rest of a turn for a setting with a string, of which the length has
been read. -/
def stringTurn (l : Loop) (valueRead : Bool) : Turn Loop Result Applied :=
  let ctype := intOf l.ctype
  let value := intOf l.value
  if value < 0 ∨ maxEvlLine < value then .stop (.returned (-1) l.conf none)
  else
    let (cbuf, cbufRead, stream) := readInto l.cbuf value.toNat l.stream
    -- cbuf[value] is the element behind the array for the greatest length
    if maxEvlLine ≤ value then .stop .overrun
    else
      let cbuf := cbuf.set value.toNat 0
      let complete := l.typeRead && valueRead && cbufRead
      if ctype = disDups then
        let conf := applyDups cbuf l.conf
        .next { l with cbuf := cbuf, conf := conf, stream := stream }.readType
          (report ctype (switches (cstr cbuf) l.conf.disDupRecs) complete conf)
      else if maxEvlLine ≤ (cstr cbuf).length then .stop .overrun
      else
        .next { l with
            cbuf := cbuf, queryExp := cstr cbuf, qexpDefined := true, screenRead := complete
            stream := stream }.readType []

def body (queryCreate : List UInt8 → Bool) (l : Loop) : Turn Loop Result Applied :=
  if eventScreen < intOf l.ctype then .stop (finish queryCreate l)
  else
    let (value, valueRead, stream) := readInto l.value 4 l.stream
    let l := { l with value := value, stream := stream }
    if disDups ≤ intOf l.ctype then stringTurn l valueRead
    else
      let taken := takesNumber (intOf l.ctype) (intOf l.value) l.conf
      let (conf, value) := applyNumber (intOf l.ctype) (intOf l.value) l.conf
      let valueBytes := if value = intOf l.value then l.value else leBytes 4 value.toNat
      .next { l with value := valueBytes, conf := conf }.readType
        (report (intOf l.ctype) taken (l.typeRead && valueRead) conf)

/-- The memory `updateConfvalues` starts with, whatever is in it. -/
structure Stack where
  ctype : List UInt8
  value : List UInt8
  cbuf : List UInt8
  queryExp : List UInt8

/-- Before the loop, with the first number in `ctype`. -/
def start (stack : Stack) (conf : Conf) (stream : ByteStream) : Loop :=
  ({ ctype := stack.ctype
     value := stack.value
     cbuf := stack.cbuf
     typeRead := false
     queryExp := stack.queryExp
     qexpDefined := false
     screenRead := false
     conf := conf
     stream := stream : Loop }).readType

/-- `updateConfvalues` in at most `fuel` turns of its loop. -/
def updateConfvalues (queryCreate : List UInt8 → Bool) (fuel : Nat) (stack : Stack) (conf : Conf)
    (stream : ByteStream) : Option (Result × List Applied) :=
  whileLoop (body queryCreate) fuel (start stack conf stream)

/-! ## Texts -/

def ascii (s : String) : List UInt8 := s.toList.map fun c => c.toNat.toUInt8

def newline : UInt8 := 10
def hash : UInt8 := 35

def isBlank (b : UInt8) : Bool := b == 32 || b == 9

end Evlog.Evlogd.Config
