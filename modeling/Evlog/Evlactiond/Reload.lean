/-
Evlog.Evlactiond.Reload — what evlactiond asks for when it starts.

`Evlactiond.Actiond` has the list that `loadActionsFromFile` builds. Here
are the flags that it collects meanwhile, in a variable for all the lines,
and the calls of `notifyAdd` that it makes in the end, one for each action
until one is refused.
-/
import Evlog.Evlactiond.Actiond

namespace Evlog.Evlactiond

open Evlog.Lib

def queryFlagsNotSet : Int32 := 999

/-- A call of `notifyAdd`. -/
structure NotifyCall where
  quStr : CString
  queryFlags : Int32
  nfyId : Int32
  flags : Int32
  deriving DecidableEq, Repr

/-- The turn of the loop from the id on, up to where the flags are read. -/
def readFlags (passwd : UInt32 → Bool) (s : CString) : Except LineFault Int32 := do
  let (quStr, s) ← field s
  if quStr.bytes = [] then .error .notIntended
  let (cmd, s) ← field s
  if cmd.bytes = [] then .error .notIntended
  let (uid, s) ← number s
  if passwd uid.toUInt32 = false then .error .notIntended
  let (_, s) ← number s
  let (flags, _) ← number s
  return flags.toUInt32.toInt32 ||| posixLogActionPersist

/-- What a line adds to the variable `flags`. -/
def lineFlags (passwd : UInt32 → Bool) (line : List (UInt8 × Origin)) : Int32 :=
  match line with
  | [] => 0
  | (b, _) :: _ =>
    if b = 35 ∨ b = newline then 0
    else
      match number (.ofBuf (line.map Prod.fst)) with
      | .error _ => 0
      | .ok (_, s) =>
        match readFlags passwd s with
        | .error _ => 0
        | .ok flags => if flags &&& posixLogOnceOnly ≠ 0 then posixLogOnceOnly else 0

def linesFlags (passwd : UInt32 → Bool) (lines : List (List (UInt8 × Origin))) : Int32 :=
  lines.foldl (fun flags line => flags ||| lineFlags passwd line) 0

/-- The last loop of `loadActionsFromFile`, from the `i`-th action on;
`taken` is what evlnotifyd makes of the queries. -/
def notifyCalls (taken : Nat → Bool) (flags : Int32) : Nat → List NfyAction → List NotifyCall
  | _, [] => []
  | i, act :: acts =>
    ⟨act.quStr, queryFlagsNotSet, act.hdr.nfyId, flags⟩ ::
      if taken i then notifyCalls taken flags (i + 1) acts else []

/-- `loadActionsFromFile` in a daemon that is being started: the list that
it builds and the calls that it makes, unless it is the end of the
daemon. -/
def reload (passwd : UInt32 → Bool) (taken : Nat → Bool) (registry : List (UInt8 × Origin)) :
    Option (List NfyAction × List NotifyCall) :=
  match (registryLines registry).foldlM (loadLine passwd) (beforeStart registry) with
  | none => none
  | some d =>
    some (d.actions, notifyCalls taken (linesFlags passwd (registryLines registry)) 0 d.actions)

end Evlog.Evlactiond
