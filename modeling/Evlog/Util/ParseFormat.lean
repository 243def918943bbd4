/-
Evlog.Util.ParseFormat — format specifications (format.c).

`_evlParseFormat` cuts a text such as "FAC=%facility%" into segments. It works
in the text itself: "%%" becomes "%" by copying what comes behind to the left,
strings and names are cut off with NULs, and the colon in front of a format
becomes a "%". The segments point into the text, and are read when all of it
has been parsed (`FmtSegment.map`).

`Seg` is what a format specification is for: literals and attributes, with the
text they are written as. What is written is read back, but for no segments at
all; and a "%" that nothing closes is an error, but for one at the end
(`parsesBack_iff`).
-/
import Evlog.Printf.ConvSpecTheorems
import Evlog.Query.Member

namespace Evlog.Util

open Evlog.Printf (Parsed ParsedFormat evlParseFmtConvSpec evlGetTypeFromConversion)
open Evlog.Query (Selector evlGetValueByName)

/-! ## Strings in a buffer -/

/-- `buf[p]` -/
def charAt (buf : List UInt8) (p : Nat) : UInt8 := buf.getD p 0

/-- The string at `p`. -/
def stringAt (buf : List UInt8) (p : Nat) : List UInt8 := (buf.drop p).takeWhile (· ≠ 0)

def strchr (buf : List UInt8) (p : Nat) (c : UInt8) : Option Nat :=
  if c ∈ stringAt buf p then some (p + (stringAt buf p).idxOf c) else none

def latin1 (s : List UInt8) : String := String.ofList (s.map fun b => Char.ofNat b.toNat)

/-! ## Segments -/

/-- A member of an entry's header, or the name of an attribute that is not
known as yet. -/
inductive AttrType where
  | member (m : Selector)
  | attname (name : List UInt8)
  deriving DecidableEq, Repr

/-- `evl_fmt_segment_t`, of a format specification. `α` is `char *`. -/
inductive FmtSegment (α : Type) where
  | string (s : α)
  | attr (type : AttrType) (userfmt : Option α) (stringfmt : Bool)
  | error (msg : String)
  deriving DecidableEq, Repr

def FmtSegment.map {α β : Type} (f : α → β) : FmtSegment α → FmtSegment β
  | .string s => .string (f s)
  | .attr type userfmt stringfmt => .attr type (userfmt.map f) stringfmt
  | .error msg => .error msg

def makeErrorSegment {α : Type} (attrSpec : List UInt8) (msg : String) : FmtSegment α :=
  .error (msg ++ ": " ++ latin1 attrSpec)

/-! ## Attributes -/

/-- `_evlValidateAttrFmt`. A parse that goes on behind the NUL ends with more
than two modifiers, with no letter or with a length that is not that of the
format. -/
def evlValidateAttrFmt (fmt : List UInt8) (maxWidth : Int32) : Option ParsedFormat :=
  match evlParseFmtConvSpec fmt.tail with
  | .ok pf =>
    if pf.fmLength = 0 ∨ pf.fmLength ≠ fmt.tail.length then none
    else if maxWidth < pf.fmWidth ∨ maxWidth < pf.fmPrecision then none
    else if evlGetTypeFromConversion pf true true = .none then none
    else some pf
  | _ => none

/-- What `makeAttrSegment` makes of a name, or what it has against it. -/
def attrTypeOf (allowNonStdAtts : Bool) (attrName : List UInt8) (colon : Bool) : Except String AttrType :=
  match evlGetValueByName (latin1 attrName) with
  | some m => .ok (.member m)
  | none =>
    -- "data", "host"
    if attrName = [0x64, 0x61, 0x74, 0x61] then
      if colon then .error "Cannot specify alternate format for data" else .ok (.member .data)
    else if allowNonStdAtts = true ∨ attrName = [0x68, 0x6f, 0x73, 0x74] then .ok (.attname attrName)
    else .error "Unknown attribute"

def printfFmt : List UInt8 := [0x70, 0x72, 0x69, 0x6e, 0x74, 0x66]

def printkFmt : List UInt8 := [0x70, 0x72, 0x69, 0x6e, 0x74, 0x6b]

/-- `makeAttrSegment`: the buffer and the segment. -/
def makeAttrSegment (allowNonStdAtts : Bool) (buf : List UInt8) (attrSpec : Nat) :
    List UInt8 × FmtSegment Nat :=
  match strchr buf attrSpec 0x3a with
  | none =>
    match attrTypeOf allowNonStdAtts (stringAt buf attrSpec) false with
    | .error msg => (buf, makeErrorSegment (stringAt buf attrSpec) msg)
    | .ok type => (buf, .attr type none false)
  | some colon =>
    let buf := buf.set colon 0
    match attrTypeOf allowNonStdAtts (stringAt buf attrSpec) true with
    | .error msg => (buf, makeErrorSegment (stringAt buf attrSpec) msg)
    | .ok type =>
      let buf := buf.set colon 0x25
      if stringAt buf colon = 0x25 :: printfFmt ∨ stringAt buf colon = 0x25 :: printkFmt then
        (buf, .attr type (some (colon + 1)) false)
      else
        -- POSIX_LOG_MEMSTR_MAXLEN-1
        match evlValidateAttrFmt (stringAt buf colon) 127 with
        | none =>
          let buf := buf.set colon 0x3a
          (buf, makeErrorSegment (stringAt buf attrSpec) "Error in format")
        | some pf =>
          (buf, .attr type (some colon) (pf.fmConversion = 0x73 ∨ pf.fmConversion = 0x53))

/-! ## The parser -/

/-- The loops of `collectStringSegment`, for so many characters at most: the
buffer, `c` and `t`. -/
def collectLoop : Nat → List UInt8 → Nat → Nat → List UInt8 × Nat × Nat
  | 0, buf, c, t => (buf, c, t)
  | n + 1, buf, c, t =>
    if charAt buf c = 0 then (buf, c, t)
    else if charAt buf c = 0x25 then
      if charAt buf (c + 1) = 0x25 then collectLoop n (buf.set t 0x25) (c + 2) (t + 1) else (buf, c, t)
    else collectLoop n (if t < c then buf.set t (charAt buf c) else buf) (c + 1) (t + 1)

/-- `collectStringSegment`: the buffer, the list, and where an attribute's name
or the NUL is. -/
def collectStringSegment (buf : List UInt8) (token : Nat) (list : List (FmtSegment Nat)) :
    List UInt8 × List (FmtSegment Nat) × Nat :=
  if charAt buf token = 0 then (buf, list, token)
  else
    let (buf, c, t) := collectLoop buf.length buf token token
    (if token < t then buf.set t 0 else buf, if token < t then list ++ [.string token] else list,
      if charAt buf c = 0 then c else c + 1)

/-- `collectAttrSegment`: the buffer, the list, and what is returned. -/
def collectAttrSegment (allowNonStdAtts : Bool) (buf : List UInt8) (token : Nat) (list : List (FmtSegment Nat)) :
    List UInt8 × List (FmtSegment Nat) × Option Nat :=
  if charAt buf token = 0 then (buf, list, some token)
  else
    match strchr buf token 0x25 with
    | none => (buf, list ++ [makeErrorSegment (stringAt buf token) "Unterminated attribute spec"], none)
    | some c =>
      let (buf, seg) := makeAttrSegment allowNonStdAtts (buf.set c 0) token
      (buf, list ++ [seg], match seg with | .error _ => none | _ => some (c + 1))

/-- `getFmtErrorMsg`; there is an error segment. -/
def getFmtErrorMsg {α : Type} : List (FmtSegment α) → String
  | [] => ""
  | .error msg :: _ => msg
  | _ :: list => getFmtErrorMsg list

/-- The loop of `_evlParseFormat`, for so many turns at most. -/
def parseLoop (allowNonStdAtts : Bool) : Nat → List UInt8 → Nat → List (FmtSegment Nat) →
    Except String (List UInt8 × List (FmtSegment Nat))
  | 0, buf, _, list => .ok (buf, list)
  | n + 1, buf, sp, list =>
    if charAt buf sp = 0 then .ok (buf, list)
    else
      let (buf, list, sp) := collectStringSegment buf sp list
      match collectAttrSegment allowNonStdAtts buf sp list with
      | (_, list, none) => .error (getFmtErrorMsg list)
      | (buf, list, some sp) => parseLoop allowNonStdAtts n buf sp list

/-- `_evlParseFormat`: the error message, or the segments with their strings. -/
def evlParseFormat (allowNonStdAtts : Bool) (fmt : List UInt8) : Except String (List (FmtSegment (List UInt8))) :=
  match parseLoop allowNonStdAtts fmt.length (fmt ++ [0]) 0 [] with
  | .error msg => .error msg
  | .ok (buf, list) =>
    if list = [] then .error "Empty format specification" else .ok (list.map (FmtSegment.map (stringAt buf)))

/-! ## What is written -/

/-- A segment of a format specification: a literal, or an attribute with a
format or without. -/
inductive Seg where
  | lit (s : List UInt8)
  | attr (name : List UInt8) (fmt : Option (List UInt8))
  deriving DecidableEq, Repr

def doubled (s : List UInt8) : List UInt8 := s.flatMap fun c => if c = 0x25 then [0x25, 0x25] else [c]

def attrSpecOf (name : List UInt8) : Option (List UInt8) → List UInt8
  | none => name
  | some fmt => name ++ 0x3a :: fmt

def Seg.text : Seg → List UInt8
  | .lit s => doubled s
  | .attr name fmt => 0x25 :: attrSpecOf name fmt ++ [0x25]

def rendered (segs : List Seg) : List UInt8 := segs.flatMap Seg.text

/-- "printf" and "printk" and the formats that `_evlValidateAttrFmt` takes. -/
def ValidFormat (fmt : List UInt8) : Prop :=
  fmt = printfFmt ∨ fmt = printkFmt ∨ (evlValidateAttrFmt (0x25 :: fmt) 127).isSome = true

/-- A literal is not empty. An attribute's name is one that is allowed, and it
has no "%" or ":". There is no NUL. -/
def Seg.Valid (allowNonStdAtts : Bool) : Seg → Prop
  | .lit s => s ≠ [] ∧ 0 ∉ s
  | .attr name fmt =>
    0 ∉ attrSpecOf name fmt ∧ 0x25 ∉ attrSpecOf name fmt ∧ attrSpecOf name fmt ≠ [] ∧ 0x3a ∉ name ∧
      (∃ type, attrTypeOf allowNonStdAtts name fmt.isSome = .ok type) ∧ ∀ f ∈ fmt, ValidFormat f

def joined (s : List UInt8) : List Seg → List Seg
  | .lit s' :: segs => .lit (s ++ s') :: segs
  | segs => .lit s :: segs

def merged : List Seg → List Seg
  | [] => []
  | .attr name fmt :: segs => .attr name fmt :: merged segs
  | .lit s :: segs => joined s (merged segs)

def userFmt (fmt : List UInt8) : List UInt8 := if fmt = printfFmt ∨ fmt = printkFmt then fmt else 0x25 :: fmt

/-- The segment as it should be parsed. A format is for a string if its last
letter is "s" or "S". -/
def Seg.parsed (allowNonStdAtts : Bool) : Seg → FmtSegment (List UInt8)
  | .lit s => .string s
  | .attr name fmt =>
    match attrTypeOf allowNonStdAtts name fmt.isSome with
    | .ok type =>
      .attr type (fmt.map userFmt) (fmt.any fun f => f.getLast? = some 0x73 ∨ f.getLast? = some 0x53)
    | .error msg => makeErrorSegment name msg

/-- Is there a single "%" that no later "%" closes? With `inAttr` it has been
passed. -/
def unclosedFrom : Bool → List UInt8 → Bool
  | inAttr, [] => inAttr
  | true, c :: text => unclosedFrom (c ≠ 0x25) text
  | false, [c] => c = 0x25
  | false, c :: d :: text =>
    if c ≠ 0x25 then unclosedFrom false (d :: text)
    else if d = 0x25 then unclosedFrom false text
    else unclosedFrom true text

def unclosed (text : List UInt8) : Bool := unclosedFrom false text

/-! ## The text, turn by turn -/

def lits (s : List UInt8) : List Seg := if s = [] then [] else [.lit s]

/-- What a text is scanned as. With `lone` there is a single "%" at the end. -/
inductive Scans (allowNonStdAtts : Bool) : List UInt8 → List Seg → Bool → Prop
  | ends (s : List UInt8) (lone : Bool) (hs : 0 ∉ s) :
    Scans allowNonStdAtts (doubled s ++ if lone then [0x25] else []) (lits s) lone
  | attr {s name rest : List UInt8} {fmt : Option (List UInt8)} {segs : List Seg} {lone : Bool} (hs : 0 ∉ s)
    (hvalid : (Seg.attr name fmt).Valid allowNonStdAtts) (hrest : Scans allowNonStdAtts rest segs lone) :
    Scans allowNonStdAtts (doubled s ++ 0x25 :: (attrSpecOf name fmt ++ 0x25 :: rest))
      (lits s ++ .attr name fmt :: segs) lone

/-- A name and a format that are cut off by the next "%". -/
structure Spec (name : List UInt8) (fmt : Option (List UInt8)) : Prop where
  noNul : 0 ∉ attrSpecOf name fmt
  noPercent : 0x25 ∉ attrSpecOf name fmt
  nonempty : attrSpecOf name fmt ≠ []
  noColon : 0x3a ∉ name

/-- A text that cannot be scanned: an attribute that is not closed or not
valid. -/
inductive Fails (allowNonStdAtts : Bool) : List UInt8 → Prop
  | unterminated {s after : List UInt8} (hs : 0 ∉ s) (hafter : 0 ∉ after) (hopen : 0x25 ∉ after) (hsome : after ≠ []) :
    Fails allowNonStdAtts (doubled s ++ 0x25 :: after)
  | invalid {s name rest : List UInt8} {fmt : Option (List UInt8)} (hs : 0 ∉ s) (hrest : 0 ∉ rest)
    (hspec : Spec name fmt) (hvalid : ¬ (Seg.attr name fmt).Valid allowNonStdAtts) :
    Fails allowNonStdAtts (doubled s ++ 0x25 :: (attrSpecOf name fmt ++ 0x25 :: rest))
  | later {s name rest : List UInt8} {fmt : Option (List UInt8)} (hs : 0 ∉ s)
    (hvalid : (Seg.attr name fmt).Valid allowNonStdAtts) (hrest : Fails allowNonStdAtts rest) :
    Fails allowNonStdAtts (doubled s ++ 0x25 :: (attrSpecOf name fmt ++ 0x25 :: rest))

@[simp] theorem doubled_nil : doubled [] = [] := rfl

theorem doubled_cons (c : UInt8) (s : List UInt8) :
    doubled (c :: s) = (if c = 0x25 then [0x25, 0x25] else [c]) ++ doubled s := List.flatMap_cons

@[simp] theorem doubled_append (s s' : List UInt8) : doubled (s ++ s') = doubled s ++ doubled s' :=
  List.flatMap_append

variable {s rest buf text name : List UInt8}

theorem doubled_eq_nil_iff : doubled s = [] ↔ s = [] := by
  cases s with
  | nil => simp
  | cons c s =>
    rw [doubled_cons]
    by_cases hc : c = 0x25 <;> simp [hc]

theorem exists_doubled (text : List UInt8) :
    ∃ s stop, text = doubled s ++ stop ∧ (stop = [] ∨ ∃ after, stop = 0x25 :: after ∧ after.head? ≠ some 0x25) := by
  induction hn : text.length using Nat.strong_induction_on generalizing text with
  | h n ih =>
    rcases text with _ | ⟨c, text⟩
    · exact ⟨[], [], rfl, .inl rfl⟩
    by_cases hc : c = 0x25
    · subst hc
      by_cases hd : text.head? = some 0x25
      · obtain ⟨text, rfl⟩ : ∃ rest, text = 0x25 :: rest := by
          rcases text with _ | ⟨d, rest⟩
          · simp at hd
          · exact ⟨rest, by rw [Option.some.inj hd]⟩
        obtain ⟨s, stop, htext, hstop⟩ := ih text.length (by simp at hn; omega) text rfl
        exact ⟨0x25 :: s, stop, by rw [doubled_cons, htext]; rfl, hstop⟩
      · exact ⟨[], 0x25 :: text, rfl, .inr ⟨text, rfl, hd⟩⟩
    · obtain ⟨s, stop, htext, hstop⟩ := ih text.length (by simp at hn; omega) text rfl
      exact ⟨c :: s, stop, by rw [doubled_cons, if_neg hc, htext]; rfl, hstop⟩

/-- What is behind a single "%" is a name, and a format if there is a colon. -/
theorem exists_attrSpecOf (token : List UInt8) : ∃ name fmt, token = attrSpecOf name fmt ∧ 0x3a ∉ name := by
  by_cases hcolon : 0x3a ∈ token
  · obtain ⟨name, fmt, htoken, hname⟩ := List.eq_append_cons_of_mem hcolon
    exact ⟨name, some fmt, htoken, hname⟩
  · exact ⟨token, none, rfl, hcolon⟩

theorem zero_mem_doubled_iff : 0 ∈ doubled s ↔ 0 ∈ s := by
  rw [doubled, List.mem_flatMap]
  constructor
  · rintro ⟨c, hc, h0⟩
    split at h0
    · simp at h0
    · rwa [List.mem_singleton.1 h0]
  · intro h0
    exact ⟨0, h0, by decide⟩

theorem length_le_doubled (s : List UInt8) : s.length ≤ (doubled s).length := by
  induction s with
  | nil => exact Nat.le_refl _
  | cons c s ih =>
    rw [doubled_cons, List.length_append, List.length_cons]
    split
    · simp only [List.length_cons, List.length_nil]
      omega
    · simp only [List.length_cons, List.length_nil]
      omega

theorem scans_or_fails (allowNonStdAtts : Bool) (text : List UInt8) (htext : 0 ∉ text) :
    (∃ segs lone, Scans allowNonStdAtts text segs lone) ∨ Fails allowNonStdAtts text := by
  induction hn : text.length using Nat.strong_induction_on generalizing text with
  | h n ih =>
    obtain ⟨s, stop, rfl, hstop⟩ := exists_doubled text
    have hs : 0 ∉ s := fun h => htext (List.mem_append_left _ (zero_mem_doubled_iff.2 h))
    rcases hstop with rfl | ⟨after, rfl, hhead⟩
    · exact .inl ⟨lits s, false, .ends s false hs⟩
    have hafter : 0 ∉ after := fun h => htext (List.mem_append_right _ (List.mem_cons_of_mem _ h))
    by_cases hsome : after = []
    · subst hsome
      exact .inl ⟨lits s, true, .ends s true hs⟩
    by_cases hclose : 0x25 ∈ after
    · obtain ⟨token, rest, rfl, hpercent⟩ := List.eq_append_cons_of_mem hclose
      obtain ⟨name, fmt, rfl, hcolon⟩ := exists_attrSpecOf token
      have hrest : 0 ∉ rest := fun h => hafter (List.mem_append_right _ (List.mem_cons_of_mem _ h))
      have hspec : Spec name fmt := by
        refine ⟨fun h => hafter (List.mem_append_left _ h), hpercent, fun hnil => hhead ?_, hcolon⟩
        rw [hnil]
        rfl
      by_cases hvalid : (Seg.attr name fmt).Valid allowNonStdAtts
      · have hlt : rest.length < n := by
          rw [← hn]
          simp only [List.length_append, List.length_cons]
          omega
        rcases ih rest.length hlt rest hrest rfl with ⟨segs, lone, hscans⟩ | hfails
        · exact .inl ⟨_, _, .attr hs hvalid hscans⟩
        · exact .inr (.later hs hvalid hfails)
      · exact .inr (.invalid hs hrest hspec hvalid)
    · exact .inr (.unterminated hs hafter hclose hsome)

/-! ## The buffer -/

theorem charAt_append (l r : List UInt8) : charAt (l ++ r) l.length = r.head?.getD 0 := by
  rw [charAt, List.getD_eq_getElem?_getD, List.getElem?_append_right (Nat.le_refl _), Nat.sub_self,
    List.head?_eq_getElem?]

theorem charAt_cons (l : List UInt8) (a : UInt8) (r : List UInt8) : charAt (l ++ a :: r) l.length = a :=
  charAt_append l (a :: r)

theorem stringAt_append (l r : List UInt8) : stringAt (l ++ r) l.length = r.takeWhile (· ≠ 0) := by
  rw [stringAt, List.drop_left]

theorem stringAt_eq (hs : 0 ∉ s) (l tail : List UInt8) :
    stringAt (l ++ (s ++ 0 :: tail)) l.length = s := by
  have hall : ∀ b ∈ s, decide (b ≠ 0) = true := fun b hb => decide_eq_true fun h0 => hs (h0 ▸ hb)
  rw [stringAt_append, List.takeWhile_append_of_pos hall]
  simp

theorem strchr_eq {c : UInt8} (hc0 : c ≠ 0) (hs : 0 ∉ s) (hc : c ∉ s) (hrest : 0 ∉ rest)
    (l tail : List UInt8) :
    strchr (l ++ (s ++ c :: rest ++ 0 :: tail)) l.length c = some (l ++ s).length := by
  have hnul : 0 ∉ s ++ c :: rest := by
    simp only [List.mem_append, List.mem_cons, not_or]
    exact ⟨hs, hc0.symm, hrest⟩
  rw [strchr, stringAt_eq hnul, if_pos (by simp), List.length_append, List.idxOf_append_of_notMem hc,
    List.idxOf_cons_self, Nat.add_zero]

theorem strchr_none {c : UInt8} (hs : 0 ∉ s) (hc : c ∉ s) (l tail : List UInt8) :
    strchr (l ++ (s ++ 0 :: tail)) l.length c = none := by
  rw [strchr, stringAt_eq hs, if_neg hc]

theorem set_append (l : List UInt8) (a b : UInt8) (r : List UInt8) :
    (l ++ a :: r).set l.length b = l ++ b :: r := by
  rw [List.set_append_right _ _ (Nat.le_refl _), Nat.sub_self]
  rfl

/-- Where a literal ends: at the NUL, or at a single "%". -/
def Stops (rest : List UInt8) : Prop :=
  rest.head? = some 0 ∨ rest.head? = some 0x25 ∧ rest.tail.head? ≠ some 0x25

theorem charAt_succ (l : List UInt8) (a : UInt8) (r : List UInt8) :
    charAt (l ++ a :: r) (l.length + 1) = r.head?.getD 0 := by
  have happend : l ++ a :: r = (l ++ [a]) ++ r := by rw [List.append_assoc, List.singleton_append]
  have hlen : l.length + 1 = (l ++ [a]).length := by rw [List.length_append, List.length_singleton]
  rw [happend, hlen, charAt_append]

/-- A literal is moved to the left over the gap that the "%" have left. -/
theorem collectLoop_eq (hs : 0 ∉ s) (hstops : Stops rest) (n : Nat) (hn : s.length ≤ n)
    (pre gap : List UInt8) :
    ∃ gap' : List UInt8, gap'.length + s.length = gap.length + (doubled s).length ∧
      collectLoop n (pre ++ gap ++ (doubled s ++ rest)) (pre ++ gap).length pre.length =
        (pre ++ s ++ gap' ++ rest, (pre ++ s ++ gap').length, (pre ++ s).length) := by
  induction s generalizing n pre gap with
  | nil =>
    refine ⟨gap, rfl, ?_⟩
    rw [doubled_nil, List.nil_append, List.append_nil]
    cases n with
    | zero => rfl
    | succ n =>
      rcases rest with _ | ⟨a, rest⟩
      · simp [Stops] at hstops
      rw [collectLoop, charAt_cons]
      rcases hstops with h0 | ⟨hpercent, hnext⟩
      · rw [if_pos (Option.some.inj h0)]
      · have ha : a = 0x25 := Option.some.inj hpercent
        subst ha
        have hnot : charAt (pre ++ gap ++ 0x25 :: rest) ((pre ++ gap).length + 1) ≠ 0x25 := by
          rw [charAt_succ]
          intro hcontra
          cases hrest : rest.head? with
          | none =>
            rw [hrest] at hcontra
            exact absurd hcontra (by decide)
          | some d =>
            rw [hrest] at hcontra
            have hd : d = 0x25 := hcontra
            exact hnext (by rw [← hd]; exact hrest)
        rw [if_neg (by decide), if_pos rfl, if_neg hnot]
  | cons a s ih =>
    obtain ⟨n, rfl⟩ : ∃ m, n = m + 1 := ⟨n - 1, by simp at hn; omega⟩
    have hs' : 0 ∉ s := fun h => hs (List.mem_cons_of_mem _ h)
    have hn' : s.length ≤ n := by simpa using hn
    have ha0 : a ≠ 0 := fun h => hs (h ▸ List.mem_cons_self)
    rw [collectLoop, doubled_cons]
    by_cases ha : a = 0x25
    · subst ha
      rw [if_pos rfl]
      obtain ⟨g, gap₁, hgap⟩ : ∃ g gap₁, gap ++ [0x25, 0x25] = g :: gap₁ := by
        cases gap with
        | nil => exact ⟨_, _, rfl⟩
        | cons g gap => exact ⟨_, _, rfl⟩
      have hlen := congrArg List.length hgap
      have hbuf : pre ++ gap ++ ([0x25, 0x25] ++ doubled s ++ rest) = pre ++ g :: (gap₁ ++ (doubled s ++ rest)) := by
        rw [← List.cons_append, ← hgap]
        simp only [List.append_assoc]
      obtain ⟨gap', hgap', hgo⟩ := ih hs' n hn' (pre ++ [0x25]) gap₁
      refine ⟨gap', ?_, ?_⟩
      · simp only [List.length_append, List.length_cons, List.length_nil] at hlen hgap' ⊢
        omega
      · have hsecond : charAt (pre ++ gap ++ ([0x25, 0x25] ++ doubled s ++ rest)) ((pre ++ gap).length + 1) = 0x25 := by
          exact charAt_succ (pre ++ gap) 0x25 _
        have hfirst : charAt (pre ++ gap ++ ([0x25, 0x25] ++ doubled s ++ rest)) (pre ++ gap).length = 0x25 :=
          charAt_cons (pre ++ gap) 0x25 _
        rw [hfirst, if_neg (by decide), if_pos rfl, if_pos hsecond, hbuf, set_append]
        have hpos : (pre ++ gap).length + 2 = (pre ++ [0x25] ++ gap₁).length := by
          simp only [List.length_append, List.length_cons, List.length_nil] at hlen ⊢
          omega
        have hto : pre.length + 1 = (pre ++ [0x25]).length := by simp
        rw [hpos, hto]
        simpa [List.append_assoc] using hgo
    · rw [if_neg ha]
      obtain ⟨g, gap₁, hgap⟩ : ∃ g gap₁, gap ++ [a] = g :: gap₁ := by
        cases gap with
        | nil => exact ⟨_, _, rfl⟩
        | cons g gap => exact ⟨_, _, rfl⟩
      have hlen := congrArg List.length hgap
      have hbuf : pre ++ gap ++ ([a] ++ doubled s ++ rest) = pre ++ g :: (gap₁ ++ (doubled s ++ rest)) := by
        rw [← List.cons_append, ← hgap]
        simp only [List.append_assoc]
      obtain ⟨gap', hgap', hgo⟩ := ih hs' n hn' (pre ++ [a]) gap₁
      refine ⟨gap', ?_, ?_⟩
      · simp only [List.length_append, List.length_cons, List.length_nil] at hlen hgap' ⊢
        omega
      · have hfirst : charAt (pre ++ gap ++ ([a] ++ doubled s ++ rest)) (pre ++ gap).length = a :=
          charAt_cons (pre ++ gap) a _
        have hstore : (if pre.length < (pre ++ gap).length then
            (pre ++ gap ++ ([a] ++ doubled s ++ rest)).set pre.length a else pre ++ gap ++ ([a] ++ doubled s ++ rest)) = pre ++ a :: (gap₁ ++ (doubled s ++ rest)) := by
          split
          · rw [hbuf, set_append]
          · rename_i hnone
            have hgapnil : gap = [] := by
              rw [List.length_append] at hnone
              exact List.length_eq_zero_iff.1 (by omega)
            subst hgapnil
            have hg : a = g := (List.cons.inj hgap).1
            rw [hbuf, hg]
        have hpos : (pre ++ gap).length + 1 = (pre ++ [a] ++ gap₁).length := by
          simp only [List.length_append, List.length_cons, List.length_nil] at hlen ⊢
          omega
        have hto : pre.length + 1 = (pre ++ [a]).length := by simp
        rw [hfirst, if_neg ha0, if_neg ha, hstore, hpos, hto]
        simpa [List.append_assoc] using hgo

/-- The segments of a buffer, when their strings are read, are these. -/
def Reads (allowNonStdAtts : Bool) (buf : List UInt8) (list : List (FmtSegment Nat)) (segs : List Seg) : Prop :=
  list.map (FmtSegment.map (stringAt buf)) = segs.map (Seg.parsed allowNonStdAtts)

variable {allowNonStdAtts : Bool}

variable {list list' : List (FmtSegment Nat)} {segs : List Seg}

theorem Reads.append {segs' : List Seg} (h : Reads allowNonStdAtts buf list segs)
    (h' : Reads allowNonStdAtts buf list' segs') :
    Reads allowNonStdAtts buf (list ++ list') (segs ++ segs') := by
  rw [Reads, List.map_append, List.map_append, h, h']

theorem set_behind (l gap : List UInt8) (a : UInt8) (r : List UInt8) :
    ∃ gap', (l ++ gap ++ a :: r).set l.length 0 = l ++ 0 :: gap' ++ r := by
  cases gap with
  | nil => exact ⟨[], by rw [List.append_nil, set_append]; simp⟩
  | cons g gap =>
    refine ⟨gap ++ [a], ?_⟩
    rw [List.append_assoc, List.cons_append, set_append]
    simp

theorem charAt_ne_zero (h0 : 0 ∉ text) (hsome : text ≠ []) (pre tail : List UInt8) :
    charAt (pre ++ (text ++ tail)) pre.length ≠ 0 := by
  cases text with
  | nil => exact absurd rfl hsome
  | cons c text =>
    rw [List.cons_append, charAt_cons]
    exact fun hc => h0 (hc ▸ List.mem_cons_self)

/-- There is something in front of a "%", or it is there. -/
theorem charAt_doubled_ne_zero (hs : 0 ∉ s) (pre tail : List UInt8) :
    charAt (pre ++ (doubled s ++ 0x25 :: tail)) pre.length ≠ 0 := by
  have htext : 0 ∉ doubled s ++ [0x25] := by simp [zero_mem_doubled_iff, hs]
  have hne := charAt_ne_zero htext (by simp) pre tail
  simpa only [List.append_assoc, List.cons_append, List.nil_append] using hne

/-- A literal in front of a single "%". Its string is cut off in front of what
is still to be parsed. -/
theorem collectStringSegment_percent (allowNonStdAtts : Bool) (hs : 0 ∉ s) {r : List UInt8}
    (hr : r.head? ≠ some 0x25) (pre : List UInt8) (list : List (FmtSegment Nat)) :
    ∃ mid new, collectStringSegment (pre ++ (doubled s ++ 0x25 :: r)) pre.length list =
        (pre ++ mid ++ r, list ++ new, (pre ++ mid).length) ∧
      ∀ tail, Reads allowNonStdAtts (pre ++ mid ++ tail) new (lits s) := by
  have hstops : Stops (0x25 :: r) := .inr ⟨rfl, hr⟩
  have hlen : s.length ≤ (pre ++ (doubled s ++ 0x25 :: r)).length := by
    have hle := length_le_doubled s
    simp only [List.length_append]
    omega
  obtain ⟨gap, hgap, hloop⟩ := collectLoop_eq hs hstops _ hlen pre []
  rw [List.append_nil] at hloop
  have hstart := charAt_doubled_ne_zero hs pre r
  have hend : charAt (pre ++ s ++ gap ++ 0x25 :: r) (pre ++ s ++ gap).length ≠ 0 := by
    rw [charAt_cons]
    decide
  rw [collectStringSegment, if_neg hstart, hloop]
  by_cases hnil : s = []
  · subst hnil
    have hgapnil : gap = [] := by simpa using hgap
    subst hgapnil
    refine ⟨[0x25], [], ?_, fun _ => rfl⟩
    simp only [if_neg hend]
    simp
  · have hlt : pre.length < (pre ++ s).length := by
      have hpos := List.length_pos_of_ne_nil hnil
      rw [List.length_append]
      omega
    obtain ⟨gap', hset⟩ := set_behind (pre ++ s) gap 0x25 r
    have hlen' := congrArg List.length hset
    refine ⟨s ++ 0 :: gap', [.string pre.length], ?_, fun tail => ?_⟩
    · simp only [if_neg hend, if_pos hlt, hset]
      simp only [List.length_set, List.length_append, List.length_cons] at hlen' ⊢
      simp
      omega
    · have hread := stringAt_eq hs pre (gap' ++ tail)
      simp [Reads, lits, hnil, FmtSegment.map, Seg.parsed, List.append_assoc, hread]

theorem collectStringSegment_end (allowNonStdAtts : Bool) (hs : 0 ∉ s) (hsome : s ≠ [])
    (pre : List UInt8) (list : List (FmtSegment Nat)) :
    ∃ mid new, collectStringSegment (pre ++ (doubled s ++ [0])) pre.length list =
        (pre ++ mid ++ [0], list ++ new, (pre ++ mid).length) ∧
      Reads allowNonStdAtts (pre ++ mid ++ [0]) new (lits s) := by
  have hstops : Stops [0] := .inl rfl
  have hlen : s.length ≤ (pre ++ (doubled s ++ [0])).length := by
    have hle := length_le_doubled s
    simp only [List.length_append]
    omega
  obtain ⟨gap, hgap, hloop⟩ := collectLoop_eq hs hstops _ hlen pre []
  rw [List.append_nil] at hloop
  have hstart : charAt (pre ++ (doubled s ++ [0])) pre.length ≠ 0 :=
    charAt_ne_zero (fun h => hs (zero_mem_doubled_iff.1 h)) (fun h => hsome (doubled_eq_nil_iff.1 h)) pre [0]
  have hend : charAt (pre ++ s ++ gap ++ [0]) (pre ++ s ++ gap).length = 0 := charAt_cons _ _ _
  have hlt : pre.length < (pre ++ s).length := by
    have hpos := List.length_pos_of_ne_nil hsome
    rw [List.length_append]
    omega
  rw [collectStringSegment, if_neg hstart, hloop]
  -- the NUL is stored in the gap, or where there is one
  have hset : ∃ mid, (pre ++ s ++ gap ++ [0]).set (pre ++ s).length 0 = pre ++ mid ++ [0] ∧
      mid.length = (s ++ gap).length ∧ stringAt (pre ++ mid ++ [0]) pre.length = s := by
    cases gap with
    | nil =>
      refine ⟨s, ?_, by simp, ?_⟩
      · rw [List.append_nil, set_append]
      · simpa using stringAt_eq hs pre []
    | cons g gap =>
      refine ⟨s ++ 0 :: gap, ?_, by simp, ?_⟩
      · rw [List.append_assoc (pre ++ s), List.cons_append, set_append]
        simp
      · simpa using stringAt_eq hs pre (gap ++ [0])
  obtain ⟨mid, hset, hmid, hread⟩ := hset
  refine ⟨mid, [.string pre.length], ?_, ?_⟩
  · simp only [if_pos hend, if_pos hlt, hset]
    have hpos : (pre ++ s ++ gap).length = (pre ++ mid).length := by
      simp only [List.length_append] at hmid ⊢
      omega
    rw [hpos]
  · rw [List.append_assoc] at hread ⊢
    simp [Reads, lits, hsome, FmtSegment.map, Seg.parsed, hread]

/-! ## Attributes in the buffer -/

theorem getLast?_of_valid {fmt : List UInt8} {w : Int32} {pf : ParsedFormat}
    (h : evlValidateAttrFmt (0x25 :: fmt) w = some pf) : fmt.getLast? = some pf.fmConversion := by
  unfold evlValidateAttrFmt at h
  rw [List.tail_cons] at h
  split at h
  · rename_i pf' hparse
    split at h
    · cases h
    rename_i hlength
    obtain ⟨hpos, hlen⟩ := not_or.1 hlength
    split at h
    · cases h
    split at h
    · cases h
    have hpf : pf' = pf := Option.some.inj h
    subst hpf
    clear h
    unfold evlParseFmtConvSpec at hparse
    split at hparse
    · cases hparse
    · cases hparse
    rename_i flags f hflags
    split at hparse
    · cases hparse
    rename_i width precision g hnumbers
    split at hparse
    · cases hparse
    rename_i mods letter rest hmods
    split at hparse
    · cases hparse
    split at hparse
    · cases hparse
    obtain ⟨htext, -⟩ := Printf.scanFlags_iff.1 hflags
    obtain ⟨ate, hate, -⟩ := Printf.scanNumbers_some hnumbers
    obtain ⟨hg, -, -⟩ := Printf.scanModifiers_some hmods
    cases hparse
    have hrest : rest = [] := by
      rw [not_not] at hlen
      have hsub : fmt.length - rest.length = fmt.length := hlen
      have hpos' : fmt.length - rest.length ≠ 0 := hpos
      exact List.length_eq_zero_iff.1 (by omega)
    rw [htext, hate, hg, hrest]
    simp
  · cases h

variable {fmt : Option (List UInt8)}

theorem spec_of_valid (h : (Seg.attr name fmt).Valid allowNonStdAtts) : Spec name fmt :=
  ⟨h.1, h.2.1, h.2.2.1, h.2.2.2.1⟩

theorem valid_iff (hspec : Spec name fmt) : (Seg.attr name fmt).Valid allowNonStdAtts ↔
      (∃ type, attrTypeOf allowNonStdAtts name fmt.isSome = .ok type) ∧ ∀ f ∈ fmt, ValidFormat f := by
  constructor
  · intro h
    exact h.2.2.2.2
  · intro h
    exact ⟨hspec.noNul, hspec.noPercent, hspec.nonempty, hspec.noColon, h⟩

/-- The colon becomes a NUL, a "%", and a colon again if the format is bad. -/
theorem makeAttrSegment_format {f : List UInt8} (hspec : Spec name (some f)) (pre tail : List UInt8) :
    makeAttrSegment allowNonStdAtts (pre ++ (attrSpecOf name (some f) ++ 0 :: tail)) pre.length =
      match attrTypeOf allowNonStdAtts name true with
      | .error msg => (pre ++ (name ++ 0 :: f) ++ 0 :: tail, makeErrorSegment name msg)
      | .ok type =>
        if f = printfFmt ∨ f = printkFmt then
          (pre ++ (name ++ 0x25 :: f) ++ 0 :: tail, .attr type (some ((pre ++ name).length + 1)) false)
        else
          match evlValidateAttrFmt (0x25 :: f) 127 with
          | none => (pre ++ (name ++ 0x3a :: f) ++ 0 :: tail,
              makeErrorSegment (attrSpecOf name (some f)) "Error in format")
          | some pf => (pre ++ (name ++ 0x25 :: f) ++ 0 :: tail,
              .attr type (some (pre ++ name).length) (pf.fmConversion = 0x73 ∨ pf.fmConversion = 0x53)) := by
  have hnul := hspec.noNul
  simp only [attrSpecOf, List.mem_append, List.mem_cons, not_or] at hnul
  obtain ⟨hname, -, hf⟩ := hnul
  have hcolon : strchr (pre ++ (attrSpecOf name (some f) ++ 0 :: tail)) pre.length 0x3a = some (pre ++ name).length :=
    strchr_eq (by decide) hname hspec.noColon hf pre tail
  have hset : ∀ a b : UInt8, (pre ++ (name ++ a :: f) ++ 0 :: tail).set (pre ++ name).length b =
      pre ++ (name ++ b :: f) ++ 0 :: tail := by
    intro a b
    have hreassoc : ∀ d : UInt8, pre ++ (name ++ d :: f) ++ 0 :: tail = pre ++ name ++ d :: (f ++ 0 :: tail) := by
      intro d
      simp only [List.append_assoc, List.cons_append]
    rw [hreassoc, set_append, hreassoc]
  have hbuf : pre ++ (attrSpecOf name (some f) ++ 0 :: tail) = pre ++ (name ++ 0x3a :: f) ++ 0 :: tail := by
    simp only [attrSpecOf, List.append_assoc, List.cons_append]
  have hnameAt : stringAt (pre ++ (name ++ 0 :: f) ++ 0 :: tail) pre.length = name := by
    have hread := stringAt_eq hname pre (f ++ 0 :: tail)
    simpa only [List.append_assoc, List.cons_append] using hread
  have hfmtAt : stringAt (pre ++ (name ++ 0x25 :: f) ++ 0 :: tail) (pre ++ name).length = 0x25 :: f := by
    have hread := stringAt_eq (s := 0x25 :: f) (by simp [hf]) (pre ++ name) tail
    simpa only [List.append_assoc, List.cons_append] using hread
  have hspecAt : stringAt (pre ++ (name ++ 0x3a :: f) ++ 0 :: tail) pre.length = attrSpecOf name (some f) := by
    have hread := stringAt_eq hspec.noNul pre tail
    rwa [hbuf] at hread
  rw [makeAttrSegment, hcolon]
  simp only [hbuf, hset, hnameAt, hfmtAt, hspecAt, List.cons.injEq, true_and]

/-- A valid attribute: a segment, and as many characters as there were. -/
theorem makeAttrSegment_valid (h : (Seg.attr name fmt).Valid allowNonStdAtts)
    (pre tail : List UInt8) :
    ∃ mid seg, makeAttrSegment allowNonStdAtts (pre ++ (attrSpecOf name fmt ++ 0 :: tail)) pre.length =
        (pre ++ mid ++ 0 :: tail, seg) ∧ mid.length = (attrSpecOf name fmt).length ∧
      (∀ msg, seg ≠ .error msg) ∧
      ∀ tail, Reads allowNonStdAtts (pre ++ mid ++ 0 :: tail) [seg] [.attr name fmt] := by
  have hspec := spec_of_valid h
  obtain ⟨⟨type, htype⟩, hfmt⟩ := (valid_iff hspec).1 h
  have hnul := hspec.noNul
  cases fmt with
  | none =>
    simp only [attrSpecOf, Option.isSome_none] at hnul htype ⊢
    refine ⟨name, .attr type none false, ?_, rfl, by simp, fun _ => ?_⟩
    · rw [makeAttrSegment, strchr_none hnul hspec.noColon, stringAt_eq hnul]
      simp only [htype]
      simp
    · simp [Reads, FmtSegment.map, Seg.parsed, htype]
  | some f =>
    simp only [attrSpecOf, List.mem_append, List.mem_cons, not_or, Option.isSome_some] at hnul htype
    obtain ⟨-, -, hf⟩ := hnul
    rw [makeAttrSegment_format hspec, htype]
    have hlen : (name ++ 0x25 :: f).length = (attrSpecOf name (some f)).length := by
      simp [attrSpecOf]
    by_cases hprint : f = printfFmt ∨ f = printkFmt
    · refine ⟨name ++ 0x25 :: f, _, if_pos hprint, hlen, by simp, fun tail => ?_⟩
      have hread := stringAt_eq hf (pre ++ name ++ [0x25]) tail
      have hpos : (pre ++ name ++ [0x25]).length = (pre ++ name).length + 1 := List.length_append
      have hlast : f.getLast? ≠ some 0x73 ∧ f.getLast? ≠ some 0x53 := by
        rcases hprint with rfl | rfl
        · decide
        · decide
      rw [hpos, List.length_append] at hread
      simp only [List.append_assoc, List.cons_append, List.nil_append] at hread
      simp [Reads, FmtSegment.map, Seg.parsed, htype, userFmt, hprint, hlast, hread]
    · obtain ⟨pf, hpf⟩ : ∃ pf, evlValidateAttrFmt (0x25 :: f) 127 = some pf := by
        rcases hfmt f rfl with hp | hp | hp
        · exact absurd (.inl hp) hprint
        · exact absurd (.inr hp) hprint
        · exact Option.isSome_iff_exists.1 hp
      simp only [if_neg hprint, hpf]
      refine ⟨name ++ 0x25 :: f, _, rfl, hlen, by simp, fun tail => ?_⟩
      have hread := stringAt_eq (s := 0x25 :: f) (by simp [hf]) (pre ++ name) tail
      rw [List.length_append] at hread
      simp only [List.append_assoc, List.cons_append] at hread
      simp [Reads, FmtSegment.map, Seg.parsed, htype, userFmt, hprint, hread, getLast?_of_valid hpf]

theorem makeAttrSegment_invalid (hspec : Spec name fmt)
    (h : ¬ (Seg.attr name fmt).Valid allowNonStdAtts) (pre tail : List UInt8) :
    ∃ msg, (makeAttrSegment allowNonStdAtts (pre ++ (attrSpecOf name fmt ++ 0 :: tail)) pre.length).2 = .error msg := by
  rw [valid_iff hspec] at h
  cases fmt with
  | none =>
    have hnul := hspec.noNul
    simp only [attrSpecOf, Option.isSome_none] at hnul h ⊢
    rw [makeAttrSegment, strchr_none hnul hspec.noColon, stringAt_eq hnul]
    cases htype : attrTypeOf allowNonStdAtts name false with
    | ok type => exact absurd ⟨⟨type, htype⟩, by simp⟩ h
    | error msg => exact ⟨_, rfl⟩
  | some f =>
    rw [makeAttrSegment_format hspec]
    cases htype : attrTypeOf allowNonStdAtts name true with
    | error msg => exact ⟨_, rfl⟩
    | ok type =>
      have hformat : ¬ ValidFormat f := by
        intro hvalid
        refine h ⟨⟨type, htype⟩, fun f' hf' => ?_⟩
        rwa [← Option.some.inj hf']
      have hprint : ¬ (f = printfFmt ∨ f = printkFmt) := by
        rintro (hp | hp)
        · exact hformat (.inl hp)
        · exact hformat (.inr (.inl hp))
      have hnone : evlValidateAttrFmt (0x25 :: f) 127 = none := by
        cases hpf : evlValidateAttrFmt (0x25 :: f) 127 with
        | none => rfl
        | some pf => exact absurd (.inr (.inr (by rw [hpf]; rfl))) hformat
      simp only [if_neg hprint, hnone]
      exact ⟨_, rfl⟩

/-! ## The loop -/

theorem collectAttrSegment_closed (allowNonStdAtts : Bool) (hspec : Spec name fmt)
    (hrest : 0 ∉ rest) (pre : List UInt8) (list : List (FmtSegment Nat)) :
    collectAttrSegment allowNonStdAtts (pre ++ (attrSpecOf name fmt ++ 0x25 :: rest) ++ [0]) pre.length list =
      let made := makeAttrSegment allowNonStdAtts (pre ++ (attrSpecOf name fmt ++ 0 :: (rest ++ [0]))) pre.length
      (made.1, list ++ [made.2],
        match made.2 with | .error _ => none | _ => some ((pre ++ attrSpecOf name fmt).length + 1)) := by
  have hstart : charAt (pre ++ (attrSpecOf name fmt ++ 0x25 :: rest) ++ [0]) pre.length ≠ 0 := by
    have hne := charAt_ne_zero hspec.noNul hspec.nonempty pre (0x25 :: rest ++ [0])
    simpa only [List.append_assoc] using hne
  have hclose : strchr (pre ++ (attrSpecOf name fmt ++ 0x25 :: rest) ++ [0]) pre.length 0x25 =
      some (pre ++ attrSpecOf name fmt).length := by
    have hfound := strchr_eq (by decide) hspec.noNul hspec.noPercent hrest pre []
    simpa only [List.append_assoc] using hfound
  have hset : (pre ++ (attrSpecOf name fmt ++ 0x25 :: rest) ++ [0]).set (pre ++ attrSpecOf name fmt).length 0 =
      pre ++ (attrSpecOf name fmt ++ 0 :: (rest ++ [0])) := by
    have hcut := set_append (pre ++ attrSpecOf name fmt) 0x25 0 (rest ++ [0])
    simpa only [List.append_assoc, List.cons_append] using hcut
  rw [collectAttrSegment, if_neg hstart, hclose]
  simp only [hset]

theorem attr_head (hspec : Spec name fmt) : (attrSpecOf name fmt ++ rest).head? ≠ some 0x25 := by
  have hpercent := hspec.noPercent
  have hsome := hspec.nonempty
  cases hs : attrSpecOf name fmt with
  | nil => exact absurd hs hsome
  | cons c s =>
    rw [hs] at hpercent
    simp only [List.cons_append, List.head?_cons, ne_eq, Option.some.injEq]
    exact fun hc => hpercent (hc ▸ List.mem_cons_self)

/-- One turn over a literal and an attribute that is closed. -/
theorem parseLoop_turn (allowNonStdAtts : Bool) (hs : 0 ∉ s) (hspec : Spec name fmt)
    (hrest : 0 ∉ rest) (n : Nat) (pre : List UInt8) (list : List (FmtSegment Nat)) :
    ∃ mid new, parseLoop allowNonStdAtts (n + 1)
        (pre ++ (doubled s ++ 0x25 :: (attrSpecOf name fmt ++ 0x25 :: rest)) ++ [0]) pre.length list =
        (let made := makeAttrSegment allowNonStdAtts (pre ++ mid ++ (attrSpecOf name fmt ++ 0 :: (rest ++ [0])))
          (pre ++ mid).length
        match made.2 with
        | .error _ => .error (getFmtErrorMsg (list ++ new ++ [made.2]))
        | _ => parseLoop allowNonStdAtts n made.1 ((pre ++ mid ++ attrSpecOf name fmt).length + 1)
            (list ++ new ++ [made.2])) ∧
      ∀ tail, Reads allowNonStdAtts (pre ++ mid ++ tail) new (lits s) := by
  have hopen : (attrSpecOf name fmt ++ 0x25 :: rest ++ [0]).head? ≠ some 0x25 := by
    rw [List.append_assoc]
    exact attr_head hspec
  obtain ⟨mid, new, hstring, hreads⟩ := collectStringSegment_percent allowNonStdAtts hs hopen pre list
  have hstart : charAt (pre ++ (doubled s ++ 0x25 :: (attrSpecOf name fmt ++ 0x25 :: rest)) ++ [0]) pre.length ≠ 0 := by
    have hne := charAt_doubled_ne_zero hs pre (attrSpecOf name fmt ++ 0x25 :: rest ++ [0])
    simpa only [List.append_assoc, List.cons_append] using hne
  have hbuf : pre ++ (doubled s ++ 0x25 :: (attrSpecOf name fmt ++ 0x25 :: rest)) ++ [0] =
      pre ++ (doubled s ++ 0x25 :: (attrSpecOf name fmt ++ 0x25 :: rest ++ [0])) := by
    simp only [List.append_assoc, List.cons_append]
  have hattr := collectAttrSegment_closed allowNonStdAtts hspec hrest (pre ++ mid) (list ++ new)
  refine ⟨mid, new, ?_, hreads⟩
  rw [parseLoop, if_neg hstart, hbuf, hstring]
  simp only
  rw [← List.append_assoc (pre ++ mid), hattr]
  generalize makeAttrSegment allowNonStdAtts _ _ = made
  obtain ⟨buf, seg⟩ := made
  cases seg with
  | error msg => rfl
  | string p => rfl
  | attr type userfmt stringfmt => rfl

theorem parseLoop_attr (hs : 0 ∉ s) (hvalid : (Seg.attr name fmt).Valid allowNonStdAtts)
    (hrest : 0 ∉ rest) (n : Nat) (pre : List UInt8) (list : List (FmtSegment Nat)) :
    ∃ mid new, parseLoop allowNonStdAtts (n + 1)
        (pre ++ (doubled s ++ 0x25 :: (attrSpecOf name fmt ++ 0x25 :: rest)) ++ [0]) pre.length list =
        parseLoop allowNonStdAtts n (pre ++ mid ++ rest ++ [0]) (pre ++ mid).length (list ++ new) ∧
      ∀ tail, Reads allowNonStdAtts (pre ++ mid ++ tail) new (lits s ++ [.attr name fmt]) := by
  obtain ⟨mid, new, hturn, hreads⟩ := parseLoop_turn allowNonStdAtts hs (spec_of_valid hvalid)
    hrest n pre list
  obtain ⟨mid', seg, hmade, hlen, hgood, hread⟩ := makeAttrSegment_valid hvalid (pre ++ mid) (rest ++ [0])
  have hpos : (pre ++ mid ++ attrSpecOf name fmt).length + 1 = (pre ++ mid ++ mid' ++ [0]).length := by
    simp only [List.length_append, List.length_singleton] at hlen ⊢
    omega
  refine ⟨mid ++ mid' ++ [0], new ++ [seg], ?_, fun tail => ?_⟩
  · rw [hturn, hmade]
    cases seg with
    | error msg => exact absurd rfl (hgood msg)
    | string p =>
      simp only [hpos]
      simp [List.append_assoc]
    | attr type userfmt stringfmt =>
      simp only [hpos]
      simp [List.append_assoc]
  · refine Reads.append ?_ ?_
    · have hold := hreads (mid' ++ [0] ++ tail)
      simpa only [List.append_assoc] using hold
    · have hnew := hread tail
      simpa only [List.append_assoc, List.cons_append, List.nil_append] using hnew

theorem parseLoop_done (n : Nat) (pre : List UInt8) (list : List (FmtSegment Nat)) :
    parseLoop allowNonStdAtts n (pre ++ [0]) pre.length list = .ok (pre ++ [0], list) := by
  cases n with
  | zero => rfl
  | succ n => rw [parseLoop, charAt_cons, if_pos rfl]

theorem parseLoop_end {mid pre : List UInt8} {sp : Nat} (hstart : charAt buf sp ≠ 0)
    (h : collectStringSegment buf sp list = (pre ++ mid ++ [0], list', (pre ++ mid).length))
    (n : Nat) : parseLoop allowNonStdAtts (n + 1) buf sp list = .ok (pre ++ mid ++ [0], list') := by
  rw [parseLoop, if_neg hstart, h]
  simp only [collectAttrSegment, charAt_cons, if_true]
  exact parseLoop_done n (pre ++ mid) list'

variable {lone : Bool}

theorem Scans.noNul (h : Scans allowNonStdAtts text segs lone) : 0 ∉ text := by
  induction h with
  | ends s lone hs => cases lone <;> simp [zero_mem_doubled_iff, hs]
  | attr hs hvalid hrest ih =>
    have hnul := hvalid.1
    simp [zero_mem_doubled_iff, hs, hnul, ih]

theorem Fails.noNul (h : Fails allowNonStdAtts text) : 0 ∉ text := by
  induction h with
  | unterminated hs hafter => simp [zero_mem_doubled_iff, hs, hafter]
  | invalid hs hrest hspec hvalid => simp [zero_mem_doubled_iff, hs, hspec.noNul, hrest]
  | later hs hvalid hrest ih =>
    have hnul := hvalid.1
    simp [zero_mem_doubled_iff, hs, hnul, ih]

theorem parseLoop_scans (h : Scans allowNonStdAtts text segs lone) (n : Nat) (hn : text.length ≤ n)
    (pre : List UInt8) (list : List (FmtSegment Nat)) :
    ∃ tail new, parseLoop allowNonStdAtts n (pre ++ text ++ [0]) pre.length list = .ok (pre ++ tail, list ++ new) ∧
      Reads allowNonStdAtts (pre ++ tail) new segs := by
  induction h generalizing n pre list with
  | ends s lone hs =>
    cases lone with
    | false =>
      rw [if_neg (by simp), List.append_nil] at hn ⊢
      by_cases hnil : s = []
      · subst hnil
        refine ⟨[0], [], ?_, rfl⟩
        rw [doubled_nil, List.append_nil, List.append_nil]
        exact parseLoop_done n pre list
      · obtain ⟨mid, new, hstring, hreads⟩ := collectStringSegment_end allowNonStdAtts hs hnil pre list
        have hle := length_le_doubled s
        have hpos := List.length_pos_of_ne_nil hnil
        obtain ⟨n, rfl⟩ : ∃ m, n = m + 1 := ⟨n - 1, by omega⟩
        have hstart : charAt (pre ++ (doubled s ++ [0])) pre.length ≠ 0 :=
          charAt_ne_zero (fun h => hs (zero_mem_doubled_iff.1 h)) (fun h => hnil (doubled_eq_nil_iff.1 h)) pre [0]
        refine ⟨mid ++ [0], new, ?_, ?_⟩
        · rw [List.append_assoc, parseLoop_end hstart hstring, List.append_assoc]
        · rwa [← List.append_assoc]
    | true =>
      rw [if_pos rfl, List.length_append, List.length_singleton] at hn
      rw [if_pos rfl]
      have hend : ([0] : List UInt8).head? ≠ some 0x25 := by simp
      obtain ⟨mid, new, hstring, hreads⟩ := collectStringSegment_percent allowNonStdAtts hs hend pre list
      obtain ⟨n, rfl⟩ : ∃ m, n = m + 1 := ⟨n - 1, by omega⟩
      have hbuf : pre ++ (doubled s ++ [0x25]) ++ [0] = pre ++ (doubled s ++ 0x25 :: [0]) := by
        simp only [List.append_assoc, List.cons_append, List.nil_append]
      have hstart := charAt_doubled_ne_zero hs pre [0]
      refine ⟨mid ++ [0], new, ?_, ?_⟩
      · rw [hbuf, parseLoop_end hstart hstring, List.append_assoc]
      · have hread := hreads [0]
        rwa [List.append_assoc] at hread
  | @attr s name rest fmt segs lone hs hvalid hrest ih =>
    have hlen : rest.length + 1 ≤ n := by
      simp only [List.length_append, List.length_cons] at hn
      omega
    obtain ⟨n, rfl⟩ : ∃ m, n = m + 1 := ⟨n - 1, by omega⟩
    obtain ⟨mid, new, hturn, hreads⟩ := parseLoop_attr hs hvalid hrest.noNul n pre list
    obtain ⟨tail, new', hgo, hreads'⟩ := ih n (by omega) (pre ++ mid) (list ++ new)
    refine ⟨mid ++ tail, new ++ new', ?_, ?_⟩
    · rw [hturn, hgo, List.append_assoc, List.append_assoc]
    · have hsegs : lits s ++ Seg.attr name fmt :: segs = lits s ++ [.attr name fmt] ++ segs := by simp
      rw [hsegs, ← List.append_assoc]
      exact (hreads tail).append hreads'

theorem parseLoop_fails (h : Fails allowNonStdAtts text) (n : Nat) (hn : text.length ≤ n)
    (pre : List UInt8) (list : List (FmtSegment Nat)) :
    ∃ msg, parseLoop allowNonStdAtts n (pre ++ text ++ [0]) pre.length list = .error msg := by
  induction h generalizing n pre list with
  | @unterminated s after hs hafter hopen hsome =>
    obtain ⟨n, rfl⟩ : ∃ m, n = m + 1 := ⟨n - 1, by simp at hn; omega⟩
    have hhead : (after ++ [0]).head? ≠ some 0x25 := by
      cases after with
      | nil => exact absurd rfl hsome
      | cons c after =>
        simp only [List.cons_append, List.head?_cons, ne_eq, Option.some.injEq]
        exact fun hc => hopen (hc ▸ List.mem_cons_self)
    obtain ⟨mid, new, hstring, -⟩ := collectStringSegment_percent allowNonStdAtts hs hhead pre list
    have hbuf : pre ++ (doubled s ++ 0x25 :: after) ++ [0] = pre ++ (doubled s ++ 0x25 :: (after ++ [0])) := by
      simp only [List.append_assoc, List.cons_append]
    have hstart := charAt_doubled_ne_zero hs pre (after ++ [0])
    have hname : charAt (pre ++ mid ++ (after ++ [0])) (pre ++ mid).length ≠ 0 :=
      charAt_ne_zero hafter hsome (pre ++ mid) [0]
    rw [hbuf, parseLoop, if_neg hstart, hstring]
    simp only [collectAttrSegment, if_neg hname, strchr_none hafter hopen (pre ++ mid) []]
    exact ⟨_, rfl⟩
  | @invalid s name rest fmt hs hrest hspec hvalid =>
    obtain ⟨n, rfl⟩ : ∃ m, n = m + 1 := ⟨n - 1, by simp at hn; omega⟩
    obtain ⟨mid, new, hturn, -⟩ := parseLoop_turn allowNonStdAtts hs hspec hrest n pre list
    obtain ⟨msg, hmade⟩ := makeAttrSegment_invalid hspec hvalid (pre ++ mid) (rest ++ [0])
    rw [hturn]
    simp only [hmade]
    exact ⟨_, rfl⟩
  | @later s name rest fmt hs hvalid hrest ih =>
    have hlen : rest.length + 1 ≤ n := by
      simp only [List.length_append, List.length_cons] at hn
      omega
    obtain ⟨n, rfl⟩ : ∃ m, n = m + 1 := ⟨n - 1, by omega⟩
    obtain ⟨mid, new, hturn, -⟩ := parseLoop_attr hs hvalid hrest.noNul n pre list
    obtain ⟨msg, hgo⟩ := ih n (by omega) (pre ++ mid) (list ++ new)
    exact ⟨msg, by rw [hturn, hgo]⟩

/-! ## The whole text -/

theorem evlParseFormat_scans (h : Scans allowNonStdAtts text segs lone) :
    evlParseFormat allowNonStdAtts text =
      if segs = [] then .error "Empty format specification" else .ok (segs.map (Seg.parsed allowNonStdAtts)) := by
  obtain ⟨tail, new, hgo, hreads⟩ := parseLoop_scans h text.length (Nat.le_refl _) [] []
  rw [List.nil_append, List.nil_append, List.nil_append] at hgo
  rw [List.nil_append] at hreads
  have hnil : new = [] ↔ segs = [] := by
    have hlen := congrArg List.length hreads
    rw [List.length_map, List.length_map] at hlen
    rw [← List.length_eq_zero_iff, hlen, List.length_eq_zero_iff]
  have hgo' : parseLoop allowNonStdAtts text.length (text ++ [0]) 0 [] = .ok (tail, new) := hgo
  rw [evlParseFormat, hgo']
  simp only [hnil]
  rw [hreads]

theorem evlParseFormat_fails (h : Fails allowNonStdAtts text) :
    ∃ msg, evlParseFormat allowNonStdAtts text = .error msg := by
  obtain ⟨msg, hgo⟩ := parseLoop_fails h text.length (Nat.le_refl _) [] []
  have hgo' : parseLoop allowNonStdAtts text.length (text ++ [0]) 0 [] = .error msg := hgo
  exact ⟨msg, by rw [evlParseFormat, hgo']⟩

/-! ## What was written -/

@[simp] theorem lits_nil : lits [] = [] := rfl

theorem rendered_append (segs segs' : List Seg) : rendered (segs ++ segs') = rendered segs ++ rendered segs' :=
  List.flatMap_append

theorem rendered_lits (s : List UInt8) : rendered (lits s) = doubled s := by
  by_cases hs : s = []
  · subst hs
    rfl
  · simp [lits, hs, rendered, Seg.text]

/-- A text that is scanned is what its segments are written as. -/
theorem Scans.text_eq (h : Scans allowNonStdAtts text segs lone) :
    text = rendered segs ++ if lone then [0x25] else [] := by
  induction h with
  | ends s lone hs => rw [rendered_lits]
  | @attr s name rest fmt segs lone hs hvalid hrest ih =>
    have hsegs : rendered (Seg.attr name fmt :: segs) = 0x25 :: attrSpecOf name fmt ++ [0x25] ++ rendered segs := rfl
    rw [rendered_append, rendered_lits, hsegs, ih]
    simp [List.append_assoc]

theorem Scans.valid (h : Scans allowNonStdAtts text segs lone) :
    ∀ seg ∈ segs, seg.Valid allowNonStdAtts := by
  have hlits : ∀ s : List UInt8, 0 ∉ s → ∀ seg ∈ lits s, seg.Valid allowNonStdAtts := by
    intro s hs seg hseg
    by_cases hnil : s = []
    · simp [lits, hnil] at hseg
    · simp only [lits, if_neg hnil, List.mem_singleton] at hseg
      subst hseg
      exact ⟨hnil, hs⟩
  induction h with
  | ends s lone hs => exact hlits s hs
  | attr hs hvalid hrest ih =>
    intro seg hseg
    rcases List.mem_append.1 hseg with hseg | hseg
    · exact hlits _ hs seg hseg
    rcases List.mem_cons.1 hseg with rfl | hseg
    · exact hvalid
    · exact ih seg hseg

theorem unclosedFrom_plain {c : UInt8} (hc : c ≠ 0x25) (text : List UInt8) :
    unclosedFrom false (c :: text) = unclosedFrom false text := by
  cases text with
  | nil => simp [unclosedFrom, hc]
  | cons d text => rw [unclosedFrom, if_pos hc]

theorem unclosedFrom_doubled (s text : List UInt8) : unclosedFrom false (doubled s ++ text) = unclosedFrom false text := by
  induction s with
  | nil => rfl
  | cons c s ih =>
    rw [doubled_cons]
    by_cases hc : c = 0x25
    · rw [if_pos hc, List.append_assoc]
      simpa [unclosedFrom] using ih
    · rw [if_neg hc, List.append_assoc, List.singleton_append, unclosedFrom_plain hc, ih]

theorem unclosedFrom_open {token : List UInt8} (htoken : 0x25 ∉ token) (text : List UInt8) :
    unclosedFrom true (token ++ 0x25 :: text) = unclosedFrom false text := by
  induction token with
  | nil => simp [unclosedFrom]
  | cons c token ih =>
    have hc : c ≠ 0x25 := fun h => htoken (h ▸ List.mem_cons_self)
    rw [List.cons_append, unclosedFrom, decide_eq_true hc]
    exact ih fun h => htoken (List.mem_cons_of_mem _ h)

theorem Scans.unclosed_eq (h : Scans allowNonStdAtts text segs lone) : unclosed text = lone := by
  induction h with
  | ends s lone hs =>
    rw [unclosed, unclosedFrom_doubled]
    cases lone <;> rfl
  | @attr s name rest fmt segs lone hs hvalid hrest ih =>
    have hspec := spec_of_valid hvalid
    rw [unclosed, unclosedFrom_doubled]
    have hhead : (attrSpecOf name fmt ++ 0x25 :: rest).head? ≠ some 0x25 := attr_head hspec
    have hgo := unclosedFrom_open hspec.noPercent rest
    cases hs : attrSpecOf name fmt ++ 0x25 :: rest with
    | nil => simp at hs
    | cons c token =>
      rw [hs] at hhead hgo
      have hc : c ≠ 0x25 := by simpa using hhead
      rw [unclosedFrom, if_neg (by simp), if_neg hc]
      rw [unclosedFrom, decide_eq_true hc] at hgo
      exact hgo.trans ih

theorem Scans.lit (hs : 0 ∉ s) (hsome : s ≠ []) (h : Scans allowNonStdAtts text segs lone) :
    Scans allowNonStdAtts (doubled s ++ text) (joined s segs) lone := by
  have hlits : ∀ s' : List UInt8, ∀ segs : List Seg, (∀ s segs', segs ≠ .lit s :: segs') →
      joined s (lits s' ++ segs) = lits (s ++ s') ++ segs := by
    intro s' segs hno
    by_cases hnil : s' = []
    · subst hnil
      rcases segs with _ | ⟨_ | _, segs⟩
      · simp [lits, hsome, joined]
      · exact absurd rfl (hno _ _)
      · simp [lits, hsome, joined]
    · simp [lits, hsome, hnil, joined]
  cases h with
  | ends s' lone hs' =>
    have hjoined := hlits s' [] (by simp)
    rw [List.append_nil, List.append_nil] at hjoined
    rw [hjoined, ← List.append_assoc, ← doubled_append]
    exact .ends (s ++ s') lone (by simp [hs, hs'])
  | @attr s' name rest fmt segs lone hs' hvalid hrest =>
    rw [hlits s' _ (by simp), ← List.append_assoc, ← doubled_append]
    exact .attr (by simp [hs, hs']) hvalid hrest

/-- Valid segments are scanned, with adjacent literals as one. -/
theorem scans_rendered (hvalid : ∀ seg ∈ segs, seg.Valid allowNonStdAtts) (lone : Bool) :
    Scans allowNonStdAtts (rendered segs ++ if lone then [0x25] else []) (merged segs) lone := by
  induction segs with
  | nil => exact .ends [] lone (by simp)
  | cons seg segs ih =>
    obtain ⟨hseg, hsegs⟩ := List.forall_mem_cons.1 hvalid
    have hrest := ih hsegs
    cases seg with
    | lit s =>
      have hlit := hrest.lit hseg.2 hseg.1
      rwa [← List.append_assoc] at hlit
    | attr name fmt =>
      have hattr : Scans allowNonStdAtts _ _ _ := .attr (s := []) (by simp) hseg hrest
      simpa [rendered, Seg.text, merged, List.append_assoc] using hattr

theorem merged_eq_nil_iff : merged segs = [] ↔ segs = [] := by
  cases segs with
  | nil => simp [merged]
  | cons seg segs =>
    cases seg with
    | lit s =>
      rw [merged, joined.eq_def]
      split <;> simp
    | attr name fmt => simp [merged]

/-- Valid segments are parsed back from what they are written as exactly if
there are any; and a text with a "%" that is not closed is an error unless it
is the text of some valid segments with the "%" as its last character. -/
theorem parsesBack_iff (allowNonStdAtts : Bool) :
    (∀ segs : List Seg, (∀ seg ∈ segs, seg.Valid allowNonStdAtts) →
      (evlParseFormat allowNonStdAtts (rendered segs) = .ok ((merged segs).map (Seg.parsed allowNonStdAtts)) ↔
        segs ≠ [])) ∧
    ∀ text : List UInt8, 0 ∉ text → unclosed text = true →
      ((∃ msg, evlParseFormat allowNonStdAtts text = .error msg) ↔
        ¬ ∃ segs, segs ≠ [] ∧ (∀ seg ∈ segs, seg.Valid allowNonStdAtts) ∧ text = rendered segs ++ [0x25]) := by
  constructor
  · intro segs hvalid
    have hscans := scans_rendered hvalid false
    rw [if_neg (by simp), List.append_nil] at hscans
    rw [evlParseFormat_scans hscans]
    simp only [merged_eq_nil_iff]
    by_cases hnil : segs = []
    · simp [hnil]
    · simp [hnil]
  · intro text htext hopen
    constructor
    · rintro ⟨msg, hmsg⟩ ⟨segs, hsome, hvalid, rfl⟩
      have hscans := scans_rendered hvalid true
      rw [if_pos rfl] at hscans
      rw [evlParseFormat_scans hscans, if_neg (mt merged_eq_nil_iff.1 hsome)] at hmsg
      cases hmsg
    · intro hnot
      rcases scans_or_fails allowNonStdAtts text htext with ⟨segs, lone, hscans⟩ | hfails
      · have hlone : lone = true := hscans.unclosed_eq.symm.trans hopen
        subst hlone
        have htext' := hscans.text_eq
        rw [if_pos rfl] at htext'
        rw [evlParseFormat_scans hscans]
        by_cases hnil : segs = []
        · exact ⟨_, if_pos hnil⟩
        · exact absurd ⟨segs, hnil, hscans.valid, htext'⟩ hnot
      · exact evlParseFormat_fails hfails

/-- "a%x%" and "%a" -/
theorem parsesBack_iff_ax : (∀ seg ∈ [Seg.lit [0x61], Seg.attr [0x78] none], seg.Valid true) ∧
    evlParseFormat true (rendered [.lit [0x61], .attr [0x78] none]) =
      .ok ((merged [.lit [0x61], .attr [0x78] none]).map (Seg.parsed true)) ∧
    unclosed [0x25, 0x61] = true ∧ ∃ msg, evlParseFormat true [0x25, 0x61] = .error msg := by
  have hvalid : ∀ seg ∈ [Seg.lit [0x61], Seg.attr [0x78] none], seg.Valid true := by
    intro seg hseg
    simp only [List.mem_cons, List.not_mem_nil, or_false] at hseg
    rcases hseg with rfl | rfl
    · exact ⟨by decide, by decide⟩
    · exact ⟨by decide, by decide, by decide, by decide, ⟨.attname [0x78], by decide⟩, by simp⟩
  refine ⟨hvalid, ((parsesBack_iff true).1 _ hvalid).2 (by simp), by decide, ?_⟩
  refine ((parsesBack_iff true).2 [0x25, 0x61] (by decide) (by decide)).2 ?_
  rintro ⟨segs, -, -, htext⟩
  have hlast := congrArg List.getLast? htext
  rw [List.getLast?_append, List.getLast?_singleton, Option.some_or] at hlast
  exact absurd hlast (by decide)

/-- `a%` is taken for "a". -/
theorem lone_percent_accepted :
    unclosed [0x61, 0x25] = true ∧ evlParseFormat true [0x61, 0x25] = .ok [.string [0x61]] ∧
      evlParseFormat false [0x61, 0x25] = .ok [.string [0x61]] := by
  refine ⟨by decide, by decide, by decide⟩

end Evlog.Util
