/-
Evlog.Util.Scanner — string literals (scanner.c, tmpllex.l).

`lxGetString` reads the strings of a query, `getString` those of a template.
The second is a copy of the first, but for hex escapes, the size of its
buffer and the count of lines. A scanner reads bytes with flex's `input()`,
which returns `EOF` at the end of a file; a string that is scanned has its NUL
at the end. `char` has a sign.

What comes of a store outside of a buffer is not known, so the scan ends
there.

`literal` says what a string literal is, without the scanner: the characters
and escapes up to the quote. In an octal escape it has three digits at most,
in a hex escape as many as there are.
-/
import Evlog.Lib.CString
import Evlog.Lib.Machine

namespace Evlog.Util

open Evlog.Lib Evlog.Lib.Machine
open Evlog.Lib.CString (isOctDigit isXDigit rowValue)

/-! ## Reading characters -/

/-- Flex's `input()`, and what is left. -/
def input : List UInt8 → Int × List UInt8
  | [] => (-1, [])
  | c :: chars => (c.toNat, chars)

/-- `unput(c)`, which puts back a `char`. -/
def unput (c : Int) (chars : List UInt8) : List UInt8 := UInt8.ofInt c :: chars

/-- `'0' <= c && c <= '7'` -/
def isOctal (c : Int) : Bool := 0x30 ≤ c && c ≤ 0x37

def isxdigit (c : Int) : Bool :=
  (0x30 ≤ c && c ≤ 0x39) || (0x41 ≤ c && c ≤ 0x46) || (0x61 ≤ c && c ≤ 0x66)

/-- The loop that collects digits, for so many turns at most. -/
def collectDigits (isDigit : Int → Bool) : Nat → List UInt8 → List UInt8 → List UInt8 × List UInt8
  | 0, digits, chars => (digits, chars)
  | turns + 1, digits, chars =>
    let (c, rest) := input chars
    if isDigit c then collectDigits isDigit turns (digits ++ [UInt8.ofInt c]) rest
    else (digits, unput c rest)

/-- `collectOctalDigits`. The loop is left with `nDigits` 4 at the latest; the
NUL behind the digits is outside then. -/
def collectOctalDigits (firstDigit : UInt8) (chars : List UInt8) : Option (List UInt8 × List UInt8) :=
  let (digits, rest) := collectDigits isOctal 3 [firstDigit] chars
  -- char digits[3+1]
  if digits.length < 4 then some (digits, rest) else none

def collectHexDigits (maxDigits : Nat) (chars : List UInt8) : Option (List UInt8 × List UInt8) :=
  let (digits, rest) := collectDigits isxdigit (maxDigits + 1) [] chars
  -- char digits[8+1]
  if digits.length < 9 then some (digits, rest) else none

/-! ## Escapes -/

def ucharMax : Nat := 255

/-- The loop of `lxGetOctalEscape`. -/
def octalEscapeLoop (isCharConst : Bool) (n nDigits : Nat) : List UInt8 → Nat
  | [] => n
  | c :: digits =>
    if isOctDigit c then
      let n := 8 * n + (c.toNat - 0x30)
      let nDigits := nDigits + 1
      if nDigits = 3 ∧ isCharConst = false then n
      else if 3 < nDigits ∧ isCharConst = true then ucharMax + 1
      else octalEscapeLoop isCharConst n nDigits digits
    else n

def lxGetOctalEscape (digits : List UInt8) (isCharConst : Bool) : Nat :=
  octalEscapeLoop isCharConst 0 0 digits

def lxGetHexEscape (digits : List UInt8) : Nat := rowValue 16 (digits.takeWhile isXDigit)

def charEscapes : List (UInt8 × UInt8) :=
  [(0x27, 0x27), (0x22, 0x22), (0x3f, 0x3f), (0x5c, 0x5c), (0x61, 0x07), (0x62, 0x08), (0x66, 0x0c),
    (0x6e, 0x0a), (0x72, 0x0d), (0x74, 0x09), (0x76, 0x0b)]

def lxGetCharEscape (c : UInt8) : Int :=
  match charEscapes.lookup c with
  | some e => e.toNat
  | none => if c = 0x0a then -1 else c.toInt8.toInt

/-! ## The scanners -/

def maxStrLen : Nat := 10 * 1024

/-- What the two scanners differ in. -/
structure Scanner where
  bufSize : Nat
  hexChar : Nat → List UInt8
  countsNewlines : Bool

/-- What a scan comes to: a store outside of a buffer, NULL, or a string,
with the characters that are left. -/
inductive Scanned where
  | outside
  | rejected
  | text (s rest : List UInt8)
  deriving DecidableEq, Repr

/-- What is still to be read, the characters in `strbuf`, and the line. -/
structure Reading where
  chars : List UInt8
  strbuf : List UInt8
  lineNumber : Nat

namespace Scanner

variable (sc : Scanner)

/-- Stores characters in `strbuf`; the end of a turn. -/
def store (chars strbuf bs : List UInt8) (lineNumber : Nat) : Reading ⊕ (Scanned × Nat) :=
  if sc.bufSize < strbuf.length + bs.length then .inr (.outside, lineNumber)
  else if maxStrLen < strbuf.length + bs.length then .inr (.rejected, lineNumber)
  else .inl ⟨chars, strbuf ++ bs, lineNumber⟩

/-- `strdup(strbuf)`, with the NUL behind `nc` characters. -/
def finish (chars strbuf : List UInt8) (lineNumber : Nat) : Reading ⊕ (Scanned × Nat) :=
  if strbuf.length < sc.bufSize then .inr (.text (CString.ofBuf strbuf).bytes chars, lineNumber)
  else .inr (.outside, lineNumber)

def escape (quoted : Bool) (chars strbuf : List UInt8) (lineNumber : Nat) : Reading ⊕ (Scanned × Nat) :=
  let (c, chars) := input chars
  if c = 0 then
    if quoted then .inr (.rejected, lineNumber)
    else sc.finish chars (strbuf ++ [0x5c]) lineNumber
  else if isOctal c then
    match collectOctalDigits (UInt8.ofInt c) chars with
    | none => .inr (.outside, lineNumber)
    | some (digits, chars) =>
      sc.store chars strbuf [UInt8.ofNat (lxGetOctalEscape digits false)] lineNumber
  else if c = 0x78 then
    match collectHexDigits 8 chars with
    | none => .inr (.outside, lineNumber)
    | some (digits, chars) =>
      if digits.length = 0 then sc.store chars strbuf [0x78] lineNumber
      else sc.store chars strbuf (sc.hexChar (lxGetHexEscape digits)) lineNumber
  else
    let ce := lxGetCharEscape (UInt8.ofInt c)
    if ce = -1 then sc.store chars strbuf [] (lineNumber + 1)
    else sc.store chars strbuf [UInt8.ofInt ce] lineNumber

def step (quoted : Bool) : Reading → Reading ⊕ (Scanned × Nat)
  | ⟨chars, strbuf, lineNumber⟩ =>
    let (c, chars) := input chars
    if c = (if quoted then 0x22 else 0) then sc.finish chars strbuf lineNumber
    else if c = 0 then .inr (.rejected, lineNumber)
    else if c = 0x5c then sc.escape quoted chars strbuf lineNumber
    else sc.store chars strbuf [UInt8.ofInt c]
      (if sc.countsNewlines ∧ c = 0x0a then lineNumber + 1 else lineNumber)

end Scanner

/-- The scanner of `lxGetString`. -/
def lxScanner : Scanner := ⟨maxStrLen + 1, fun n => [UInt8.ofNat n], false⟩

/-- The scanner of `getString`. `wctomb` gives the bytes it stores, and none if
it returns less than 1. -/
def tmplScanner (wctomb : Nat → Option (List UInt8)) : Scanner :=
  ⟨maxStrLen + 10, fun n => (wctomb n).getD [UInt8.ofNat n], true⟩

def lxGetString (quoted : Bool) : Reading → Reading ⊕ (Scanned × Nat) := lxScanner.step quoted

def getString (wctomb : Nat → Option (List UInt8)) (quoted : Bool) : Reading → Reading ⊕ (Scanned × Nat) :=
  (tmplScanner wctomb).step quoted

/-! ## String literals -/

/-- A part of a literal: a character, an escape of one character, and octal
and hex escapes with their digits. Of an octal escape it is said whether
there is another octal digit behind the three. -/
inductive Item where
  | plain (c : UInt8)
  | simple (c : UInt8)
  | octal (ds : List UInt8) (more : Bool)
  | hex (ds : List UInt8)
  deriving DecidableEq, Repr

/-- What a literal goes on with: the quote, its next item, or neither. -/
inductive Front where
  | ends (rest : List UInt8)
  | broken
  | item (it : Item) (rest : List UInt8)

def nextEscape (c : UInt8) (chars : List UInt8) : Front :=
  if c = 0 then .broken
  else if isOctDigit c then
    let more := chars.takeWhile isOctDigit
    .item (.octal (c :: more.take 2) (2 < more.length)) (chars.drop (more.take 2).length)
  else if c = 0x78 ∧ chars.takeWhile isXDigit ≠ [] then
    .item (.hex (chars.takeWhile isXDigit)) (chars.dropWhile isXDigit)
  else .item (.simple c) chars

def nextItem : List UInt8 → Front
  | [] => .broken
  | c :: chars =>
    if c = 0x22 then .ends chars
    else if c = 0 then .broken
    else if c = 0x5c then
      match chars with
      | [] => .broken
      | c :: chars => nextEscape c chars
    else .item (.plain c) chars

def items : Nat → List UInt8 → List Item × Option (List UInt8)
  | 0, _ => ([], none)
  | n + 1, chars =>
    match nextItem chars with
    | .ends rest => ([], some rest)
    | .broken => ([], none)
    | .item it rest => (it :: (items n rest).1, (items n rest).2)

def literal (chars : List UInt8) : List Item × Option (List UInt8) := items (chars.length + 1) chars

def Item.decode : Item → List UInt8
  | .plain c => [c]
  | .simple c => if c = 0x0a then [] else [(charEscapes.lookup c).getD c]
  | .octal ds _ => [UInt8.ofNat (rowValue 8 ds)]
  | .hex ds => [UInt8.ofNat (rowValue 16 ds)]

def decoded (chars : List UInt8) : Scanned :=
  match literal chars with
  | (its, some rest) =>
    if (its.flatMap Item.decode).length ≤ maxStrLen then .text (its.flatMap Item.decode) rest else .rejected
  | (_, none) => .rejected

def Decodes (getString : Bool → Reading → Reading ⊕ (Scanned × Nat)) (chars : List UInt8) : Prop :=
  ∀ lineNumber, ∃ lineNumber', Returns (getString true) ⟨chars, [], lineNumber⟩ (decoded chars, lineNumber')

def HexAscii (chars : List UInt8) : Prop :=
  ∀ ds, Item.hex ds ∈ (literal chars).1 → rowValue 16 ds < 128

/-! ## Digits -/

theorem isOctal_byte (c : UInt8) : isOctal c.toNat = isOctDigit c := by
  rw [Bool.eq_iff_iff]
  simp only [isOctal, isOctDigit, Bool.and_eq_true, decide_eq_true_eq, UInt8.le_iff_toNat_le]
  exact and_congr Nat.cast_le Nat.cast_le

theorem isxdigit_byte (c : UInt8) : isxdigit c.toNat = isXDigit c := by
  rw [Bool.eq_iff_iff]
  simp only [isxdigit, isXDigit, CString.isDigit, Bool.or_eq_true, Bool.and_eq_true, decide_eq_true_eq,
    UInt8.le_iff_toNat_le]
  have h48 : (48 : UInt8).toNat = 48 := rfl
  have h57 : (57 : UInt8).toNat = 57 := rfl
  have h65 : (65 : UInt8).toNat = 65 := rfl
  have h70 : (70 : UInt8).toNat = 70 := rfl
  have h97 : (97 : UInt8).toNat = 97 := rfl
  have h102 : (102 : UInt8).toNat = 102 := rfl
  omega

theorem ofInt_byte (c : UInt8) : UInt8.ofInt c.toNat = c := by
  have hc := c.toNat_lt
  have hmod : ((c.toNat : Int) % 2 ^ 8).toNat = c.toNat := by omega
  rw [UInt8.ofInt, hmod, UInt8.ofNat_toNat]

/-- Characters of which the first has been read and put back. At the end that
is `EOF` as a `char`. -/
def putBack (chars : List UInt8) : List UInt8 := if chars = [] then [0xff] else chars

theorem collectDigits_eq {isDigit : Int → Bool} {p : UInt8 → Bool} (hp : ∀ c : UInt8, isDigit c.toNat = p c)
    (heof : isDigit (-1) = false) (n : Nat) (digits chars : List UInt8) :
    collectDigits isDigit n digits chars = (digits ++ (chars.takeWhile p).take n,
      if n ≤ (chars.takeWhile p).length then chars.drop n else putBack (chars.dropWhile p)) := by
  induction n generalizing digits chars with
  | zero => simp [collectDigits]
  | succ n ih =>
    cases chars with
    | nil =>
      have hchar : UInt8.ofInt (-1) = 0xff := rfl
      simp [collectDigits, input, heof, unput, putBack, hchar]
    | cons c chars =>
      rw [collectDigits]
      simp only [input, hp, ofInt_byte]
      cases hc : p c with
      | true =>
        rw [if_pos rfl, ih]
        simp [hc]
      | false => simp [hc, unput, putBack, ofInt_byte]

theorem collectOctalDigits_eq (c : UInt8) (chars : List UInt8) : collectOctalDigits c chars =
      if 2 < (chars.takeWhile isOctDigit).length then none
      else some (c :: chars.takeWhile isOctDigit, putBack (chars.dropWhile isOctDigit)) := by
  rw [collectOctalDigits, collectDigits_eq isOctal_byte rfl]
  simp only [List.cons_append, List.nil_append, List.length_cons, List.length_take]
  by_cases hmore : 2 < (chars.takeWhile isOctDigit).length
  · rw [if_pos hmore, if_neg (by omega)]
  · rw [if_neg hmore, if_pos (by omega), if_neg (by omega), List.take_of_length_le (by omega)]

theorem collectHexDigits_eq (chars : List UInt8) : collectHexDigits 8 chars =
      if 8 < (chars.takeWhile isXDigit).length then none
      else some (chars.takeWhile isXDigit, putBack (chars.dropWhile isXDigit)) := by
  rw [collectHexDigits, collectDigits_eq isxdigit_byte rfl]
  simp only [List.nil_append, List.length_take]
  by_cases hmore : 8 < (chars.takeWhile isXDigit).length
  · rw [if_pos hmore, if_neg (by omega)]
  · rw [if_neg hmore, if_pos (by omega), if_neg (by omega), List.take_of_length_le (by omega)]

theorem lxGetOctalEscape_eq {ds : List UInt8} (hds : ∀ d ∈ ds, isOctDigit d = true) (hlen : ds.length ≤ 3) :
    lxGetOctalEscape ds false = rowValue 8 ds := by
  have hvalue : ∀ d ∈ ds, CString.digitValue d = d.toNat - 0x30 := by
    intro d hd
    have hoct := hds d hd
    simp only [isOctDigit, Bool.and_eq_true, decide_eq_true_eq] at hoct
    have hdigit : CString.isDigit d = true := by
      simp only [CString.isDigit, Bool.and_eq_true, decide_eq_true_eq]
      exact ⟨hoct.1, UInt8.le_trans hoct.2 (by decide)⟩
    rw [CString.digitValue, if_pos hdigit]
  rcases ds with _ | ⟨a, _ | ⟨b, _ | ⟨c, _ | ⟨d, ds⟩⟩⟩⟩
  · rfl
  · simp [lxGetOctalEscape, octalEscapeLoop, rowValue, hds, hvalue]
  · simp [lxGetOctalEscape, octalEscapeLoop, rowValue, hds, hvalue]
  · simp [lxGetOctalEscape, octalEscapeLoop, rowValue, hds, hvalue]
  · simp only [List.length_cons] at hlen
    omega

/-! ## One item -/

def Item.overlong : Item → Bool
  | .octal _ more => more
  | .hex ds => 8 < ds.length
  | _ => false

@[simp] theorem Item.overlong_plain (c : UInt8) : (Item.plain c).overlong = false := rfl

@[simp] theorem Item.overlong_simple (c : UInt8) : (Item.simple c).overlong = false := rfl

/-- What is stored of an item. "\\" and the byte 0xff is taken for a newline
that is escaped. -/
def Item.kept : Item → List UInt8
  | .simple 0xff => []
  | it => it.decode

/-- A scanner whose buffer has room for the NUL, and that stores a character
below 128 as one byte. -/
structure Scanner.Fits (sc : Scanner) : Prop where
  room : maxStrLen < sc.bufSize
  hexChar : ∀ n < 128, sc.hexChar n = [UInt8.ofNat n]

theorem lxScanner_fits : lxScanner.Fits := ⟨Nat.lt_succ_self _, fun _ _ => rfl⟩

theorem tmplScanner_fits {wctomb : Nat → Option (List UInt8)}
    (hwctomb : ∀ n < 128, wctomb n = some [UInt8.ofNat n]) : (tmplScanner wctomb).Fits := by
  refine ⟨by show maxStrLen < maxStrLen + 10; omega, fun n hn => ?_⟩
  simp [tmplScanner, hwctomb n hn]

theorem byte_eq_iff (c d : UInt8) : (c.toNat : Int) = d.toNat ↔ c = d := by
  rw [Nat.cast_inj, UInt8.toNat_inj]

set_option maxRecDepth 20000

theorem lxGetCharEscape_eq (c : UInt8) : lxGetCharEscape c = -1 ↔ c = 0x0a ∨ c = 0xff := by
  have hall : ∀ n : Fin 256, lxGetCharEscape (UInt8.ofNat n) = -1 ↔
      UInt8.ofNat n = 0x0a ∨ UInt8.ofNat n = 0xff := by decide
  simpa using hall ⟨c.toNat, c.toNat_lt⟩

theorem ofInt_lxGetCharEscape {c : UInt8} (hc : c ≠ 0x0a) :
    UInt8.ofInt (lxGetCharEscape c) = (charEscapes.lookup c).getD c := by
  have hall : ∀ n : Fin 256, UInt8.ofNat n ≠ 0x0a →
      UInt8.ofInt (lxGetCharEscape (UInt8.ofNat n)) = (charEscapes.lookup (UInt8.ofNat n)).getD (UInt8.ofNat n) := by
    decide
  simpa [hc] using hall ⟨c.toNat, c.toNat_lt⟩

variable {sc : Scanner} {chars rest strbuf : List UInt8} {it : Item} {lineNumber : Nat}

def Stores (sc : Scanner) (turn : Reading ⊕ (Scanned × Nat)) (strbuf rest : List UInt8) (it : Item) : Prop :=
  ∃ l, if it.overlong = true then turn = .inr (.outside, l)
    else turn = sc.store rest strbuf it.kept l ∨ turn = sc.store (putBack rest) strbuf it.kept l

theorem Scanner.Fits.escape_item (h : sc.Fits) {c : UInt8} (hnext : nextEscape c chars = .item it rest)
    (hhex : ∀ ds, it = .hex ds → rowValue 16 ds < 128) :
    Stores sc (sc.escape true (c :: chars) strbuf lineNumber) strbuf rest it := by
  have hzero : (c.toNat : Int) = 0 ↔ c = 0 := byte_eq_iff c 0
  have hx : (c.toNat : Int) = 0x78 ↔ c = 0x78 := byte_eq_iff c 0x78
  simp only [nextEscape] at hnext
  simp only [Scanner.escape, input, hzero, hx, isOctal_byte, ofInt_byte]
  split at hnext
  · simp at hnext
  rename_i hc
  rw [if_neg hc]
  split at hnext
  · rename_i hoct
    obtain ⟨rfl, rfl⟩ := Front.item.inj hnext
    rw [if_pos hoct, collectOctalDigits_eq]
    refine ⟨lineNumber, ?_⟩
    by_cases hmore : 2 < (chars.takeWhile isOctDigit).length
    · simp [Item.overlong, hmore]
    · have htake : (chars.takeWhile isOctDigit).take 2 = chars.takeWhile isOctDigit :=
        List.take_of_length_le (by omega)
      have hdigits : ∀ d ∈ c :: chars.takeWhile isOctDigit, isOctDigit d = true := by
        intro d hd
        rcases List.mem_cons.1 hd with rfl | hd
        · exact hoct
        · exact List.mem_takeWhile_imp hd
      have hvalue := lxGetOctalEscape_eq hdigits (by rw [List.length_cons]; omega)
      have hdrop : chars.drop (chars.takeWhile isOctDigit).length = chars.dropWhile isOctDigit := by
        have hsplit : chars = chars.takeWhile isOctDigit ++ chars.dropWhile isOctDigit :=
          List.takeWhile_append_dropWhile.symm
        exact (congrArg (List.drop _) hsplit).trans List.drop_left
      rw [if_neg hmore, htake, hdrop, if_neg (by simpa [Item.overlong] using hmore)]
      right
      simp only [hvalue, Item.kept, Item.decode]
  rename_i hoct
  rw [if_neg hoct]
  split at hnext
  · rename_i hdigits
    obtain ⟨rfl, rfl⟩ := Front.item.inj hnext
    rw [if_pos hdigits.1, collectHexDigits_eq]
    refine ⟨lineNumber, ?_⟩
    by_cases hmore : 8 < (chars.takeWhile isXDigit).length
    · simp [Item.overlong, hmore]
    · have hall : (chars.takeWhile isXDigit).takeWhile isXDigit = chars.takeWhile isXDigit :=
        List.takeWhile_eq_self_iff.2 fun _ hd => List.mem_takeWhile_imp hd
      have hvalue : lxGetHexEscape (chars.takeWhile isXDigit) = rowValue 16 (chars.takeWhile isXDigit) := by
        rw [lxGetHexEscape, hall]
      have hlen : (chars.takeWhile isXDigit).length ≠ 0 := fun h0 => hdigits.2 (List.length_eq_zero_iff.1 h0)
      rw [if_neg hmore, if_neg (by simpa [Item.overlong] using hmore)]
      right
      simp only [if_neg hlen, hvalue, h.hexChar _ (hhex _ rfl), Item.kept, Item.decode]
  rename_i hdigits
  obtain ⟨rfl, rfl⟩ := Front.item.inj hnext
  by_cases hcx : c = 0x78
  · -- "\\x" without digits
    have hnone : chars.takeWhile isXDigit = [] := by
      by_contra hsome
      exact hdigits ⟨hcx, hsome⟩
    have hrest : chars.dropWhile isXDigit = chars := by
      have hsplit := List.takeWhile_append_dropWhile (p := isXDigit) (l := chars)
      rwa [hnone] at hsplit
    subst hcx
    have hkept : (Item.simple 0x78).kept = [0x78] := by decide
    refine ⟨lineNumber, ?_⟩
    rw [if_pos rfl, collectHexDigits_eq, hnone, hrest, if_neg (by simp), if_neg (by simp), hkept]
    right
    rfl
  · rw [if_neg hcx]
    by_cases hce : lxGetCharEscape c = -1
    · have hkept : (Item.simple c).kept = [] := by
        rcases (lxGetCharEscape_eq c).1 hce with rfl | rfl
        · rfl
        · rfl
      refine ⟨lineNumber + 1, ?_⟩
      rw [if_pos hce, if_neg (by simp), hkept]
      exact .inl rfl
    · have hne : ¬ (c = 0x0a ∨ c = 0xff) := fun hor => hce ((lxGetCharEscape_eq c).2 hor)
      obtain ⟨hnl, hff⟩ := not_or.1 hne
      have hkept : (Item.simple c).kept = [(charEscapes.lookup c).getD c] := by
        have hdecode : (Item.simple c).kept = (Item.simple c).decode := by
          simp [Item.kept, hff]
        rw [hdecode, Item.decode, if_neg hnl]
      refine ⟨lineNumber, ?_⟩
      rw [if_neg hce, if_neg (by simp), ofInt_lxGetCharEscape hnl, hkept]
      exact .inl rfl

theorem Scanner.Fits.step_item (h : sc.Fits) (hnext : nextItem chars = .item it rest)
    (hhex : ∀ ds, it = .hex ds → rowValue 16 ds < 128) :
    Stores sc (sc.step true ⟨chars, strbuf, lineNumber⟩) strbuf rest it := by
  rcases chars with _ | ⟨c, chars⟩
  · simp [nextItem] at hnext
  have hquote : (c.toNat : Int) = 0x22 ↔ c = 0x22 := byte_eq_iff c 0x22
  have hzero : (c.toNat : Int) = 0 ↔ c = 0 := byte_eq_iff c 0
  have hback : (c.toNat : Int) = 0x5c ↔ c = 0x5c := byte_eq_iff c 0x5c
  simp only [nextItem] at hnext
  simp only [Scanner.step, input, if_true, hquote, hzero, hback, ofInt_byte]
  split at hnext
  · simp at hnext
  rename_i hq
  rw [if_neg hq]
  split at hnext
  · simp at hnext
  rename_i h0
  rw [if_neg h0]
  split at hnext
  · rename_i hb
    rw [if_pos hb]
    rcases chars with _ | ⟨c, chars⟩
    · simp at hnext
    · exact h.escape_item hnext hhex
  · rename_i hb
    obtain ⟨rfl, rfl⟩ := Front.item.inj hnext
    refine ⟨if sc.countsNewlines = true ∧ (c.toNat : Int) = 0x0a then lineNumber + 1 else lineNumber, ?_⟩
    rw [if_neg hb, if_neg (by simp)]
    exact .inl rfl

theorem step_ends (hnext : nextItem chars = .ends rest) :
    sc.step true ⟨chars, strbuf, lineNumber⟩ = sc.finish rest strbuf lineNumber := by
  rcases chars with _ | ⟨c, chars⟩
  · simp [nextItem] at hnext
  have hquote : (c.toNat : Int) = 0x22 ↔ c = 0x22 := byte_eq_iff c 0x22
  simp only [nextItem] at hnext
  simp only [Scanner.step, input, if_true, hquote]
  split at hnext
  · rename_i hq
    rw [if_pos hq, (Front.ends.inj hnext)]
  · exfalso
    revert hnext
    simp only [nextEscape]
    repeat' split
    all_goals simp

/-! ## A whole string -/

theorem Scanner.Fits.store_eq (h : sc.Fits) (chars : List UInt8) {bs : List UInt8}
    (hroom : strbuf.length ≤ maxStrLen) (hbs : bs.length ≤ 1) :
    sc.store chars strbuf bs lineNumber =
      if maxStrLen < (strbuf ++ bs).length then .inr (.rejected, lineNumber)
      else .inl ⟨chars, strbuf ++ bs, lineNumber⟩ := by
  have hsize := h.room
  rw [Scanner.store, if_neg (by omega), List.length_append]

theorem Item.kept_length (it : Item) : it.kept.length ≤ 1 := by
  have hdecode : it.decode.length ≤ 1 := by
    cases it with
    | plain c => rfl
    | simple c =>
      simp only [Item.decode]
      split <;> simp
    | octal ds more => rfl
    | hex ds => rfl
  unfold Item.kept
  split
  · simp
  · exact hdecode

/-- At the end of the input the scan goes on until the buffer is full; also
with an `EOF` that was put back. -/
theorem Scanner.Fits.returns_at_end (h : sc.Fits) (hroom : strbuf.length ≤ maxStrLen) (lineNumber : Nat)
    (hend : chars = [] ∨ chars = [0xff]) :
    Returns (sc.step true) ⟨chars, strbuf, lineNumber⟩ (.rejected, lineNumber) := by
  induction hk : maxStrLen - strbuf.length generalizing strbuf chars with
  | zero =>
    have hstep : sc.step true ⟨chars, strbuf, lineNumber⟩ = sc.store [] strbuf [0xff] lineNumber := by
      rcases hend with rfl | rfl <;> simp [Scanner.step, input] <;> rfl
    rw [h.store_eq [] hroom (by simp), if_pos (by simp; omega)] at hstep
    exact returns_of_step hstep
  | succ k ih =>
    have hstep : sc.step true ⟨chars, strbuf, lineNumber⟩ = sc.store [] strbuf [0xff] lineNumber := by
      rcases hend with rfl | rfl <;> simp [Scanner.step, input] <;> rfl
    rw [h.store_eq [] hroom (by simp), if_neg (by simp; omega)] at hstep
    refine (returns_iff_of_next hstep).2 (ih ?_ (.inl rfl) ?_)
    · simp only [List.length_append, List.length_singleton]
      omega
    · simp only [List.length_append, List.length_singleton]
      omega

theorem Scanner.Fits.returns_broken (h : sc.Fits) (hroom : strbuf.length ≤ maxStrLen) (lineNumber : Nat)
    (hnext : nextItem chars = .broken) :
    ∃ l, Returns (sc.step true) ⟨chars, strbuf, lineNumber⟩ (.rejected, l) := by
  rcases chars with _ | ⟨c, chars⟩
  · exact ⟨lineNumber, h.returns_at_end hroom lineNumber (.inl rfl)⟩
  simp only [nextItem] at hnext
  split at hnext
  · simp at hnext
  rename_i hq
  split at hnext
  · rename_i h0
    subst h0
    exact ⟨lineNumber, returns_of_step rfl⟩
  rename_i h0
  split at hnext
  · rename_i hb
    subst hb
    rcases chars with _ | ⟨c, chars⟩
    · -- the backslash escapes `EOF`, which has a newline's value
      have hstep : sc.step true ⟨[0x5c], strbuf, lineNumber⟩ = sc.store [] strbuf [] (lineNumber + 1) := rfl
      rw [h.store_eq [] hroom (by simp), List.append_nil, if_neg (by omega)] at hstep
      exact ⟨_, (returns_iff_of_next hstep).2 (h.returns_at_end hroom _ (.inl rfl))⟩
    · have hc : c = 0 := by
        by_contra hc
        simp only [nextEscape, if_neg hc] at hnext
        split at hnext
        · simp at hnext
        split at hnext
        · simp at hnext
        · simp at hnext
      subst hc
      exact ⟨lineNumber, returns_of_step rfl⟩
  · simp at hnext

theorem length_lt_of_nextItem (hnext : nextItem chars = .item it rest) : rest.length < chars.length := by
  rcases chars with _ | ⟨c, chars⟩
  · simp [nextItem] at hnext
  simp only [nextItem] at hnext
  split at hnext
  · simp at hnext
  split at hnext
  · simp at hnext
  split at hnext
  · rcases chars with _ | ⟨d, chars⟩
    · simp at hnext
    simp only [nextEscape] at hnext
    split at hnext
    · simp at hnext
    split at hnext
    · obtain ⟨-, rfl⟩ := Front.item.inj hnext
      simp only [List.length_drop, List.length_cons]
      omega
    split at hnext
    · obtain ⟨-, rfl⟩ := Front.item.inj hnext
      have hdrop := (List.dropWhile_suffix (p := isXDigit) (l := chars)).length_le
      simp only [List.length_cons]
      omega
    · obtain ⟨-, rfl⟩ := Front.item.inj hnext
      simp only [List.length_cons]
      omega
  · obtain ⟨-, rfl⟩ := Front.item.inj hnext
    simp

def scanned (strbuf : List UInt8) : List Item → Option (List UInt8) → Scanned
  | [], none => .rejected
  | [], some rest => .text (CString.ofBuf strbuf).bytes rest
  | it :: its, rest =>
    if it.overlong then .outside
    else if maxStrLen < (strbuf ++ it.kept).length then .rejected
    else scanned (strbuf ++ it.kept) its rest

/-- The run, by induction on the items that are left. Behind the digits of an
escape at the end of the input there is an `EOF` that was put back. -/
theorem Scanner.Fits.returns_scanned (h : sc.Fits) (n : Nat) (hn : chars.length < n)
    (hroom : strbuf.length ≤ maxStrLen)
    (hhex : ∀ ds, Item.hex ds ∈ (items n chars).1 → rowValue 16 ds < 128) (lineNumber : Nat) :
    ∃ l, Returns (sc.step true) ⟨chars, strbuf, lineNumber⟩ (scanned strbuf (items n chars).1 (items n chars).2, l) := by
  induction n generalizing chars strbuf lineNumber with
  | zero => omega
  | succ n ih =>
    cases hnext : nextItem chars with
    | ends rest =>
      have hstep : sc.step true ⟨chars, strbuf, lineNumber⟩ = sc.finish rest strbuf lineNumber :=
        step_ends hnext
      have hsize := h.room
      rw [Scanner.finish, if_pos (by omega)] at hstep
      simp only [items, hnext, scanned]
      exact ⟨lineNumber, returns_of_step hstep⟩
    | broken =>
      simp only [items, hnext, scanned]
      exact h.returns_broken hroom lineNumber hnext
    | item it rest =>
      have hfirst : (items (n + 1) chars).1 = it :: (items n rest).1 := by
        simp only [items, hnext]
      have hlast : (items (n + 1) chars).2 = (items n rest).2 := by
        simp only [items, hnext]
      rw [hfirst] at hhex
      rw [hfirst, hlast, scanned]
      have hstep : Stores sc (sc.step true ⟨chars, strbuf, lineNumber⟩) strbuf rest it :=
        h.step_item hnext fun ds hds => hhex ds (hds ▸ List.mem_cons_self)
      obtain ⟨l, hstep⟩ := hstep
      by_cases hlong : it.overlong = true
      · rw [if_pos hlong] at hstep ⊢
        exact ⟨l, returns_of_step hstep⟩
      rw [if_neg hlong] at hstep ⊢
      rw [h.store_eq _ hroom it.kept_length, h.store_eq _ hroom it.kept_length] at hstep
      by_cases hfull : maxStrLen < (strbuf ++ it.kept).length
      · rw [if_pos hfull, if_pos hfull, or_self] at hstep
        rw [if_pos hfull]
        exact ⟨l, returns_of_step hstep⟩
      rw [if_neg hfull, if_neg hfull] at hstep
      rw [if_neg hfull]
      have hless : rest.length < n := by
        have hlt := length_lt_of_nextItem hnext
        omega
      have hgo := ih hless (not_lt.1 hfull) (fun ds hds => hhex ds (List.mem_cons_of_mem _ hds))
      rcases hstep with hstep | hstep
      · obtain ⟨l', hgo⟩ := hgo l
        exact ⟨l', (returns_iff_of_next hstep).2 hgo⟩
      by_cases hrest : rest = []
      · subst hrest
        have hnone : items n [] = ([], none) := by
          rcases n with _ | n
          · rfl
          · rfl
        rw [hnone]
        exact ⟨l, (returns_iff_of_next hstep).2 (h.returns_at_end (not_lt.1 hfull) l (.inr rfl))⟩
      · rw [putBack, if_neg hrest] at hstep
        obtain ⟨l', hgo⟩ := hgo l
        exact ⟨l', (returns_iff_of_next hstep).2 hgo⟩

/-! ## When the scanners decode -/

/-- In this literal no escape that is reached has too many digits, and if all
of it fits, no character is NUL and no backslash has 0xff behind it. -/
structure ScansRight (chars : List UInt8) : Prop where
  digits : ∀ pre it post, (literal chars).1 = pre ++ it :: post →
    (pre.flatMap Item.kept).length ≤ maxStrLen → it.overlong = false
  bytes : (literal chars).2.isSome = true → ((literal chars).1.flatMap Item.kept).length ≤ maxStrLen →
    ∀ it ∈ (literal chars).1, it.decode ≠ [0] ∧ it ≠ .simple 0xff

theorem scanned_outside {pre post : List Item} (hlong : it.overlong = true) (rest : Option (List UInt8))
    (hroom : (strbuf ++ pre.flatMap Item.kept).length ≤ maxStrLen) :
    scanned strbuf (pre ++ it :: post) rest = .outside := by
  induction pre generalizing strbuf with
  | nil => simp [scanned, hlong]
  | cons first pre ih =>
    rw [List.flatMap_cons, ← List.append_assoc] at hroom
    have hfirst : ¬ maxStrLen < (strbuf ++ first.kept).length := by
      rw [List.length_append] at hroom
      omega
    rw [List.cons_append, scanned, if_neg hfirst, ih hroom]
    split <;> rfl

/-- Where no escape that is reached has too many digits, all of the items are
stored, or more than fits. -/
theorem scanned_inside {its : List Item} (hroom : strbuf.length ≤ maxStrLen)
    (hdigits : ∀ pre it post, its = pre ++ it :: post →
      (strbuf ++ pre.flatMap Item.kept).length ≤ maxStrLen → it.overlong = false)
    (rest : Option (List UInt8)) :
    scanned strbuf its rest =
      match rest with
      | none => .rejected
      | some rest =>
        if (strbuf ++ its.flatMap Item.kept).length ≤ maxStrLen then
          .text (CString.ofBuf (strbuf ++ its.flatMap Item.kept)).bytes rest
        else .rejected := by
  induction its generalizing strbuf with
  | nil =>
    cases rest with
    | none => rfl
    | some rest => simp [scanned, hroom]
  | cons it its ih =>
    have hfirst := hdigits [] it its rfl (by simpa using hroom)
    rw [scanned, if_neg (by simp [hfirst]), List.flatMap_cons, ← List.append_assoc]
    by_cases hfull : maxStrLen < (strbuf ++ it.kept).length
    · rw [if_pos hfull]
      cases rest with
      | none => rfl
      | some rest =>
        refine (if_neg ?_).symm
        rw [List.length_append]
        omega
    · rw [if_neg hfull]
      refine ih (not_lt.1 hfull) fun pre it' post heq hpre => ?_
      refine hdigits (it :: pre) it' post (by rw [heq, List.cons_append]) ?_
      rwa [List.flatMap_cons, ← List.append_assoc]

theorem Item.kept_sublist (it : Item) : it.kept.Sublist it.decode := by
  unfold Item.kept
  split
  · exact List.nil_sublist _
  · exact List.Sublist.refl _

theorem kept_sublist_decode (its : List Item) : (its.flatMap Item.kept).Sublist (its.flatMap Item.decode) := by
  induction its with
  | nil => exact List.Sublist.refl _
  | cons it its ih => exact it.kept_sublist.append ih

theorem Item.kept_eq_decode_iff (it : Item) : it.kept = it.decode ↔ it ≠ .simple 0xff := by
  constructor
  · intro hkept hff
    subst hff
    revert hkept
    decide
  · intro hff
    unfold Item.kept
    split
    · exact absurd rfl hff
    · rfl

/-- All of the characters are stored if no backslash has 0xff behind it. -/
theorem kept_eq_decode_iff (its : List Item) :
    its.flatMap Item.kept = its.flatMap Item.decode ↔ ∀ it ∈ its, it ≠ .simple 0xff := by
  induction its with
  | nil => simp
  | cons it its ih =>
    rw [List.flatMap_cons, List.flatMap_cons, List.forall_mem_cons, ← it.kept_eq_decode_iff, ← ih]
    constructor
    · intro heq
      have hlen := congrArg List.length heq
      rw [List.length_append, List.length_append] at hlen
      have hit := it.kept_sublist.length_le
      have hits := (kept_sublist_decode its).length_le
      exact ⟨it.kept_sublist.eq_of_length (by omega), (kept_sublist_decode its).eq_of_length (by omega)⟩
    · rintro ⟨hit, hits⟩
      rw [hit, hits]

theorem ofBuf_bytes_eq_iff (b : List UInt8) : (CString.ofBuf b).bytes = b ↔ 0 ∉ b := by
  show b.takeWhile (· != 0) = b ↔ 0 ∉ b
  rw [List.takeWhile_eq_self_iff]
  constructor
  · intro hall hzero
    simpa using hall 0 hzero
  · intro hzero c hc
    have hne : c ≠ 0 := fun h => hzero (h ▸ hc)
    simpa using hne

theorem ofBuf_length_le (b : List UInt8) : (CString.ofBuf b).bytes.length ≤ b.length :=
  (List.takeWhile_sublist _).length_le

theorem zero_mem_decode_iff (its : List Item) : 0 ∈ its.flatMap Item.decode ↔ ∃ it ∈ its, it.decode = [0] := by
  rw [List.mem_flatMap]
  refine exists_congr fun it => and_congr_right fun _ => ?_
  cases it with
  | plain c => simp [Item.decode, eq_comm]
  | simple c =>
    simp only [Item.decode]
    split
    · simp
    · simp [eq_comm]
  | octal ds more => simp [Item.decode, eq_comm]
  | hex ds => simp [Item.decode, eq_comm]

theorem decoded_eq (chars : List UInt8) : decoded chars = match (literal chars).2 with
      | none => .rejected
      | some rest => if ((literal chars).1.flatMap Item.decode).length ≤ maxStrLen then
          .text ((literal chars).1.flatMap Item.decode) rest else .rejected := by
  rw [decoded]
  rcases literal chars with ⟨its, _ | rest⟩ <;> rfl

theorem decoded_ne_outside (chars : List UInt8) : decoded chars ≠ .outside := by
  rw [decoded_eq]
  split
  · simp
  · split <;> simp

/-- What is stored is what the literal says exactly if it scans right. -/
theorem scanned_eq_decoded_iff (chars : List UInt8) :
    scanned [] (literal chars).1 (literal chars).2 = decoded chars ↔ ScansRight chars := by
  by_cases hdigits : ∀ pre it post, (literal chars).1 = pre ++ it :: post →
      (pre.flatMap Item.kept).length ≤ maxStrLen → it.overlong = false
  · have hroom : ([] : List UInt8).length ≤ maxStrLen := Nat.zero_le _
    have hscan := scanned_inside hroom hdigits (literal chars).2
    rw [hscan, List.nil_append]
    rw [decoded_eq]
    have hsub := (kept_sublist_decode (literal chars).1).length_le
    have hcut := ofBuf_length_le ((literal chars).1.flatMap Item.kept)
    cases hrest : (literal chars).2 with
    | none => exact ⟨fun _ => ⟨hdigits, by simp [hrest]⟩, fun _ => rfl⟩
    | some rest =>
      show (if _ then _ else _) = (if _ then _ else _) ↔ _
      by_cases hkept : ((literal chars).1.flatMap Item.kept).length ≤ maxStrLen
      · rw [if_pos hkept]
        constructor
        · intro heq
          have hle : ((literal chars).1.flatMap Item.decode).length ≤ maxStrLen := by
            by_contra hgt
            rw [if_neg hgt] at heq
            exact absurd heq (by simp)
          rw [if_pos hle] at heq
          have htext := (Scanned.text.inj heq).1
          have hlen := congrArg List.length htext
          have hall := (kept_sublist_decode (literal chars).1).eq_of_length (by omega)
          rw [hall, ofBuf_bytes_eq_iff, zero_mem_decode_iff] at htext
          refine ⟨hdigits, fun _ _ it hit => ⟨fun h0 => htext ⟨it, hit, h0⟩, ?_⟩⟩
          exact (kept_eq_decode_iff _).1 hall it hit
        · intro h
          have hbytes := h.bytes (by simp [hrest]) hkept
          have hall := (kept_eq_decode_iff _).2 fun it hit => (hbytes it hit).2
          have hzero : 0 ∉ (literal chars).1.flatMap Item.decode := by
            rw [zero_mem_decode_iff]
            rintro ⟨it, hit, h0⟩
            exact (hbytes it hit).1 h0
          rw [hall] at hkept ⊢
          rw [if_pos hkept, (ofBuf_bytes_eq_iff _).2 hzero]
      · rw [if_neg hkept, if_neg (by omega)]
        exact ⟨fun _ => ⟨hdigits, fun _ hle => absurd hle hkept⟩, fun _ => rfl⟩
  · constructor
    · intro heq
      push Not at hdigits
      obtain ⟨pre, it, post, hits, hpre, hlong⟩ := hdigits
      rw [hits, scanned_outside (by simpa using hlong) _ (by simpa using hpre)] at heq
      exact absurd heq.symm (decoded_ne_outside chars)
    · intro h
      exact absurd h.digits hdigits

theorem Scanner.Fits.decodes_exactly (h : sc.Fits) (hhex : HexAscii chars) :
    Decodes sc.step chars ↔ ScansRight chars := by
  have hroom : ([] : List UInt8).length ≤ maxStrLen := Nat.zero_le _
  have hrun := h.returns_scanned (chars.length + 1) (Nat.lt_succ_self _) hroom hhex
  rw [← scanned_eq_decoded_iff]
  constructor
  · intro hdec
    obtain ⟨l, hl⟩ := hdec 1
    obtain ⟨l', hl'⟩ := hrun 1
    exact (Prod.mk.inj (hl'.unique hl)).1
  · intro heq lineNumber
    obtain ⟨l, hl⟩ := hrun lineNumber
    exact ⟨l, heq ▸ hl⟩

/-- Both scanners decode a literal exactly if no escape that they reach has
more than three octal or eight hex digits, no character is NUL and no backslash
has the byte 0xff behind it. -/
theorem decodes_iff {wctomb : Nat → Option (List UInt8)} (hwctomb : ∀ n < 128, wctomb n = some [UInt8.ofNat n])
    {chars : List UInt8} (hhex : HexAscii chars) :
    (Decodes lxGetString chars ↔ ScansRight chars) ∧ (Decodes (getString wctomb) chars ↔ ScansRight chars) :=
  ⟨lxScanner_fits.decodes_exactly hhex, (tmplScanner_fits hwctomb).decodes_exactly hhex⟩

/-- `x\x41\n"` -/
theorem decodes_iff_xA : (∀ n < 128, (fun n => some [UInt8.ofNat n]) n = some [UInt8.ofNat n]) ∧
    HexAscii [0x78, 0x5c, 0x78, 0x34, 0x31, 0x5c, 0x6e, 0x22] ∧
    (Decodes lxGetString [0x78, 0x5c, 0x78, 0x34, 0x31, 0x5c, 0x6e, 0x22] ↔
      ScansRight [0x78, 0x5c, 0x78, 0x34, 0x31, 0x5c, 0x6e, 0x22]) ∧
    (Decodes (getString fun n => some [UInt8.ofNat n]) [0x78, 0x5c, 0x78, 0x34, 0x31, 0x5c, 0x6e, 0x22] ↔
      ScansRight [0x78, 0x5c, 0x78, 0x34, 0x31, 0x5c, 0x6e, 0x22]) := by
  have hitems : (literal [0x78, 0x5c, 0x78, 0x34, 0x31, 0x5c, 0x6e, 0x22]).1 =
      [.plain 0x78, .hex [0x34, 0x31], .simple 0x6e] := by decide
  have hhex : HexAscii [0x78, 0x5c, 0x78, 0x34, 0x31, 0x5c, 0x6e, 0x22] := by
    intro ds hds
    rw [hitems] at hds
    have heq : ds = [0x34, 0x31] := by simpa using hds
    rw [heq]
    decide
  exact ⟨fun _ _ => rfl, hhex, decodes_iff (fun _ _ => rfl) hhex⟩

/-- `\1012"`. The NUL behind four digits is stored outside of `digits`, and
the "2" would be lost. -/
theorem fourth_digit_outside : HexAscii [0x5c, 0x31, 0x30, 0x31, 0x32, 0x22] ∧
    decoded [0x5c, 0x31, 0x30, 0x31, 0x32, 0x22] = .text [0x41, 0x32] [] ∧
    ¬ Decodes lxGetString [0x5c, 0x31, 0x30, 0x31, 0x32, 0x22] ∧
    ¬ Decodes (getString fun n => some [UInt8.ofNat n]) [0x5c, 0x31, 0x30, 0x31, 0x32, 0x22] := by
  have hitems : (literal [0x5c, 0x31, 0x30, 0x31, 0x32, 0x22]).1 =
      [.octal [0x31, 0x30, 0x31] true, .plain 0x32] := by decide
  have hhex : HexAscii [0x5c, 0x31, 0x30, 0x31, 0x32, 0x22] := by
    intro ds hds
    rw [hitems] at hds
    simp at hds
  have hnot : ¬ ScansRight [0x5c, 0x31, 0x30, 0x31, 0x32, 0x22] := fun h =>
    absurd (h.digits [] _ _ hitems (by decide)) (by decide)
  refine ⟨hhex, by decide, ?_, ?_⟩
  · exact fun hdec => hnot ((lxScanner_fits.decodes_exactly hhex).1 hdec)
  · exact fun hdec => hnot (((tmplScanner_fits fun _ _ => rfl).decodes_exactly hhex).1 hdec)

end Evlog.Util
