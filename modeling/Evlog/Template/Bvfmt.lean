/-
Evlog.Template.Bvfmt — bitmap formats, as they are written and as they are
kept.

The format `%b/0x40/RESET/bx1/ODD/` lists patterns of bits with a name for
each. `_evlTmplCollectBformat` makes a pair of masks of each pattern, and
what is formatted then is `Util.bitmap`.

A pattern is a hex number, whose bits have to be set, or a row of `0`, `1`
and `x`, the last of which is bit 0. `Pattern.bit` says what is asked of
each bit; a `long` has no bit from 64 on.

It fails for two kinds of formats. A pattern may be longer than a `long`,
and its first characters are shifted out. And a pattern that asks for
nothing, which is allowed as the last one, has no bit that is not already
reported, so its name is never formatted.
-/
import Evlog.Lib.BitPattern
import Evlog.Util.FmtBuf

namespace Evlog.Template

open Evlog.Lib Evlog.Util

/-- What `semanticError` says, with the arguments of the message. -/
inductive BvError where
  /-- The assertion that the format starts with its letter. -/
  | assertion
  /-- "Illegal delimiter for %%%c format: '%c'" -/
  | illegalDelimiter (fmtChar delim : UInt8)
  /-- "%%%c format does not end with '%c' delimiter" -/
  | noEndDelimiter (fmtChar delim : UInt8)
  /-- "%%%c format must have an even number of elements" -/
  | oddElements (fmtChar : UInt8)
  /-- "Missing bitmap in %%b format" -/
  | missingBitmap
  /-- "Bad hex value in %%b format: %s" -/
  | badHex (bitmap : List UInt8)
  /-- "Bad bitmap in %%b format: %s" -/
  | badBitmap (bitmap : List UInt8)
  /-- "Bitmap for %s matches all values but is not last" -/
  | notLast (name : List UInt8)
  /-- "Bitmaps for \"%s\" and \"%s\" are the same" -/
  | same (name name' : List UInt8)
  deriving DecidableEq, Repr

/-! ## `parseBorVformat` -/

def isPunct (b : UInt8) : Bool :=
  (33 ≤ b && b ≤ 47) || (58 ≤ b && b ≤ 64) || (91 ≤ b && b ≤ 96) || (123 ≤ b && b ≤ 126)

/-- `parseBorVformat`: the substrings that end with a delimiter, and what
follows the last of them. -/
def parseBorVformat (s : List UInt8) (bvFmtAlone : Bool) (fmtChar : UInt8) :
    Except BvError (List (List UInt8) × List UInt8) :=
  match s with
  | [] => .error (.illegalDelimiter fmtChar 0)
  | delim :: s =>
    if ¬ isPunct delim then .error (.illegalDelimiter fmtChar delim)
    else
      let list := (s.splitOn delim).dropLast
      let ends := (s.splitOn delim).getLastD []
      if bvFmtAlone ∧ ends ≠ [] then .error (.noEndDelimiter fmtChar delim)
      else if list.length = 0 ∨ list.length % 2 ≠ 0 then .error (.oddElements fmtChar)
      else .ok (list, ends)

/-! ## `_evlTmplCollectBformat` -/

def isBitChar (b : UInt8) : Bool := b == 0x30 || b == 0x31 || b == 0x78 || b == 0x58

/-- `strtoul(b, &ends, 16)` on hex digits. What is too large becomes
`ULONG_MAX`. -/
def strtoul16 (b : List UInt8) : BitVec 64 :=
  .ofNat 64 (min (CString.rowValue 16 b) (2 ^ 64 - 1))

/-- A character of a row of bits: both masks are shifted, and it may have a
bit for one of them. -/
def bitStep (m : BitVec 64 × BitVec 64) (c : UInt8) : BitVec 64 × BitVec 64 :=
  (m.1 <<< 1 ||| (if c == 0x31 then 1 else 0), m.2 <<< 1 ||| (if c == 0x30 then 1 else 0))

/-- The loop over a row of bits: `oneBits` and `zeroBits`. -/
def bitsLoop (b : List UInt8) : BitVec 64 × BitVec 64 := b.foldl bitStep (0, 0)

/-- One bitmap: `oneBits` and `zeroBits`. -/
def readBitmap (bitmap : List UInt8) : Except BvError (BitVec 64 × BitVec 64) :=
  if bitmap = [] then .error .missingBitmap
  else
    match if bitmap.head? = some 0x30 then bitmap.tail else bitmap with
    | [] => .error (.badBitmap bitmap)
    | c :: b =>
      if c = 0x78 ∨ c = 0x58 then
        -- `strspn` allows hex digits only, so `strtoul` has come to the end then
        if b = [] ∨ ¬ b.all CString.isXDigit then .error (.badHex bitmap)
        else .ok (strtoul16 b, 0)
      else if c = 0x62 ∨ c = 0x42 then
        if b = [] ∨ ¬ b.all isBitChar then .error (.badBitmap bitmap) else .ok (bitsLoop b)
      else .error (.badBitmap bitmap)

/-- The loop over the pairs: what is left of the list, and the bitmaps
before. -/
def collectLoop : List (List UInt8) → List Bitmap → Except BvError (List Bitmap)
  | bitmap :: name :: rest, maps => do
    let (oneBits, zeroBits) ← readBitmap bitmap
    if rest ≠ [] ∧ oneBits ||| zeroBits = 0 then .error (.notLast name)
    else
      match maps.find? fun m => decide (m.ones = oneBits ∧ m.zeros = zeroBits) with
      | some m => .error (.same m.name name)
      | none => collectLoop rest (maps ++ [⟨name, oneBits, zeroBits⟩])
  | _, maps => .ok maps

/-- `_evlTmplCollectBformat`: the bitmaps, and what follows the format. -/
def evlTmplCollectBformat (fmt : List UInt8) (bFmtOnly : Bool) :
    Except BvError (List Bitmap × List UInt8) :=
  match fmt with
  | 0x25 :: 0x62 :: s => do
    let (list, ends) ← parseBorVformat s bFmtOnly 0x62
    let bitMaps ← collectLoop list []
    .ok (bitMaps, ends)
  | _ => .error .assertion

/-! ## Patterns -/

/-- A pattern as it is written: the digits, or the row of bits. -/
inductive Pattern where
  | hex (digits : List UInt8)
  | bits (chars : List UInt8)
  deriving DecidableEq, Repr

def Pattern.bit : Pattern → Nat → Option Bool
  | .hex digits, i => if (CString.rowValue 16 digits).testBit i then some true else none
  | .bits chars, i =>
    match chars.reverse[i]? with
    | some c => if c = 0x31 then some true else if c = 0x30 then some false else none
    | none => none

def Pattern.Matches (p : Pattern) (v : BitVec 64) : Prop :=
  ∀ i b, p.bit i = some b → v.getLsbD i = b

def Pattern.Constrains (p : Pattern) (i : Nat) : Prop := i < 64 ∧ p.bit i ≠ none

def Pattern.MatchAll (p : Pattern) : Prop := ∀ v, p.Matches v

/-- The pattern asks for no one beyond the bits of a `long`. -/
def Pattern.WithinLong (p : Pattern) : Prop := ∀ i, 64 ≤ i → p.bit i ≠ some true

/-- The pattern that is written: `0x` or `0b`, or without the `0`, and the
digits. Nothing else is accepted, and stands for a row of no bits here. -/
def writtenPattern (bitmap : List UInt8) : Pattern :=
  match if bitmap.head? = some 0x30 then bitmap.tail else bitmap with
  | c :: b => if c = 0x78 ∨ c = 0x58 then .hex b else .bits b
  | [] => .bits []

def namedPatterns : List (List UInt8) → List (Pattern × List UInt8)
  | bitmap :: name :: rest => (writtenPattern bitmap, name) :: namedPatterns rest
  | _ => []

def formatPatterns (fmt : List UInt8) : List (Pattern × List UInt8) :=
  match parseBorVformat (fmt.drop 2) false 0x62 with
  | .ok (list, _) => namedPatterns list
  | .error _ => []

/-! ## What the masks stand for -/

theorem bitsLoop_eq (b : List UInt8) : bitsLoop b = (shiftIn (· == 0x31) b, shiftIn (· == 0x30) b) := by
  rw [bitsLoop, shiftIn, shiftIn]
  induction b using List.reverseRec with
  | nil => rfl
  | append_singleton b c ih => rw [List.foldl_append, ih, List.foldl_append, List.foldl_append]; rfl

/-- A row of bits, as far as a `long` goes. -/
theorem stand_bits (b : List UInt8) : Stand (Pattern.bits b).bit (bitsLoop b).1 (bitsLoop b).2 := by
  intro i hi
  rw [bitsLoop_eq, getLsbD_shiftIn _ _ hi, getLsbD_shiftIn _ _ hi]
  show _ ∧ _
  rw [Pattern.bit]
  cases b.reverse[i]? with
  | none => simp
  | some c =>
    simp only [Option.any_some, beq_iff_eq]
    by_cases hone : c = 0x31
    · subst hone
      decide
    · by_cases hzero : c = 0x30 <;> simp [hone, hzero]

/-- A hex number that is a `long`. -/
theorem stand_hex {b : List UInt8} (h : (Pattern.hex b).WithinLong) :
    Stand (Pattern.hex b).bit (strtoul16 b) 0 := by
  have hlt : CString.rowValue 16 b < 2 ^ 64 := by
    refine Nat.lt_pow_two_of_testBit _ fun i hi => ?_
    have hbit := h i hi
    rw [Pattern.bit] at hbit
    simpa using hbit
  intro i hi
  rw [strtoul16, Nat.min_eq_left (Nat.le_sub_one_of_lt hlt), Pattern.bit, BitVec.getLsbD_ofNat]
  simp [hi]

def Reads (p : Pattern) (ones zeros : BitVec 64) : Prop :=
  ∃ bitmap, writtenPattern bitmap = p ∧ readBitmap bitmap = .ok (ones, zeros)

variable {ones zeros : BitVec 64}

theorem Reads.cases {p : Pattern} (h : Reads p ones zeros) :
    (∃ b, p = .hex b ∧ ones = strtoul16 b ∧ zeros = 0) ∨
      ∃ b, p = .bits b ∧ ones = (bitsLoop b).1 ∧ zeros = (bitsLoop b).2 := by
  obtain ⟨bitmap, rfl, hread⟩ := h
  rw [readBitmap] at hread
  rw [writtenPattern]
  split at hread
  · cases hread
  · generalize (if bitmap.head? = some 0x30 then bitmap.tail else bitmap) = digits at hread ⊢
    cases digits with
    | nil => cases hread
    | cons c b =>
      simp only at hread ⊢
      split at hread
      · rename_i hx
        split at hread
        · cases hread
        · cases hread
          exact .inl ⟨b, if_pos hx, rfl, rfl⟩
      · rename_i hx
        split at hread
        · split at hread
          · cases hread
          · have hmasks := Except.ok.inj hread
            exact .inr ⟨b, if_neg hx, (congrArg Prod.fst hmasks).symm,
              (congrArg Prod.snd hmasks).symm⟩
        · cases hread

theorem Reads.stand {p : Pattern} (h : Reads p ones zeros) (hlong : p.WithinLong) :
    Stand p.bit ones zeros := by
  rcases h.cases with ⟨b, rfl, rfl, rfl⟩ | ⟨b, rfl, rfl, rfl⟩
  · exact stand_hex hlong
  · exact stand_bits b

theorem Reads.accepts_ones {p : Pattern} (h : Reads p ones zeros) : Accepts ones zeros ones := by
  rcases h.cases with ⟨b, -, -, rfl⟩ | ⟨b, -, rfl, rfl⟩
  · exact ⟨BitVec.and_self, BitVec.and_zero⟩
  · rw [(stand_bits b).accepts_iff]
    intro i hi bit hbit
    cases bit with
    | true => exact (stand_bits b i hi).1.2 hbit
    | false =>
      rw [← Bool.not_eq_true, (stand_bits b i hi).1, hbit]
      simp

/-! ## Patterns within a `long` -/

namespace Pattern

variable {p : Pattern}

theorem matches_iff (h : p.WithinLong) {v : BitVec 64} :
    p.Matches v ↔ ∀ i < 64, ∀ b, p.bit i = some b → v.getLsbD i = b := by
  constructor
  · intro hm i _ b hb
    exact hm i b hb
  · intro hm i b hb
    by_cases hi : i < 64
    · exact hm i hi b hb
    · have hfalse : v.getLsbD i = false := BitVec.getLsbD_of_ge v i (Nat.le_of_not_lt hi)
      cases b with
      | false => exact hfalse
      | true => exact absurd hb (h i (Nat.le_of_not_lt hi))

theorem matchAll_iff (h : p.WithinLong) : p.MatchAll ↔ ∀ i < 64, p.bit i = none := by
  constructor
  · intro hall i hi
    cases hb : p.bit i with
    | none => rfl
    | some b =>
      cases b with
      | true =>
        have := hall 0 i true hb
        simp at this
      | false =>
        have := hall (BitVec.allOnes 64) i false hb
        rw [BitVec.getLsbD_allOnes, decide_eq_false_iff_not] at this
        exact absurd hi this
  · intro hnone v
    rw [matches_iff h]
    intro i hi b hb
    rw [hnone i hi] at hb
    cases hb

/-- No value is as a pattern asks that asks for more than a `long` has. -/
theorem not_matches (h : ¬ p.WithinLong) (v : BitVec 64) : ¬ p.Matches v := by
  intro hm
  refine h fun i hi hb => ?_
  have := hm i true hb
  rw [BitVec.getLsbD_of_ge v i hi] at this
  cases this

end Pattern

/-! ## What is collected -/

def BitmapFor (pn : Pattern × List UInt8) (m : Bitmap) : Prop :=
  m.name = pn.2 ∧ Reads pn.1 m.ones m.zeros

theorem collectLoop_ok {list : List (List UInt8)} {maps out : List Bitmap}
    (h : collectLoop list maps = .ok out) :
    ∃ rest, out = maps ++ rest ∧ List.Forall₂ BitmapFor (namedPatterns list) rest := by
  fun_induction collectLoop list maps with
  | case1 bitmap name rest maps ih =>
    cases hread : readBitmap bitmap with
    | error e =>
      rw [hread] at h
      cases h
    | ok masks =>
      obtain ⟨oneBits, zeroBits⟩ := masks
      rw [hread] at h
      simp only [bind, Except.bind] at h
      split at h
      · cases h
      · split at h
        · cases h
        · obtain ⟨out', rfl, hout'⟩ := ih oneBits zeroBits h
          refine ⟨⟨name, oneBits, zeroBits⟩ :: out', by simp, ?_⟩
          exact .cons ⟨rfl, bitmap, rfl, hread⟩ hout'
  | case2 list maps hnot =>
    have hnil : namedPatterns list = [] := by
      rcases list with - | ⟨bitmap, - | ⟨name, rest⟩⟩
      · rfl
      · rfl
      · exact (hnot bitmap name rest rfl).elim
    rw [hnil]
    exact ⟨[], by simpa using (Except.ok.inj h).symm, .nil⟩

/-- Where a format has to end there, nothing else is different. -/
theorem parseBorVformat_alone {s ends : List UInt8} {bvFmtAlone : Bool} {fmtChar : UInt8}
    {list : List (List UInt8)} (h : parseBorVformat s bvFmtAlone fmtChar = .ok (list, ends)) :
    parseBorVformat s false fmtChar = .ok (list, ends) := by
  cases s with
  | nil => cases h
  | cons delim s =>
    simp only [parseBorVformat] at h ⊢
    split at h
    · cases h
    · split at h
      · cases h
      · simpa [*] using h

theorem collectBformat_ok {fmt ends : List UInt8} {bFmtOnly : Bool} {maps : List Bitmap}
    (h : evlTmplCollectBformat fmt bFmtOnly = .ok (maps, ends)) :
    List.Forall₂ BitmapFor (formatPatterns fmt) maps := by
  rw [evlTmplCollectBformat.eq_def] at h
  split at h
  · rename_i s
    cases hparse : parseBorVformat s bFmtOnly 0x62 with
    | error e =>
      rw [hparse] at h
      cases h
    | ok parsed =>
      rw [hparse] at h
      simp only [bind, Except.bind] at h
      split at h
      · cases h
      · rename_i bitMaps hloop
        cases h
        obtain ⟨rest, hrest, hcollected⟩ := collectLoop_ok hloop
        have hlist : formatPatterns (0x25 :: 0x62 :: s) = namedPatterns parsed.1 := by
          rw [formatPatterns, List.drop_succ_cons, List.drop_succ_cons, List.drop_zero,
            parseBorVformat_alone hparse]
        rw [hlist, hrest, List.nil_append]
        exact hcollected
  · cases h

/-! ## What is formatted -/

/-- The calls that format names: the first behind a parenthesis, the others
behind a bar. -/
def nameCalls : Bool → List (List UInt8) → List Outcome
  | first, [] => if first then [] else [.ofBytes [41]]
  | first, name :: names =>
    .ofBytes [if first then 40 else 124] :: .ofBytes name :: nameCalls false names

/-- The loop formats the names of those that are not reported yet. -/
theorem bitmapLoop_eq {ι : Type} (f : ι → Bitmap) (v : BitVec 64) (l : List ι) (bar : BitVec 64) :
    bitmapLoop v (l.map f) bar = nameCalls (bar = 0)
      ((unreported (fun a => decide (Accepts (f a).ones (f a).zeros v))
        (fun a => (f a).ones ||| (f a).zeros) l bar).map fun a => (f a).name) := by
  induction l generalizing bar with
  | nil => simp [bitmapLoop, unreported, nameCalls]
  | cons a l ih =>
    rw [List.map_cons, bitmapLoop, unreported, BitVec.or_assoc]
    split
    · exact ih bar
    · rename_i hnew
      have hbar : bar ||| ((f a).ones ||| (f a).zeros) ≠ 0 := by
        intro hzero
        have hold := BitVec.or_eq_zero_iff.1 hzero
        exact hnew (by rw [hold.1, hold.2]; rfl)
      by_cases hacc : Accepts (f a).ones (f a).zeros v
      · have hmasks : v &&& (f a).ones = (f a).ones ∧ v &&& (f a).zeros = 0 := hacc
        have hfirst : decide (bar ||| ((f a).ones ||| (f a).zeros) = 0) = false :=
          decide_eq_false hbar
        rw [if_pos hmasks, if_pos (decide_eq_true hacc), ih, hfirst, List.map_cons, nameCalls]
        simp
      · have hmasks : ¬ (v &&& (f a).ones = (f a).ones ∧ v &&& (f a).zeros = 0) := hacc
        rw [if_neg hmasks, if_neg (by simpa using hacc)]
        exact ih bar

theorem nameCalls_eq_nil {names : List (List UInt8)} : nameCalls true names = [] ↔ names = [] := by
  cases names <;> simp [nameCalls]

def Kept (pn : Pattern × List UInt8) (m : Bitmap) : Prop :=
  m.name = pn.2 ∧ ∀ v, Accepts m.ones m.zeros v ↔ pn.1.Matches v

/-- What is formatted of a value: the number, and the names of some of the
patterns, in order, with none that the value is not as it asks. They ask
for every bit that such a pattern asks for, and there is one if there is
any such pattern. -/
def Formatted (pats : List (Pattern × List UInt8)) (maps : List Bitmap) (v : BitVec 64) : Prop :=
  ∃ shown, shown.Sublist pats ∧
    Util.bitmap v maps = .ofBytes ([48, 120] ++ hexText v.toNat) :: nameCalls true (shown.map (·.2)) ∧
    (∀ pn ∈ shown, pn.1.Matches v) ∧
    (∀ pn ∈ pats, pn.1.Matches v → ∀ i, pn.1.Constrains i → ∃ qn ∈ shown, qn.1.Constrains i) ∧
    ((∃ pn ∈ pats, pn.1.Matches v) → shown ≠ [])

abbrev Entry := (Pattern × List UInt8) × Bitmap

def shownEntries (l : List Entry) (v : BitVec 64) : List Entry :=
  unreported (fun x => decide (Accepts x.2.ones x.2.zeros v)) (fun x => x.2.ones ||| x.2.zeros) l 0

section Shown

variable {l : List Entry} {v : BitVec 64} {x : Entry}

theorem mem_of_mem_shown (h : x ∈ shownEntries l v) : x ∈ l := (unreported_sublist _ _ l 0).subset h

theorem accepts_of_mem_shown (h : x ∈ shownEntries l v) : Accepts x.2.ones x.2.zeros v := by
  simpa using accept_of_mem_unreported _ _ h

theorem bitmap_eq (hname : ∀ x ∈ l, x.2.name = x.1.2) :
    Util.bitmap v (l.map (·.2)) = .ofBytes ([48, 120] ++ hexText v.toNat) ::
      nameCalls true ((shownEntries l v).map (·.1.2)) := by
  have hnames : (shownEntries l v).map (·.2.name) = (shownEntries l v).map (·.1.2) :=
    List.map_congr_left fun x hx => hname x (mem_of_mem_shown hx)
  rw [Util.bitmap, bitmapLoop_eq, ← hnames]
  rfl

/-- The entry of a pattern within a `long` has a bit just when the pattern
does not match everything. -/
theorem care_eq_zero (hlong : x.1.1.WithinLong) (hreads : Reads x.1.1 x.2.ones x.2.zeros) :
    x.2.ones ||| x.2.zeros = 0 ↔ x.1.1.MatchAll := by
  rw [(hreads.stand hlong).or_eq_zero, Pattern.matchAll_iff hlong]

theorem kept_of_withinLong (hlong : x.1.1.WithinLong) (h : BitmapFor x.1 x.2) : Kept x.1 x.2 :=
  ⟨h.1, fun v => by rw [(h.2.stand hlong).accepts_iff, Pattern.matches_iff hlong]⟩

/-- An entry accepts some value, so it is kept only if some value is as the
pattern asks. -/
theorem withinLong_of_kept (h : BitmapFor x.1 x.2) (hkept : Kept x.1 x.2) : x.1.1.WithinLong := by
  by_contra hlong
  exact Pattern.not_matches hlong x.2.ones ((hkept.2 _).1 h.2.accepts_ones)

/-- Something is formatted where a pattern that does not match everything
matches. -/
theorem shown_ne_nil (hx : x ∈ l) (hlong : x.1.1.WithinLong) (h : BitmapFor x.1 x.2)
    (hmatch : x.1.1.Matches v) (hnot : ¬ x.1.1.MatchAll) : shownEntries l v ≠ [] := by
  refine unreported_ne_nil _ _ hx ?_ fun hzero => hnot ((care_eq_zero hlong h.2).1 hzero)
  exact decide_eq_true (((kept_of_withinLong hlong h).2 v).2 hmatch)

/-- Every bit that is asked for is asked for by a pattern whose name is
formatted. -/
theorem shown_constrains (hlong : ∀ y ∈ l, y.1.1.WithinLong) (hall : ∀ y ∈ l, BitmapFor y.1 y.2)
    (hx : x ∈ l) (hmatch : x.1.1.Matches v) {i : Nat} (hi : x.1.1.Constrains i) :
    ∃ y ∈ shownEntries l v, y.1.1.Constrains i := by
  have hstand : ∀ y ∈ l, Stand y.1.1.bit y.2.ones y.2.zeros :=
    fun y hy => (hall y hy).2.stand (hlong y hy)
  have hacc := ((kept_of_withinLong (hlong x hx) (hall x hx)).2 v).2 hmatch
  have hbit := ((hstand x hx).getLsbD_or hi.1).2 hi.2
  rcases @cover _ Entry (fun y => decide (Accepts y.2.ones y.2.zeros v))
    (fun y => y.2.ones ||| y.2.zeros) l 0 x hx (decide_eq_true hacc) i hbit
    with hbar | ⟨y, hy, hyi⟩
  · simp at hbar
  · exact ⟨y, hy, hi.1, ((hstand y (mem_of_mem_shown hy)).getLsbD_or hi.1).1 hyi⟩

end Shown

/-- The masks accept what the patterns of the format ask for, and values
are formatted accordingly, just when no pattern asks for a one that a
`long` does not have, and a pattern that matches everything has another
beside it for every value. -/
theorem collectBformat_iff {fmt ends : List UInt8} {bFmtOnly : Bool} {maps : List Bitmap}
    (h : evlTmplCollectBformat fmt bFmtOnly = .ok (maps, ends)) :
    List.Forall₂ Kept (formatPatterns fmt) maps ∧ (∀ v, Formatted (formatPatterns fmt) maps v) ↔
      (∀ pn ∈ formatPatterns fmt, pn.1.WithinLong) ∧
        ∀ pn ∈ formatPatterns fmt, pn.1.MatchAll →
          ∀ v, ∃ qn ∈ formatPatterns fmt, ¬ qn.1.MatchAll ∧ qn.1.Matches v := by
  have hcollected := collectBformat_ok h
  generalize formatPatterns fmt = pats at hcollected ⊢
  obtain ⟨hlen, hzip⟩ := List.forall₂_iff_zip.1 hcollected
  obtain ⟨l, rfl, rfl⟩ : ∃ l : List Entry, l.map (·.1) = pats ∧ l.map (·.2) = maps :=
    ⟨pats.zip maps, List.map_fst_zip (Nat.le_of_eq hlen), List.map_snd_zip (Nat.le_of_eq hlen.symm)⟩
  simp only [List.forall₂_map_left_iff, List.forall₂_map_right_iff, List.forall₂_same] at hcollected ⊢
  have hcalls := fun v => bitmap_eq (l := l) (v := v) fun x hx => (hcollected x hx).1
  constructor
  · rintro ⟨hkept, hfmt⟩
    have hlong : ∀ x ∈ l, x.1.1.WithinLong :=
      fun x hx => withinLong_of_kept (hcollected x hx) (hkept x hx)
    refine ⟨List.forall_mem_map.2 hlong, List.forall_mem_map.2 fun x hx hmatchAll v => ?_⟩
    obtain ⟨shown, -, hshown, -, -, hne⟩ := hfmt v
    have hsome : shownEntries l v ≠ [] := by
      intro hnil
      rw [hcalls v, hnil] at hshown
      have hnone := nameCalls_eq_nil.1 (List.cons.inj hshown).2.symm
      exact hne ⟨x.1, List.mem_map_of_mem hx, hmatchAll v⟩ (List.map_eq_nil_iff.1 hnone)
    obtain ⟨y, hy⟩ := List.exists_mem_of_ne_nil _ hsome
    have hyl := mem_of_mem_shown hy
    refine ⟨y.1, List.mem_map_of_mem hyl, ?_, ((hkept y hyl).2 v).1 (accepts_of_mem_shown hy)⟩
    rw [← care_eq_zero (hlong y hyl) (hcollected y hyl).2]
    exact care_ne_zero_of_mem _ (fun z : Entry => z.2.ones ||| z.2.zeros) hy
  · rintro ⟨hlong, hother⟩
    have hlong' : ∀ x ∈ l, x.1.1.WithinLong := fun x hx => hlong x.1 (List.mem_map_of_mem hx)
    have hkept : ∀ x ∈ l, Kept x.1 x.2 :=
      fun x hx => kept_of_withinLong (hlong' x hx) (hcollected x hx)
    refine ⟨hkept, fun v => ⟨(shownEntries l v).map (·.1), ?_, ?_, ?_, ?_, ?_⟩⟩
    · exact (unreported_sublist _ _ l 0).map _
    · rw [hcalls v, List.map_map]
      rfl
    · refine List.forall_mem_map.2 fun x hx => ?_
      exact ((hkept x (mem_of_mem_shown hx)).2 v).1 (accepts_of_mem_shown hx)
    · refine List.forall_mem_map.2 fun x hx hmatch i hi => ?_
      obtain ⟨y, hy, hyi⟩ := shown_constrains hlong' hcollected hx hmatch hi
      exact ⟨y.1, List.mem_map_of_mem hy, hyi⟩
    · rintro ⟨pn, hpn, hmatch⟩ hnil
      obtain ⟨qn, hqn, hnot, hqmatch⟩ :
          ∃ qn ∈ l.map (·.1), ¬ qn.1.MatchAll ∧ qn.1.Matches v := by
        by_cases hmatchAll : pn.1.MatchAll
        · exact hother pn hpn hmatchAll v
        · exact ⟨pn, hpn, hmatchAll, hmatch⟩
      obtain ⟨x, hx, rfl⟩ := List.mem_map.1 hqn
      exact shown_ne_nil hx (hlong' x hx) (hcollected x hx) hqmatch hnot (List.map_eq_nil_iff.1 hnil)

/-- `%b/0x40/a/0x20/b/`. -/
def twoBitsFmt : List UInt8 :=
  [0x25, 0x62, 0x2f, 0x30, 0x78, 0x34, 0x30, 0x2f, 0x61, 0x2f, 0x30, 0x78, 0x32, 0x30, 0x2f, 0x62, 0x2f]

def twoBitsMaps : List Bitmap := [⟨[0x61], 0x40, 0⟩, ⟨[0x62], 0x20, 0⟩]

theorem twoBitsFmt_iff : List.Forall₂ Kept (formatPatterns twoBitsFmt) twoBitsMaps ∧
        (∀ v, Formatted (formatPatterns twoBitsFmt) twoBitsMaps v) ↔
      (∀ pn ∈ formatPatterns twoBitsFmt, pn.1.WithinLong) ∧
        ∀ pn ∈ formatPatterns twoBitsFmt, pn.1.MatchAll →
          ∀ v, ∃ qn ∈ formatPatterns twoBitsFmt, ¬ qn.1.MatchAll ∧ qn.1.Matches v :=
  @collectBformat_iff twoBitsFmt [] true _ rfl

/-- `%b/bx/a/`, with a name for every value. -/
def matchAllFmt : List UInt8 := [0x25, 0x62, 0x2f, 0x62, 0x78, 0x2f, 0x61, 0x2f]

/-- The format is accepted, its pattern matches 0, and no name is formatted
for it. -/
theorem matchAllFmt_not_formatted :
    evlTmplCollectBformat matchAllFmt true = .ok ([⟨[0x61], 0, 0⟩], []) ∧
      (∃ pn ∈ formatPatterns matchAllFmt, pn.1.Matches 0) ∧
      ¬ Formatted (formatPatterns matchAllFmt) [⟨[0x61], 0, 0⟩] 0 := by
  have hpats : formatPatterns matchAllFmt = [(.bits [0x78], [0x61])] := rfl
  have hmatch : (Pattern.bits [0x78]).Matches 0 := by
    intro i b hb
    cases i with
    | zero => cases hb
    | succ i => cases hb
  refine ⟨rfl, ⟨_, by rw [hpats]; exact List.mem_singleton_self _, hmatch⟩, ?_⟩
  rintro ⟨shown, -, hcalls, -, -, hne⟩
  have hnone : shown.map (·.2) = [] := nameCalls_eq_nil.1 (List.cons.inj hcalls).2.symm
  refine hne ⟨_, by rw [hpats]; exact List.mem_singleton_self _, hmatch⟩ (List.map_eq_nil_iff.1 hnone)

end Evlog.Template
