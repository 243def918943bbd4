/-
Evlog.Printf.Grammar — what a conversion may be.

A conversion has flags, none of them twice, a width, a precision, one or two
modifiers at most, and a letter (`Conversion`). `argTable` says which
modifiers go with which letter, and what is to be passed then. Anything else
between a `%` and a letter is malformed, and what is not in the table is not
supported.

`_evlParseFmtConvSpec` takes every conversion as it is
(`evlParseFmtConvSpec_text`), and what comes behind does not change that
(`evlParseFmtConvSpec_specOf`).
-/
import Evlog.Printf.Items

namespace Evlog.Printf

open Evlog.Lib
open Evlog.Template (BaseType)

/-! ## Conversions -/

/-- A width: a number, or nothing. A zero in front of it is a flag. -/
def IsWidth (s : List UInt8) : Prop := (∀ b ∈ s, CString.isDigit b = true) ∧ s.head? ≠ some 0x30

/-- A precision: nothing, or a period with a number, that may be missing
behind a width. -/
def IsPrecision (width s : List UInt8) : Prop :=
  s = [] ∨ ∃ digits, s = 0x2e :: digits ∧ (∀ b ∈ digits, CString.isDigit b = true) ∧
    (width ≠ [] ∨ digits ≠ [])

/-- A conversion, without its `%`. -/
structure Conversion where
  flags : List UInt8
  width : List UInt8
  precision : List UInt8
  modifier : List UInt8
  letter : UInt8
  nodup : flags.Nodup
  isFlag : ∀ b ∈ flags, b ∈ flagChars
  isWidth : IsWidth width
  isPrecision : IsPrecision width precision
  isModifier : ∀ b ∈ modifier, b ∈ modifierChars
  atMostTwo : modifier.length ≤ 2
  isLetter : isConvLetter letter = true

def Conversion.tail (c : Conversion) : List UInt8 :=
  c.width ++ (c.precision ++ (c.modifier ++ [c.letter]))

def Conversion.text (c : Conversion) : List UInt8 := c.flags ++ c.tail

/-- The type of an argument as it is passed, up to its sign. -/
inductive CType where
  | int
  | wint
  | long
  | longlong
  | double
  | ldouble
  | string
  | wstring
  | pointer
  deriving DecidableEq, Repr

/-- The types for integers: `hh`, `h` and nothing, `l`, `ll` and `L`, `z`,
`Z`, `j`, `t`. -/
def intArgs : List (List UInt8 × CType) :=
  [([], .int), ([0x68], .int), ([0x68, 0x68], .int), ([0x6c], .long), ([0x6c, 0x6c], .longlong),
    ([0x4c], .longlong), ([0x7a], .long), ([0x5a], .long), ([0x6a], .long), ([0x74], .long)]

/-- Letters with the modifiers that they may have: `c`, `diouxX`, `aAeEfFgG`,
`s`, `p`, `C`, `S`. -/
def argTable : List (List UInt8 × List (List UInt8 × CType)) :=
  [([0x63], [([], .int), ([0x6c], .wint)]),
    ([0x64, 0x69, 0x6f, 0x75, 0x78, 0x58], intArgs),
    ([0x61, 0x41, 0x65, 0x45, 0x66, 0x46, 0x67, 0x47], [([], .double), ([0x4c], .ldouble)]),
    ([0x73], [([], .string), ([0x6c], .wstring)]),
    ([0x70], [([], .pointer)]),
    ([0x43], [([], .wint)]),
    ([0x53], [([], .wstring)])]

def argType (modifier : List UInt8) (letter : UInt8) : Option CType :=
  (argTable.find? fun row => row.1.contains letter).bind fun row => row.2.lookup modifier

def Takes (spec : List UInt8) (type : CType) : Prop :=
  ∃ c : Conversion, c.text = spec ∧ argType c.modifier c.letter = some type

/-- There is a `%` at the end of the format, or a conversion that is malformed
or not supported. -/
def Malformed (format : List UInt8) : Prop :=
  ∃ item ∈ items format, item = .lone ∨ ∃ spec, item = .conv spec ∧ ∀ type, ¬Takes spec type

/-! ## Numbers -/

variable {s f c : List UInt8}

theorem strtoul10_of_plain (h : ∀ b ∈ s.head?, isNumberChar b = false ∨ b = 0x2e) :
    strtoul10 s = (0, s) := by
  cases s with
  | nil => rfl
  | cons b s =>
    have hb : CString.isSpace b = false ∧ CString.isDigit b = false ∧ b ≠ 0x2d ∧ b ≠ 0x2b := by
      rcases h b rfl with hplain | rfl
      · simp only [isNumberChar, Bool.or_eq_false_iff, beq_eq_false_iff_ne] at hplain
        obtain ⟨⟨⟨⟨hspace, hdigit⟩, hminus⟩, hplus⟩, -⟩ := hplain
        exact ⟨hspace, hdigit, hminus, hplus⟩
      · decide
    obtain ⟨hspace, hdigit, hminus, hplus⟩ := hb
    rw [strtoul10, List.dropWhile_cons_of_neg (by simp [hspace]), CString.sign_of_plain hminus hplus]
    simp [hdigit]

theorem le_digitsValue (n : Nat) (ds : List UInt8) : n ≤ CString.digitsValue n ds := by
  induction ds generalizing n with
  | nil => exact le_rfl
  | cons d ds ih => exact le_trans (by omega) (ih (10 * n + (d.toNat - 48)))

theorem strtoul10_digits {ds rest : List UInt8} (hne : ds ≠ []) (hds : ∀ b ∈ ds, CString.isDigit b = true)
    (hrest : ∀ b ∈ rest.head?, CString.isDigit b = false) :
    ∃ v, strtoul10 (ds ++ rest) = (v, rest) ∧ (ds.head? ≠ some 0x30 → v ≠ 0) := by
  have htake := CString.takeWhile_digits hds hrest
  obtain ⟨d, ds, rfl⟩ := List.exists_cons_of_ne_nil hne
  have hdigit := hds d List.mem_cons_self
  obtain ⟨hspace, hminus, hplus⟩ := CString.plain_of_isDigit hdigit
  have hcode : strtoul10 (d :: ds ++ rest) =
      (if CString.digitsValue 0 (d :: ds) < 2 ^ 64 then UInt64.ofNat (CString.digitsValue 0 (d :: ds))
        else 0xffffffffffffffff, rest) := by
    rw [List.cons_append] at htake ⊢
    rw [strtoul10, List.dropWhile_cons_of_neg (by simp [hspace]), CString.sign_of_plain hminus hplus]
    dsimp only
    rw [htake, if_neg (List.cons_ne_nil _ _), List.length_cons, List.drop_succ_cons, List.drop_left]
    rfl
  refine ⟨_, hcode, fun hhead => ?_⟩
  have hpos : 0 < CString.digitsValue 0 (d :: ds) := by
    refine lt_of_lt_of_le ?_ (le_digitsValue (10 * 0 + (d.toNat - 48)) ds)
    have hd : d.toNat ≠ 48 := fun h => hhead (congrArg some (UInt8.toNat_inj.1 h))
    simp only [CString.isDigit, Bool.and_eq_true, decide_eq_true_eq, UInt8.le_iff_toNat_le] at hdigit
    have hle : 48 ≤ d.toNat := hdigit.1
    omega
  split
  · next hlt =>
    intro hzero
    have hval := UInt64.toNat_ofNat_of_lt' hlt
    rw [hzero] at hval
    exact absurd hval.symm (by simpa using hpos.ne')
  · decide

theorem scanNumbers_of_plain {width : UInt64} (h : strtoul10 f = (width, c))
    (hc : c.head? ≠ some 0x2e) : scanNumbers f = some (width, 0, c) := by
  rw [scanNumbers, h]
  dsimp only
  split
  · exact absurd rfl hc
  · rfl

theorem scanNumbers_of_period {f' : List UInt8} {width precision : UInt64}
    (h : strtoul10 f = (width, 0x2e :: f')) (h' : strtoul10 f' = (precision, c))
    (hc : ¬(width = 0 ∧ c = f')) : scanNumbers f = some (width, precision, c) := by
  rw [scanNumbers, h]
  dsimp only
  split
  · next f'' heq =>
    obtain rfl := (List.cons.inj heq).2
    rw [h']
    dsimp only
    rw [if_neg hc]
  · next hother => exact absurd rfl (hother f')

theorem not_number_of_modifier {b : UInt8} (h : b ∈ modifierChars) : isNumberChar b = false := by
  simp only [modifierChars, List.mem_cons, List.not_mem_nil, or_false] at h
  rcases h with rfl | rfl | rfl | rfl | rfl | rfl | rfl <;> decide

theorem not_number_of_convLetter {b : UInt8} (h : isConvLetter b = true) : isNumberChar b = false := by
  by_contra hno
  rw [(not_convLetter_of_number (Bool.not_eq_false _ ▸ hno)).1] at h
  cases h

theorem isNumberChar_of_isDigit {b : UInt8} (h : CString.isDigit b = true) : isNumberChar b = true := by
  simp [isNumberChar, h]

/-! ## A conversion is accepted -/

/-- What is behind the numbers starts with a modifier or with the letter. -/
theorem Conversion.head_modifier (c : Conversion) (rest : List UInt8) :
    ∃ b l, c.modifier ++ c.letter :: rest = b :: l ∧ isNumberChar b = false ∧ b ∉ flagChars := by
  rcases hmods : c.modifier with _ | ⟨b, mods⟩
  · refine ⟨_, _, rfl, not_number_of_convLetter c.isLetter, fun hflag => ?_⟩
    exact absurd c.isLetter (by rw [not_convLetter_of_flag hflag]; decide)
  · have hb : b ∈ modifierChars := c.isModifier b (by rw [hmods]; exact List.mem_cons_self)
    refine ⟨_, _, rfl, not_number_of_modifier hb, ?_⟩
    simp only [modifierChars, List.mem_cons, List.not_mem_nil, or_false] at hb
    rcases hb with rfl | rfl | rfl | rfl | rfl | rfl | rfl <;> decide

theorem Conversion.scanNumbers (c : Conversion) (rest : List UInt8) :
    ∃ width precision, Printf.scanNumbers (c.width ++ (c.precision ++ (c.modifier ++ c.letter :: rest)))
      = some (width, precision, c.modifier ++ c.letter :: rest) := by
  obtain ⟨b, l, hbehind, hb, -⟩ := c.head_modifier rest
  rw [hbehind]
  have hperiod : b ≠ 0x2e := by
    rintro rfl
    cases hb
  have hdigit : CString.isDigit b = false := by
    by_contra hd
    rw [isNumberChar_of_isDigit (Bool.not_eq_false _ ▸ hd)] at hb
    cases hb
  have hhead : ∀ a ∈ (b :: l).head?, CString.isDigit a = false := by
    rintro a ⟨⟩
    exact hdigit
  have hplain : strtoul10 (b :: l) = (0, b :: l) := by
    refine strtoul10_of_plain ?_
    rintro a ⟨⟩
    exact .inl hb
  have hne : (b :: l).head? ≠ some 0x2e := fun h => hperiod (Option.some.inj h)
  rcases c.isPrecision with hprec | ⟨digits, hprec, hdigits, hone⟩
  · rw [hprec, List.nil_append]
    by_cases hwidth : c.width = []
    · rw [hwidth, List.nil_append]
      exact ⟨_, _, scanNumbers_of_plain hplain hne⟩
    · obtain ⟨v, hv, -⟩ := strtoul10_digits hwidth c.isWidth.1 hhead
      exact ⟨_, _, scanNumbers_of_plain hv hne⟩
  · rw [hprec, List.cons_append]
    have hwidth : ∃ v, strtoul10 (c.width ++ 0x2e :: (digits ++ b :: l)) = (v, 0x2e :: (digits ++ b :: l)) ∧
        (c.width ≠ [] → v ≠ 0) := by
      by_cases hwidth : c.width = []
      · rw [hwidth, List.nil_append]
        refine ⟨0, strtoul10_of_plain ?_, fun h => absurd rfl h⟩
        rintro a ⟨⟩
        exact .inr rfl
      · obtain ⟨v, hv, hpos⟩ := @strtoul10_digits c.width (0x2e :: (digits ++ b :: l)) hwidth c.isWidth.1 (by
          rintro a ⟨⟩
          decide)
        exact ⟨v, hv, fun _ => hpos c.isWidth.2⟩
    obtain ⟨v, hv, hpos⟩ := hwidth
    by_cases hnone : digits = []
    · subst hnone
      exact ⟨_, _, scanNumbers_of_period hv hplain fun h => hpos (hone.resolve_right fun h => h rfl) h.1⟩
    · obtain ⟨v', hv', -⟩ := strtoul10_digits hnone hdigits hhead
      refine ⟨_, _, scanNumbers_of_period hv hv' fun h => ?_⟩
      have hlen := congrArg List.length h.2
      have hlen' := List.length_pos_iff.2 hnone
      rw [List.length_append] at hlen
      omega

theorem scanFlags_of_flags {flags added l : List UInt8} (hnodup : (flags ++ added).Nodup)
    (hadded : ∀ b ∈ added, b ∈ flagChars) {b : UInt8} (hl : l.head? = some b) (hb : b ∉ flagChars) :
    scanFlags flags (added ++ l) = .ok (flags ++ added, l) := by
  induction added generalizing flags with
  | nil =>
    obtain ⟨l, rfl⟩ := List.head?_eq_some_iff.1 hl
    rw [List.nil_append, List.append_nil, scanFlags, if_neg hb]
  | cons a added ih =>
    have hnot : a ∉ flags := fun ha => List.disjoint_of_nodup_append hnodup ha List.mem_cons_self
    have hassoc : flags ++ a :: added = flags ++ [a] ++ added := by rw [List.append_assoc]; rfl
    rw [hassoc] at hnodup ⊢
    rw [List.cons_append, scanFlags, if_pos (hadded a List.mem_cons_self), if_neg hnot]
    exact ih hnodup fun b hb => hadded b (List.mem_cons_of_mem a hb)

theorem scanModifiers_of_modifiers {mods : List UInt8} (hmods : ∀ b ∈ mods, b ∈ modifierChars)
    {c : UInt8} (hc : c ∉ modifierChars) (rest : List UInt8) :
    scanModifiers (mods ++ c :: rest) = some (mods, c, rest) := by
  induction mods with
  | nil => rw [List.nil_append, scanModifiers, if_neg hc]
  | cons b mods ih =>
    rw [List.cons_append, scanModifiers, if_pos (hmods b List.mem_cons_self),
      ih fun a ha => hmods a (List.mem_cons_of_mem b ha)]
    rfl

/-- A number does not start with a zero, and what is behind the flags not with
a flag. -/
theorem Conversion.head_tail (c : Conversion) (rest : List UInt8) :
    ∃ b, (c.tail ++ rest).head? = some b ∧ b ∉ flagChars := by
  have hflags : ∀ b, CString.isDigit b = true → b ≠ 0x30 → b ∉ flagChars := by
    intro b hb hzero hflag
    simp only [flagChars, List.mem_cons, List.not_mem_nil, or_false] at hflag
    rcases hflag with rfl | rfl | rfl | rfl | rfl | rfl | rfl <;> first | exact hzero rfl | cases hb
  obtain ⟨m, l, hbehind, -, hm⟩ := c.head_modifier rest
  have htail : c.tail ++ rest = c.width ++ (c.precision ++ (c.modifier ++ c.letter :: rest)) := by
    simp [Conversion.tail]
  rw [htail]
  rcases hwidth : c.width with _ | ⟨d, ds⟩
  · rw [List.nil_append]
    rcases c.isPrecision with hprec | ⟨digits, hprec, -, -⟩
    · exact ⟨m, by rw [hprec, List.nil_append, hbehind]; rfl, hm⟩
    · exact ⟨0x2e, by rw [hprec]; rfl, by decide⟩
  · have hd := c.isWidth.1 d (by rw [hwidth]; exact List.mem_cons_self)
    have hzero : d ≠ 0x30 := by
      rintro rfl
      exact c.isWidth.2 (by rw [hwidth]; rfl)
    exact ⟨d, rfl, hflags d hd hzero⟩

/-- A conversion is accepted, and its parts are taken for what they are. -/
theorem evlParseFmtConvSpec_text (c : Conversion) (rest : List UInt8) :
    ∃ pf, evlParseFmtConvSpec (c.text ++ rest) = .ok pf ∧ pf.fmFlags = c.flags ∧
      pf.fmModifier = c.modifier ∧ pf.fmConversion = c.letter ∧ pf.fmArray = c.flags.contains 0x5b := by
  obtain ⟨b, hb, hflag⟩ := c.head_tail rest
  obtain ⟨width, precision, hnumbers⟩ := c.scanNumbers rest
  have hletter := c.isLetter
  rw [isConvLetter, Bool.and_eq_true, Bool.not_eq_true', List.contains_eq_mem, decide_eq_false_iff_not] at hletter
  have htail : c.tail ++ rest = c.width ++ (c.precision ++ (c.modifier ++ c.letter :: rest)) := by
    simp [Conversion.tail]
  have hflags : scanFlags [] (c.text ++ rest) = .ok (c.flags, c.tail ++ rest) := by
    rw [Conversion.text, List.append_assoc]
    exact scanFlags_of_flags c.nodup c.isFlag hb hflag
  rw [evlParseFmtConvSpec, hflags, htail]
  dsimp only
  rw [hnumbers]
  dsimp only
  rw [scanModifiers_of_modifiers c.isModifier hletter.2]
  dsimp only
  rw [if_neg (Nat.not_lt.2 c.atMostTwo), if_neg (by rw [hletter.1]; decide)]
  exact ⟨_, rfl, rfl, rfl, rfl, rfl⟩

/-! ## What is behind does not matter -/

def Ends (s : List UInt8) : Prop := ∃ b ∈ s, isConvLetter b = true

theorem Ends.of_append {s f : List UInt8} (h : Ends (s ++ f)) (hs : ∀ b ∈ s, isConvLetter b = false) :
    Ends f := by
  obtain ⟨b, hb, hletter⟩ := h
  rcases List.mem_append.1 hb with hb | hb
  · rw [hs b hb] at hletter
    cases hletter
  · exact ⟨b, hb, hletter⟩

/-- What is true only of other characters is not true of all. -/
theorem Ends.scan (h : Ends s) (p : UInt8 → Bool) (hp : ∀ b, isConvLetter b = true → p b = false)
    (rest : List UInt8) :
    (s ++ rest).takeWhile p = s.takeWhile p ∧ (s ++ rest).dropWhile p = s.dropWhile p ++ rest ∧
      Ends (s.dropWhile p) := by
  induction s with
  | nil =>
    obtain ⟨b, hb, -⟩ := h
    cases hb
  | cons a s ih =>
    by_cases ha : p a = true
    · have hletter : isConvLetter a = false := by
        by_contra hno
        rw [hp a (Bool.not_eq_false _ ▸ hno)] at ha
        cases ha
      obtain ⟨htake, hdrop, hends⟩ := ih (@Ends.of_append [a] s h fun b hb => List.mem_singleton.1 hb ▸ hletter)
      rw [List.cons_append, List.takeWhile_cons_of_pos ha, List.takeWhile_cons_of_pos ha,
        List.dropWhile_cons_of_pos ha, List.dropWhile_cons_of_pos ha, htake]
      exact ⟨rfl, hdrop, hends⟩
    · rw [List.cons_append, List.takeWhile_cons_of_neg ha, List.takeWhile_cons_of_neg ha,
        List.dropWhile_cons_of_neg ha, List.dropWhile_cons_of_neg ha]
      exact ⟨rfl, rfl, h⟩

theorem scanFlags_append (h : Ends s) (flags rest : List UInt8) :
    scanFlags flags (s ++ rest) = (scanFlags flags s).map fun r => (r.1, r.2 ++ rest) := by
  induction s generalizing flags with
  | nil =>
    obtain ⟨b, hb, -⟩ := h
    cases hb
  | cons a s ih =>
    rw [List.cons_append, scanFlags, scanFlags]
    split
    · next hflag =>
      split
      · rfl
      · exact ih (@Ends.of_append [a] s h fun b hb => List.mem_singleton.1 hb ▸ not_convLetter_of_flag hflag) _
    · rfl

theorem sign_append (h : s ≠ []) (rest : List UInt8) :
    CString.sign (s ++ rest) = ((CString.sign s).1, (CString.sign s).2 ++ rest) := by
  obtain ⟨b, s, rfl⟩ := List.exists_cons_of_ne_nil h
  by_cases hminus : b = 0x2d
  · subst hminus
    rfl
  · by_cases hplus : b = 0x2b
    · subst hplus
      rfl
    · rw [List.cons_append, CString.sign_of_plain hminus hplus, CString.sign_of_plain hminus hplus]
      rfl

theorem strtoul10_append (h : Ends s) (rest : List UInt8) :
    strtoul10 (s ++ rest) = ((strtoul10 s).1, (strtoul10 s).2 ++ rest) ∧ Ends (strtoul10 s).2 := by
  have hnumber : ∀ b, isConvLetter b = true → isNumberChar b = false := fun b => not_number_of_convLetter
  have hspace : ∀ b, isConvLetter b = true → CString.isSpace b = false := fun b hb => by
    have := hnumber b hb
    simp only [isNumberChar, Bool.or_eq_false_iff] at this
    exact this.1.1.1.1
  have hdigit : ∀ b, isConvLetter b = true → CString.isDigit b = false := fun b hb => by
    have := hnumber b hb
    simp only [isNumberChar, Bool.or_eq_false_iff] at this
    exact this.1.1.1.2
  obtain ⟨-, hdrop, hends⟩ := h.scan CString.isSpace hspace rest
  have hne : s.dropWhile CString.isSpace ≠ [] := by
    obtain ⟨b, hb, -⟩ := hends
    exact List.ne_nil_of_mem hb
  obtain ⟨ate, hate, hsigns⟩ := sign_eq (s.dropWhile CString.isSpace)
  have hends' : Ends (CString.sign (s.dropWhile CString.isSpace)).2 := by
    rw [hate] at hends
    refine hends.of_append fun b hb => ?_
    rcases hsigns b hb with rfl | rfl <;> decide
  obtain ⟨htake, -, -⟩ := hends'.scan CString.isDigit hdigit rest
  have hlen := (List.takeWhile_prefix (p := CString.isDigit)
    (l := (CString.sign (s.dropWhile CString.isSpace)).2)).length_le
  constructor
  · unfold strtoul10
    rw [hdrop, sign_append hne]
    dsimp only
    rw [htake]
    split
    · rfl
    · rw [List.drop_append_of_le_length hlen]
  · obtain ⟨ate, heq, hnumbers, -⟩ := strtoul10_eq s
    rw [heq] at h
    exact h.of_append fun b hb => (not_convLetter_of_number (hnumbers b hb).1).1

theorem scanNumbers_append (h : Ends s) (rest : List UInt8) :
    scanNumbers (s ++ rest) = (scanNumbers s).map fun r => (r.1, r.2.1, r.2.2 ++ rest) := by
  obtain ⟨hwidth, hends⟩ := strtoul10_append h rest
  rcases hs : strtoul10 s with ⟨width, c⟩
  rw [hs] at hwidth hends
  obtain ⟨b, hb, -⟩ := hends
  obtain ⟨a, c, rfl⟩ := List.exists_cons_of_ne_nil (List.ne_nil_of_mem hb)
  by_cases ha : a = 0x2e
  · subst ha
    have hends' : Ends c := (strtoul10_append h rest).2.elim fun b hb => by
      rw [hs] at hb
      exact @Ends.of_append [0x2e] c ⟨b, hb⟩ fun a ha => by rw [List.mem_singleton.1 ha]; rfl
    obtain ⟨hprecision, -⟩ := strtoul10_append hends' rest
    rcases hc : strtoul10 c with ⟨precision, c'⟩
    rw [hc] at hprecision
    by_cases hnone : width = 0 ∧ c' = c
    · have hnone' : width = 0 ∧ c' ++ rest = c ++ rest := ⟨hnone.1, by rw [hnone.2]⟩
      unfold scanNumbers
      rw [hs, hwidth]
      simp only [List.cons_append, hc, hprecision, if_pos hnone, if_pos hnone', Option.map_none]
    · have hnone' : ¬(width = 0 ∧ c' ++ rest = c ++ rest) := fun hno =>
        hnone ⟨hno.1, List.append_cancel_right hno.2⟩
      rw [scanNumbers_of_period hs hc hnone, scanNumbers_of_period hwidth hprecision hnone']
      rfl
  · have hhead : ∀ l : List UInt8, (a :: l).head? ≠ some 0x2e := fun l hl => ha (Option.some.inj hl)
    rw [scanNumbers_of_plain hs (hhead c), scanNumbers_of_plain hwidth (hhead (c ++ rest))]
    rfl

theorem scanModifiers_append (h : Ends s) (rest : List UInt8) :
    scanModifiers (s ++ rest) = (scanModifiers s).map fun r => (r.1, r.2.1, r.2.2 ++ rest) := by
  induction s with
  | nil =>
    obtain ⟨b, hb, -⟩ := h
    cases hb
  | cons a s ih =>
    rw [List.cons_append, scanModifiers, scanModifiers]
    split
    · next hmod =>
      rw [ih (@Ends.of_append [a] s h fun b hb => List.mem_singleton.1 hb ▸ (not_convLetter_of_modifier hmod).1),
        Option.map_map, Option.map_map]
      rfl
    · rfl

/-- What becomes of a conversion does not depend on what is behind its
letter. -/
theorem evlParseFmtConvSpec_append (h : Ends s) (rest : List UInt8) :
    evlParseFmtConvSpec (s ++ rest) = evlParseFmtConvSpec s := by
  unfold evlParseFmtConvSpec
  rw [scanFlags_append h]
  cases hflags : scanFlags [] s with
  | overrun => rfl
  | bad => rfl
  | ok r =>
    obtain ⟨flags, f⟩ := r
    obtain ⟨added, rfl, -, hadded⟩ := scanFlags_ok hflags
    have hf : Ends f := h.of_append fun b hb => not_convLetter_of_flag (hadded b hb)
    simp only [Parsed.map]
    rw [scanNumbers_append hf]
    cases hnumbers : scanNumbers f with
    | none => rfl
    | some r =>
      obtain ⟨width, precision, m⟩ := r
      obtain ⟨ate, rfl, hate⟩ := scanNumbers_some hnumbers
      have hm : Ends m := hf.of_append fun b hb => (not_convLetter_of_number (hate b hb)).1
      simp only [Option.map_some]
      rw [scanModifiers_append hm]
      cases hmods : scanModifiers m with
      | none => rfl
      | some r =>
        obtain ⟨mods, c, l⟩ := r
        obtain ⟨rfl, -, -⟩ := scanModifiers_some hmods
        simp only [Option.map_some]
        have hlen : ((added ++ (ate ++ (mods ++ c :: l))) ++ rest).length - (l ++ rest).length
            = (added ++ (ate ++ (mods ++ c :: l))).length - l.length := by
          simp only [List.length_append, List.length_cons]
          omega
        rw [hlen]

theorem specOf_cases (s : List UInt8) : Ends (specOf s) ∨ behindSpec s = [] := by
  rcases hdrop : s.dropWhile fun c => !isConvLetter c with _ | ⟨c, rest⟩
  · exact .inr (by rw [behindSpec, hdrop]; rfl)
  · refine .inl ⟨c, ?_, ?_⟩
    · rw [specOf, hdrop]
      exact List.mem_append_right _ (List.mem_singleton_self c)
    · have hhead := List.head?_dropWhile_not (fun c => !isConvLetter c) s
      rw [hdrop] at hhead
      simpa using hhead

theorem evlParseFmtConvSpec_specOf (s : List UInt8) :
    evlParseFmtConvSpec (specOf s) = evlParseFmtConvSpec s := by
  have happend := specOf_append_behindSpec s
  rcases specOf_cases s with hends | hnil
  · rw [← evlParseFmtConvSpec_append hends (behindSpec s), happend]
  · rw [hnil, List.append_nil] at happend
    rw [happend]

theorem Ends.scanFlags_ne (h : Ends s) (flags : List UInt8) : scanFlags flags s ≠ .overrun := by
  induction s generalizing flags with
  | nil =>
    obtain ⟨b, hb, -⟩ := h
    cases hb
  | cons a s ih =>
    rw [scanFlags]
    split
    · next hflag =>
      split
      · exact fun hno => by cases hno
      · exact ih (@Ends.of_append [a] s h fun b hb => List.mem_singleton.1 hb ▸ not_convLetter_of_flag hflag) _
    · exact fun hno => by cases hno

theorem Ends.scanModifiers_ne (h : Ends s) : scanModifiers s ≠ none := by
  induction s with
  | nil =>
    obtain ⟨b, hb, -⟩ := h
    cases hb
  | cons a s ih =>
    rw [scanModifiers]
    split
    · next hmod =>
      rw [Ne, Option.map_eq_none_iff]
      exact ih (@Ends.of_append [a] s h fun b hb => List.mem_singleton.1 hb ▸ (not_convLetter_of_modifier hmod).1)
    · exact fun hno => by cases hno

/-- The format is read behind its end only where a conversion has no letter. -/
theorem Ends.ne_overrun (h : Ends s) : evlParseFmtConvSpec s ≠ .overrun := by
  unfold evlParseFmtConvSpec
  cases hflags : scanFlags [] s with
  | overrun => exact absurd hflags (h.scanFlags_ne [])
  | bad => exact nofun
  | ok r =>
    obtain ⟨flags, f⟩ := r
    obtain ⟨added, rfl, -, hadded⟩ := scanFlags_ok hflags
    have hf : Ends f := h.of_append fun b hb => not_convLetter_of_flag (hadded b hb)
    dsimp only
    cases hnumbers : scanNumbers f with
    | none => exact nofun
    | some r =>
      obtain ⟨width, precision, m⟩ := r
      obtain ⟨ate, rfl, hate⟩ := scanNumbers_some hnumbers
      have hm : Ends m := hf.of_append fun b hb => (not_convLetter_of_number (hate b hb)).1
      dsimp only
      cases hmods : scanModifiers m with
      | none => exact absurd hmods hm.scanModifiers_ne
      | some r =>
        dsimp only
        split
        · exact nofun
        · split <;> exact nofun

/-! ## Types -/

def ConvType.passedAs : ConvType → Option CType
  | .base .char | .base .uchar | .base .short | .base .ushort | .base .int | .base .uint => some .int
  | .base .long | .base .ulong => some .long
  | .base .longlong | .base .ulonglong => some .longlong
  | .base .float | .base .double => some .double
  | .base .ldouble => some .ldouble
  | .base .string => some .string
  | .base .wchar => some .wint
  | .base .wstring => some .wstring
  | .base .address => some .pointer
  | _ => Option.none

theorem lookup_row {mod k : List UInt8} {t : CType} {row : List (List UInt8 × CType)} :
    ((k, t) :: row).lookup mod = if mod = k then some t else row.lookup mod := by
  rw [List.lookup_cons]
  by_cases h : mod = k
  · rw [if_pos h, beq_iff_eq.2 h]
  · rw [if_neg h, beq_eq_false_iff_ne.2 h]

theorem ConvType.passedAs_ite (P : Prop) [Decidable P] (type type' : ConvType) :
    (if P then type else type').passedAs = if P then type.passedAs else type'.passedAs :=
  apply_ite ConvType.passedAs P type type'

theorem ite_or {α : Type} (P Q : Prop) [Decidable P] [Decidable Q] (a b : α) :
    (if P ∨ Q then a else b) = if P then a else if Q then a else b := by
  by_cases hP : P
  · rw [if_pos (.inl hP), if_pos hP]
  · rw [if_neg hP]
    exact if_congr (or_iff_right hP) rfl rfl

theorem adjustCharType_passedAs (mod : List UInt8) (promote : Bool) :
    (adjustCharType mod promote).passedAs = [([], CType.int), ([0x6c], .wint)].lookup mod := by
  simp only [adjustCharType, lookup_row, List.lookup_nil, ConvType.passedAs_ite]
  cases promote <;> rfl

theorem adjustIntType_passedAs (mod : List UInt8) (promote : Bool) :
    (adjustIntType mod promote).passedAs = intArgs.lookup mod := by
  simp only [adjustIntType, intArgs, lookup_row, List.lookup_nil, ConvType.passedAs_ite, ite_or]
  cases promote <;> rfl

theorem adjustDoubleType_passedAs (mod : List UInt8) :
    (adjustDoubleType mod).passedAs = [([], CType.double), ([0x4c], .ldouble)].lookup mod := by
  simp only [adjustDoubleType, lookup_row, List.lookup_nil, ConvType.passedAs_ite]
  rfl

theorem adjustStringType_passedAs (mod : List UInt8) :
    (adjustStringType mod).passedAs = [([], CType.string), ([0x6c], .wstring)].lookup mod := by
  simp only [adjustStringType, lookup_row, List.lookup_nil, ConvType.passedAs_ite]
  rfl

theorem validateNConversion_passedAs (mod : List UInt8) : (validateNConversion mod).passedAs = none := by
  unfold validateNConversion
  split_ifs <;> rfl

def intLetters : List UInt8 := [0x64, 0x69, 0x6f, 0x75, 0x78, 0x58]

def doubleLetters : List UInt8 := [0x61, 0x41, 0x65, 0x45, 0x66, 0x46, 0x67, 0x47]

theorem evlGetTypeFromConversion_cases (pf : ParsedFormat) (promote : Bool) :
    let c := pf.fmConversion
    let mod := pf.fmModifier
    let type := evlGetTypeFromConversion pf promote true
    (c = 0x63 ∧ type = adjustCharType mod promote) ∨ (c ∈ intLetters ∧ type = adjustIntType mod promote) ∨
      (c ∈ doubleLetters ∧ type = adjustDoubleType mod) ∨ (c = 0x73 ∧ type = adjustStringType mod) ∨
      (c = 0x70 ∧ type = if mod = [] then .base .address else .none) ∨
      (c = 0x43 ∧ type = if mod = [] then .base .wchar else .none) ∨
      (c = 0x53 ∧ type = if mod = [] then .base .wstring else .none) ∨
      (c = 0x6e ∧ type = validateNConversion mod) ∨
      ((∀ row ∈ argTable, c ∉ row.1) ∧ type = .none) := by
  dsimp only
  unfold evlGetTypeFromConversion
  dsimp only
  rw [if_pos rfl]
  generalize pf.fmConversion = c
  by_cases hc : c = 0x63
  · exact .inl ⟨hc, if_pos hc⟩
  rw [if_neg hc]
  by_cases hd : c = 0x64 ∨ c = 0x69
  · exact .inr (.inl ⟨by rcases hd with rfl | rfl <;> decide, if_pos hd⟩)
  rw [if_neg hd]
  by_cases hu : c = 0x6f ∨ c = 0x75 ∨ c = 0x78 ∨ c = 0x58
  · exact .inr (.inl ⟨by rcases hu with rfl | rfl | rfl | rfl <;> decide, if_pos hu⟩)
  rw [if_neg hu]
  by_cases hf : c = 0x61 ∨ c = 0x41 ∨ c = 0x65 ∨ c = 0x45 ∨ c = 0x66 ∨ c = 0x46 ∨ c = 0x67 ∨ c = 0x47
  · exact .inr (.inr (.inl
      ⟨by rcases hf with rfl | rfl | rfl | rfl | rfl | rfl | rfl | rfl <;> decide, if_pos hf⟩))
  rw [if_neg hf]
  by_cases hs : c = 0x73
  · exact .inr (.inr (.inr (.inl ⟨hs, if_pos hs⟩)))
  rw [if_neg hs]
  by_cases hp : c = 0x70
  · exact .inr (.inr (.inr (.inr (.inl ⟨hp, if_pos hp⟩))))
  rw [if_neg hp]
  by_cases hC : c = 0x43
  · exact .inr (.inr (.inr (.inr (.inr (.inl ⟨hC, if_pos hC⟩)))))
  rw [if_neg hC]
  by_cases hS : c = 0x53
  · exact .inr (.inr (.inr (.inr (.inr (.inr (.inl ⟨hS, if_pos hS⟩))))))
  rw [if_neg hS]
  by_cases hn : c = 0x6e
  · exact .inr (.inr (.inr (.inr (.inr (.inr (.inr (.inl ⟨hn, if_pos hn⟩)))))))
  refine .inr (.inr (.inr (.inr (.inr (.inr (.inr (.inr ⟨?_, if_neg hn⟩)))))))
  intro row hrow hmem
  simp only [argTable, List.mem_cons, List.not_mem_nil, or_false] at hrow
  rcases hrow with rfl | rfl | rfl | rfl | rfl | rfl | rfl <;>
    simp only [List.mem_cons, List.not_mem_nil, or_false] at hmem <;> tauto

theorem passedAs_alone (mod : List UInt8) (type : BaseType) (ctype : CType)
    (h : (ConvType.base type).passedAs = some ctype) :
    (if mod = [] then ConvType.base type else .none).passedAs = [([], ctype)].lookup mod := by
  rw [lookup_row]
  split
  · exact h
  · rfl

/-- What is passed for a conversion is what its letter takes. -/
theorem evlGetTypeFromConversion_passedAs (pf : ParsedFormat) (promote : Bool) :
    (evlGetTypeFromConversion pf promote true).passedAs = argType pf.fmModifier pf.fmConversion := by
  rcases evlGetTypeFromConversion_cases pf promote with
    ⟨hc, htype⟩ | ⟨hc, htype⟩ | ⟨hc, htype⟩ | ⟨hc, htype⟩ | ⟨hc, htype⟩ | ⟨hc, htype⟩ | ⟨hc, htype⟩ |
      ⟨hc, htype⟩ | ⟨hc, htype⟩
  all_goals rw [htype]
  · rw [hc]
    exact adjustCharType_passedAs _ promote
  · have hrow : ∀ c ∈ intLetters, ∀ mod, argType mod c = intArgs.lookup mod := by
      intro c hc mod
      simp only [intLetters, List.mem_cons, List.not_mem_nil, or_false] at hc
      rcases hc with rfl | rfl | rfl | rfl | rfl | rfl <;> rfl
    rw [hrow _ hc]
    exact adjustIntType_passedAs _ promote
  · have hrow : ∀ c ∈ doubleLetters, ∀ mod, argType mod c = [([], CType.double), ([0x4c], .ldouble)].lookup mod := by
      intro c hc mod
      simp only [doubleLetters, List.mem_cons, List.not_mem_nil, or_false] at hc
      rcases hc with rfl | rfl | rfl | rfl | rfl | rfl | rfl | rfl <;> rfl
    rw [hrow _ hc]
    exact adjustDoubleType_passedAs _
  · rw [hc]
    exact adjustStringType_passedAs _
  · rw [hc]
    exact passedAs_alone _ .address .pointer rfl
  · rw [hc]
    exact passedAs_alone _ .wchar .wint rfl
  · rw [hc]
    exact passedAs_alone _ .wstring .wstring rfl
  · rw [hc]
    exact validateNConversion_passedAs _
  · have hnone : argTable.find? (fun row => row.1.contains pf.fmConversion) = none := by
      rw [List.find?_eq_none]
      intro row hrow hmem
      exact hc row hrow (List.contains_iff_mem.1 hmem)
    rw [argType, hnone]
    rfl

/-! ## The conversions of a format -/

def specs (format : List UInt8) : List (List UInt8) :=
  (items format).filterMap fun
    | .conv spec => some spec
    | _ => none

/-- Results one after the other: the first that there is none for decides. -/
def Parsed.all {α : Type} : List (Parsed α) → Parsed (List α)
  | [] => .ok []
  | .overrun :: _ => .overrun
  | .bad :: _ => .bad
  | .ok a :: rest => (Parsed.all rest).map (a :: ·)

def parsedSpec (spec : List UInt8) : Parsed (List UInt8 × ParsedFormat) :=
  (evlParseFmtConvSpec spec).map (spec, ·)

def segmentSpecs (segs : List Segment) : List (List UInt8 × ParsedFormat) :=
  segs.filterMap fun
    | .string _ => none
    | .printfConv pf userfmt => some ((userfmt.getD []).tail, pf)

theorem segmentSpecs_strings (s : List UInt8) (segs : List Segment) :
    segmentSpecs (stringSegments s ++ segs) = segmentSpecs segs := by
  unfold stringSegments
  split <;> rfl

theorem parseTurns_specs {n : Nat} {sp : List UInt8} (hn : sp.length ≤ n) :
    (parseTurns true n sp).map segmentSpecs = Parsed.all ((specs sp).map parsedSpec) := by
  induction n generalizing sp with
  | zero =>
    obtain rfl := List.eq_nil_of_length_eq_zero (Nat.le_zero.1 hn)
    rfl
  | succ n ih =>
    by_cases hsp : sp = []
    · subst hsp
      rfl
    · obtain ⟨tail, hitems, hnil, hcons⟩ := collectStringSegment_items sp
      have hlen := length_collectStringSegment sp
      have hspecs : specs sp = tail.filterMap fun
          | .conv spec => some spec
          | _ => none := by
        rw [specs, hitems, List.filterMap_append, List.filterMap_map]
        exact congrArg (· ++ _) (List.filterMap_eq_nil_iff.2 fun _ _ => rfl)
      rw [parseTurns_strings n sp hsp, hspecs]
      rcases hc : (collectStringSegment sp).2 with _ | ⟨b, s⟩
      · have hend : parseTurns true n [] = .ok [] := by cases n <;> rfl
        simp only [collectConversionSegment, hend]
        rcases hnil hc with rfl | rfl <;>
          exact congrArg Parsed.ok (by rw [Option.toList_none, List.append_nil, segmentSpecs_strings]; rfl)
      · rw [hcons (by rw [hc]; exact List.cons_ne_nil b s), hc]
        rw [hc] at hlen
        have hbehind := length_behindSpec_lt (c := b) (s := s)
        rw [List.filterMap_cons]
        change _ = Parsed.all (parsedSpec (specOf (b :: s)) :: (specs (behindSpec (b :: s))).map parsedSpec)
        rw [collectConversionSegment, parsedSpec, evlParseFmtConvSpec_specOf]
        cases hpf : evlParseFmtConvSpec (b :: s) with
        | overrun => rfl
        | bad => rfl
        | ok pf =>
          obtain ⟨htake, hdrop, -, -⟩ := evlParseFmtConvSpec_ok hpf
          simp only [if_true, htake, hdrop, Parsed.map, Parsed.all]
          rw [← ih (by omega)]
          cases parseTurns true n (behindSpec (b :: s)) with
          | overrun => rfl
          | bad => rfl
          | ok list =>
            simp only [Parsed.map, List.append_assoc, segmentSpecs_strings]
            rfl

theorem Parsed.all_ok {α β : Type} {f : β → Parsed α} {bs : List β} {as : List α}
    (h : Parsed.all (bs.map f) = .ok as) : List.Forall₂ (fun b a => f b = .ok a) bs as := by
  induction bs generalizing as with
  | nil =>
    cases h
    exact .nil
  | cons b bs ih =>
    rw [List.map_cons] at h
    cases hb : f b with
    | overrun =>
      rw [hb] at h
      cases h
    | bad =>
      rw [hb] at h
      cases h
    | ok a =>
      rw [hb, Parsed.all] at h
      cases hbs : Parsed.all (bs.map f) with
      | overrun =>
        rw [hbs] at h
        cases h
      | bad =>
        rw [hbs] at h
        cases h
      | ok as' =>
        rw [hbs] at h
        cases h
        exact .cons hb (ih hbs)

theorem Parsed.mem_all {α β : Type} {f : β → Parsed α} {bs : List β} {as : List α}
    (h : Parsed.all (bs.map f) = .ok as) {a : α} (ha : a ∈ as) : ∃ b ∈ bs, f b = .ok a := by
  have hall := Parsed.all_ok h
  clear h
  induction hall with
  | nil => cases ha
  | @cons b a' bs as hb hrest ih =>
    rcases List.mem_cons.1 ha with rfl | ha
    · exact ⟨b, List.mem_cons_self, hb⟩
    · obtain ⟨c, hc, hok⟩ := ih ha
      exact ⟨c, List.mem_cons_of_mem b hc, hok⟩

/-- Only the last conversion of a format can be without a letter. -/
theorem specs_ends (format : List UInt8) : ∀ spec ∈ (specs format).dropLast, Ends spec := by
  have hloop : ∀ (n : Nat) (format : List UInt8), format.length ≤ n →
      ∀ spec ∈ (specs format).dropLast, Ends spec := by
    intro n
    induction n with
    | zero =>
      intro format hn
      obtain rfl := List.eq_nil_of_length_eq_zero (Nat.le_zero.1 hn)
      exact nofun
    | succ n ih =>
      intro format hn
      match format with
      | [] => exact nofun
      | [c] =>
        rw [specs, items_singleton]
        split <;> exact nofun
      | c :: d :: rest =>
        have hbehind := length_behindSpec_lt (c := d) (s := rest)
        simp only [List.length_cons] at hn hbehind
        rw [specs, items_cons]
        split_ifs with hc hd
        · exact ih rest (by omega)
        · change ∀ spec ∈ (specOf (d :: rest) :: specs (behindSpec (d :: rest))).dropLast, Ends spec
          rcases specOf_cases (d :: rest) with hends | hnil
          · intro spec hspec
            rw [List.dropLast_cons_of_ne_nil] at hspec
            · rcases List.mem_cons.1 hspec with rfl | hspec
              · exact hends
              · exact ih _ (by omega) spec hspec
            · intro hnone
              rw [hnone] at hspec
              cases hspec
          · rw [hnil]
            exact nofun
        · exact ih (d :: rest) (by rw [List.length_cons]; omega)
  exact hloop format.length format le_rfl

end Evlog.Printf
