/-
Evlog.Printf.ConvSpecTheorems — the texts that `_evlParseFmtConvSpec` reads
as it should.

It should look at nothing behind the NUL, accept a text just when that
starts with a conversion (`Conversion`), and say how long the conversion
is (`ReadAsIs`). Every conversion is accepted. What goes wrong goes wrong
in three kinds of texts (`Misread`). `strchr` finds the NUL among the
flags and among the modifiers, so a text that ends behind either is read
on behind its end; and `strtoul` goes over blanks and a sign in front of a
number, so that a text is accepted that has them there.
-/
import Evlog.Printf.Grammar

namespace Evlog.Printf

open Evlog.Lib

/-! ## What should be -/

/-- The parse stays in the text, what it accepts starts with a conversion
of the length it says, and what starts with a conversion is accepted. -/
structure ReadAsIs (fmt : List UInt8) : Prop where
  inside : evlParseFmtConvSpec fmt ≠ .overrun
  sound : ∀ pf, evlParseFmtConvSpec fmt = .ok pf →
    ∃ (c : Conversion) (rest : List UInt8), fmt = c.text ++ rest ∧ pf.fmLength = c.text.length
  complete : ∀ (c : Conversion) (rest : List UInt8), fmt = c.text ++ rest →
    ∃ pf, evlParseFmtConvSpec fmt = .ok pf ∧ pf.fmLength = c.text.length

/-- Flags, none of them twice, and what is behind them goes on with
something else. -/
structure Flags (flags behind : List UInt8) : Prop where
  nodup : flags.Nodup
  isFlag : ∀ b ∈ flags, b ∈ flagChars
  stops : ∃ b, behind.head? = some b ∧ b ∉ flagChars

/-- The texts that are not read as they are: flags up to the NUL, modifiers
up to the NUL behind what is read as the numbers, and what would be
accepted but has something else than digits and a period in what is read
as the numbers. -/
inductive Misread (fmt : List UInt8) : Prop
  | flags (hnodup : fmt.Nodup) (hflag : ∀ b ∈ fmt, b ∈ flagChars)
  | modifiers {flags numbers mods : List UInt8} {width precision : UInt64}
      (heq : fmt = flags ++ (numbers ++ mods)) (hflags : Flags flags (numbers ++ mods))
      (hnumbers : scanNumbers (numbers ++ mods) = some (width, precision, mods))
      (hmods : ∀ b ∈ mods, b ∈ modifierChars)
  | numbers {flags numbers mods rest : List UInt8} {letter : UInt8} {width precision : UInt64}
      (heq : fmt = flags ++ (numbers ++ (mods ++ letter :: rest)))
      (hflags : Flags flags (numbers ++ (mods ++ letter :: rest)))
      (hnumbers : scanNumbers (numbers ++ (mods ++ letter :: rest)) =
        some (width, precision, mods ++ letter :: rest))
      (hmods : ∀ b ∈ mods, b ∈ modifierChars) (htwo : mods.length ≤ 2)
      (hletter : isConvLetter letter = true)
      (hstray : ∃ b ∈ numbers, CString.isDigit b = false ∧ b ≠ 0x2e)

/-! ## The loops -/

theorem scanFlags_overrun {flags s : List UInt8} (hdisj : flags.Nodup) :
    scanFlags flags s = .overrun ↔ (flags ++ s).Nodup ∧ ∀ b ∈ s, b ∈ flagChars := by
  induction s generalizing flags with
  | nil => simpa [scanFlags] using hdisj
  | cons c s ih =>
    have hassoc : flags ++ c :: s = flags ++ [c] ++ s := by rw [List.append_assoc]; rfl
    rw [scanFlags]
    split
    · rename_i hflag
      split
      · rename_i hmem
        refine iff_of_false (fun h => by cases h) fun h => ?_
        exact List.disjoint_of_nodup_append h.1 hmem List.mem_cons_self
      · rename_i hnew
        rw [ih (hdisj.append (List.nodup_singleton c) (by simpa using hnew)), hassoc,
          List.forall_mem_cons, and_iff_right hflag]
    · rename_i hother
      refine iff_of_false (fun h => by cases h) fun h => ?_
      exact hother (h.2 c List.mem_cons_self)

variable {flags s f fmt mods rest : List UInt8}

theorem scanFlags_inv {fl : List UInt8} (hnodup : flags.Nodup) (h : scanFlags flags s = .ok (fl, f)) :
    ∃ added, s = added ++ f ∧ fl = flags ++ added ∧ fl.Nodup ∧ (∀ b ∈ added, b ∈ flagChars) ∧
      ∃ b, f.head? = some b ∧ b ∉ flagChars := by
  induction s generalizing flags with
  | nil => cases h
  | cons c s ih =>
    rw [scanFlags] at h
    split at h
    · rename_i hflag
      split at h
      · cases h
      · rename_i hnew
        have hnodup' := hnodup.append (List.nodup_singleton c) (by simpa using hnew)
        obtain ⟨added, rfl, rfl, hfl, hadded, hstop⟩ := ih hnodup' h
        refine ⟨c :: added, rfl, by rw [List.append_assoc]; rfl, hfl, ?_, hstop⟩
        exact List.forall_mem_cons.2 ⟨hflag, hadded⟩
    · rename_i hother
      cases h
      exact ⟨[], rfl, (List.append_nil _).symm, hnodup, List.forall_mem_nil _, c, rfl, hother⟩

theorem scanFlags_iff : scanFlags [] s = .ok (flags, f) ↔ s = flags ++ f ∧ Flags flags f := by
  constructor
  · intro h
    obtain ⟨added, rfl, rfl, hnodup, hadded, hstop⟩ := scanFlags_inv List.nodup_nil h
    exact ⟨rfl, hnodup, hadded, hstop⟩
  · rintro ⟨rfl, hflags⟩
    obtain ⟨b, hb, hstop⟩ := hflags.stops
    exact @scanFlags_of_flags [] _ _ hflags.nodup hflags.isFlag b hb hstop

theorem scanModifiers_eq_none : scanModifiers s = none ↔ ∀ b ∈ s, b ∈ modifierChars := by
  induction s with
  | nil => simp [scanModifiers]
  | cons c s ih =>
    rw [scanModifiers, List.forall_mem_cons]
    split
    · rename_i hmod
      rw [Option.map_eq_none_iff, ih, and_iff_right hmod]
    · rename_i hother
      simp [hother]

/-! ## The numbers -/

theorem isDigit_of_plain {ate : List UInt8} (hplain : ∀ b ∈ ate, CString.isDigit b = true ∨ b = 0x2e)
    (hno : ∀ b ∈ ate, isNumberChar b = true ∧ b ≠ 0x2e) : ∀ b ∈ ate, CString.isDigit b = true :=
  fun b hb => (hplain b hb).resolve_right (hno b hb).2

/-- What is read as the numbers is a width and a precision, if there is
nothing in it but digits and a period. -/
theorem scanNumbers_plain {width precision : UInt64}
    (h : scanNumbers s = some (width, precision, f)) (hhead : s.head? ≠ some 0x30) :
    ∃ ate, s = ate ++ f ∧ ((∀ b ∈ ate, CString.isDigit b = true ∨ b = 0x2e) →
      ∃ w p, ate = w ++ p ∧ IsWidth w ∧ IsPrecision w p) := by
  obtain ⟨ate, heq, hno, hzero⟩ := strtoul10_eq s
  have hwidth : (∀ b ∈ ate, CString.isDigit b = true ∨ b = 0x2e) → IsWidth ate := by
    intro hplain
    refine ⟨isDigit_of_plain hplain hno, fun hfirst => hhead ?_⟩
    rw [heq, List.head?_append, hfirst]
    rfl
  unfold scanNumbers at h
  rcases hs : strtoul10 s with ⟨w, c⟩
  rw [hs] at h heq hzero
  dsimp only at h heq hzero
  split at h
  · rename_i f'
    obtain ⟨ate', heq', hno', -⟩ := strtoul10_eq f'
    split at h
    · cases h
    · rename_i hsome
      cases h
      refine ⟨ate ++ 0x2e :: ate', ?_, fun hplain => ⟨ate, 0x2e :: ate', rfl, ?_, .inr ⟨ate', rfl, ?_, ?_⟩⟩⟩
      · rw [List.append_assoc, List.cons_append, ← heq']
        exact heq
      · exact hwidth fun b hb => hplain b (List.mem_append_left _ hb)
      · refine isDigit_of_plain (fun b hb => ?_) hno'
        exact hplain b (List.mem_append_right _ (List.mem_cons_of_mem _ hb))
      · by_contra hnone
        rw [not_or, not_not, not_not] at hnone
        refine hsome ⟨hzero hnone.1, ?_⟩
        rw [hnone.2] at heq'
        exact heq'.symm
  · cases h
    exact ⟨ate, heq, fun hplain => ⟨ate, [], (List.append_nil _).symm, hwidth hplain, .inl rfl⟩⟩

/-! ## What is accepted -/

theorem isConvLetter_iff {c : UInt8} : isConvLetter c = true ↔ isAlpha c = true ∧ c ∉ modifierChars := by
  rw [isConvLetter, Bool.and_eq_true, Bool.not_eq_true', List.contains_eq_mem,
    decide_eq_false_iff_not]

/-- A text that goes on behind the numbers and the modifiers. -/
structure Scanned (fmt flags f mods : List UInt8) (letter : UInt8) (rest : List UInt8) : Prop where
  text : fmt = flags ++ f
  flags : Flags flags f
  numbers : ∃ width precision, scanNumbers f = some (width, precision, mods ++ letter :: rest)
  mods : ∀ b ∈ mods, b ∈ modifierChars
  letter : letter ∉ modifierChars

/-- Such a text is accepted with a letter and not too many modifiers. -/
theorem Scanned.accepted {letter : UInt8} (h : Scanned fmt flags f mods letter rest)
    (htwo : mods.length ≤ 2) (halpha : isAlpha letter = true) :
    ∃ pf, evlParseFmtConvSpec fmt = .ok pf ∧ pf.fmLength = fmt.length - rest.length := by
  obtain ⟨width, precision, hnumbers⟩ := h.numbers
  rw [evlParseFmtConvSpec, scanFlags_iff.2 ⟨h.text, h.flags⟩]
  dsimp only
  rw [hnumbers]
  dsimp only
  rw [scanModifiers_of_modifiers h.mods h.letter]
  dsimp only
  rw [if_neg (Nat.not_lt.2 htwo), if_neg (by rw [halpha]; decide)]
  exact ⟨_, rfl, rfl⟩

theorem scanned_of_accepted {pf : ParsedFormat} (h : evlParseFmtConvSpec fmt = .ok pf) :
    ∃ flags f mods letter rest, Scanned fmt flags f mods letter rest ∧ mods.length ≤ 2 ∧
      isAlpha letter = true ∧ pf.fmLength = fmt.length - rest.length := by
  unfold evlParseFmtConvSpec at h
  split at h
  · cases h
  · cases h
  · rename_i flags f hflags
    split at h
    · cases h
    · rename_i width precision g hnumbers
      split at h
      · cases h
      · rename_i mods letter rest hmods
        split at h
        · cases h
        · rename_i htwo
          split at h
          · cases h
          · rename_i halpha
            obtain ⟨htext, hflags⟩ := scanFlags_iff.1 hflags
            obtain ⟨rfl, hmem, hletter⟩ := scanModifiers_some hmods
            refine ⟨flags, f, mods, letter, rest, ⟨htext, hflags, ⟨width, precision, hnumbers⟩, hmem, hletter⟩,
              Nat.le_of_not_lt htwo, by simpa using halpha, ?_⟩
            cases h
            rfl

/-- The text goes on behind its end just when there are only flags, or only
modifiers behind the numbers. -/
theorem overrun_iff : evlParseFmtConvSpec fmt = .overrun ↔ (fmt.Nodup ∧ ∀ b ∈ fmt, b ∈ flagChars) ∨
      ∃ flags f mods width precision, fmt = flags ++ f ∧ Flags flags f ∧
        scanNumbers f = some (width, precision, mods) ∧ ∀ b ∈ mods, b ∈ modifierChars := by
  constructor
  · intro h
    unfold evlParseFmtConvSpec at h
    split at h
    · rename_i hflags
      have hall := (scanFlags_overrun List.nodup_nil).1 hflags
      exact .inl ⟨hall.1, hall.2⟩
    · cases h
    · rename_i flags f hflags
      obtain ⟨htext, hflags⟩ := scanFlags_iff.1 hflags
      split at h
      · cases h
      · rename_i width precision mods hnumbers
        split at h
        · rename_i hmods
          exact .inr ⟨flags, f, mods, width, precision, htext, hflags, hnumbers,
            scanModifiers_eq_none.1 hmods⟩
        · split at h
          · cases h
          · split at h <;> cases h
  · rintro (⟨hnodup, hflag⟩ | ⟨flags, f, mods, width, precision, htext, hflags, hnumbers, hmods⟩)
    · have hflags := (@scanFlags_overrun [] fmt List.nodup_nil).2 ⟨hnodup, hflag⟩
      rw [evlParseFmtConvSpec, hflags]
    · rw [evlParseFmtConvSpec, scanFlags_iff.2 ⟨htext, hflags⟩]
      dsimp only
      rw [hnumbers]
      dsimp only
      rw [scanModifiers_eq_none.2 hmods]

/-- A conversion is read in its parts, and there is one way to read it. -/
theorem Conversion.scanned (c : Conversion) (rest : List UInt8) :
    Scanned (c.text ++ rest) c.flags (c.tail ++ rest) c.modifier c.letter rest := by
  have htail : c.tail ++ rest = c.width ++ (c.precision ++ (c.modifier ++ c.letter :: rest)) := by
    simp [Conversion.tail]
  refine ⟨?_, ⟨c.nodup, c.isFlag, c.head_tail rest⟩, ?_, c.isModifier, (isConvLetter_iff.1 c.isLetter).2⟩
  · rw [Conversion.text, List.append_assoc]
  · rw [htail]
    exact c.scanNumbers rest

theorem Scanned.unique {flags' f' mods' rest' : List UInt8} {letter letter' : UInt8}
    (h : Scanned fmt flags f mods letter rest) (h' : Scanned fmt flags' f' mods' letter' rest') :
    f = f' ∧ mods = mods' ∧ letter = letter' ∧ rest = rest' := by
  have hflags := (scanFlags_iff.2 ⟨h.text, h.flags⟩).symm.trans (scanFlags_iff.2 ⟨h'.text, h'.flags⟩)
  cases hflags
  obtain ⟨width, precision, hnumbers⟩ := h.numbers
  obtain ⟨width', precision', hnumbers'⟩ := h'.numbers
  rw [hnumbers] at hnumbers'
  have hmods := scanModifiers_of_modifiers h.mods h.letter rest
  have hbehind := congrArg (·.2.2) (Option.some.inj hnumbers')
  dsimp only at hbehind
  rw [hbehind, scanModifiers_of_modifiers h'.mods h'.letter rest'] at hmods
  cases hmods
  exact ⟨rfl, rfl, rfl, rfl⟩

theorem conversion_accepted (c : Conversion) (rest : List UInt8) :
    ∃ pf, evlParseFmtConvSpec (c.text ++ rest) = .ok pf ∧ pf.fmLength = c.text.length := by
  obtain ⟨pf, hpf, hlen⟩ := (c.scanned rest).accepted c.atMostTwo (isConvLetter_iff.1 c.isLetter).1
  exact ⟨pf, hpf, by rw [hlen, List.length_append, Nat.add_sub_cancel]⟩

/-- A text is read as it is unless it is of one of the three kinds. -/
theorem readAsIs_iff (fmt : List UInt8) : ReadAsIs fmt ↔ ¬ Misread fmt := by
  constructor
  · rintro ⟨hinside, hsound, -⟩ hmisread
    cases hmisread with
    | flags hnodup hflag => exact hinside (overrun_iff.2 (.inl ⟨hnodup, hflag⟩))
    | modifiers heq hflags hnumbers hmods =>
      exact hinside (overrun_iff.2 (.inr ⟨_, _, _, _, _, heq, hflags, hnumbers, hmods⟩))
    | @numbers flags numbers mods rest letter width precision heq hflags hnumbers hmods htwo hletter hstray =>
      obtain ⟨halpha, hnot⟩ := isConvLetter_iff.1 hletter
      have hscanned : Scanned fmt flags _ mods letter rest :=
        ⟨heq, hflags, ⟨width, precision, hnumbers⟩, hmods, hnot⟩
      obtain ⟨pf, hpf, -⟩ := hscanned.accepted htwo halpha
      obtain ⟨c, rest', hc, -⟩ := hsound pf hpf
      rw [hc] at hscanned
      obtain ⟨hf, rfl, rfl, rfl⟩ := hscanned.unique (c.scanned rest')
      have hparts : numbers = c.width ++ c.precision := by
        refine List.append_cancel_right (hf.trans ?_)
        simp [Conversion.tail]
      obtain ⟨b, hb, hdigit, hperiod⟩ := hstray
      rw [hparts, List.mem_append] at hb
      rcases hb with hb | hb
      · rw [c.isWidth.1 b hb] at hdigit
        cases hdigit
      · rcases c.isPrecision with hnone | ⟨digits, hprec, hdigits, -⟩
        · rw [hnone] at hb
          cases hb
        · rw [hprec] at hb
          rcases List.mem_cons.1 hb with rfl | hb
          · exact hperiod rfl
          · rw [hdigits b hb] at hdigit
            cases hdigit
  · intro hread
    refine ⟨fun hover => ?_, fun pf hpf => ?_, fun c rest heq => heq ▸ conversion_accepted c rest⟩
    · rcases overrun_iff.1 hover with ⟨hnodup, hflag⟩ | ⟨flags, f, mods, width, precision, htext, hflags, hnumbers, hmods⟩
      · exact hread (.flags hnodup hflag)
      · obtain ⟨numbers, rfl, -⟩ := scanNumbers_some hnumbers
        exact hread (.modifiers htext hflags hnumbers hmods)
    · obtain ⟨flags, f, mods, letter, rest, hscanned, htwo, halpha, hlen⟩ := scanned_of_accepted hpf
      obtain ⟨width, precision, hnumbers⟩ := hscanned.numbers
      have hconv := isConvLetter_iff.2 ⟨halpha, hscanned.letter⟩
      have hhead : f.head? ≠ some 0x30 := by
        obtain ⟨b, hb, hnot⟩ := hscanned.flags.stops
        rw [hb]
        intro hzero
        rw [Option.some.inj hzero] at hnot
        exact hnot (by decide)
      obtain ⟨ate, rfl, hparts⟩ := scanNumbers_plain hnumbers hhead
      have hplain : ∀ b ∈ ate, CString.isDigit b = true ∨ b = 0x2e := by
        intro b hb
        by_contra hstray
        exact hread (.numbers hscanned.text hscanned.flags hnumbers hscanned.mods htwo hconv
          ⟨b, hb, by simpa using mt Or.inl hstray, mt Or.inr hstray⟩)
      obtain ⟨w, p, rfl, hw, hp⟩ := hparts hplain
      let c : Conversion :=
        { flags, width := w, precision := p, modifier := mods, letter
          nodup := hscanned.flags.nodup, isFlag := hscanned.flags.isFlag, isWidth := hw
          isPrecision := hp, isModifier := hscanned.mods, atMostTwo := htwo, isLetter := hconv }
      have htext : fmt = c.text ++ rest := by
        rw [hscanned.text]
        simp [c, Conversion.text, Conversion.tail]
      refine ⟨c, rest, htext, ?_⟩
      rw [hlen, htext, List.length_append, Nat.add_sub_cancel]

/-- `5h`: the NUL is behind a modifier, and the text is read on behind
it. -/
theorem fiveH_not_readAsIs : ¬ ReadAsIs [0x35, 0x68] := by
  intro h
  exact h.inside (by decide)

end Evlog.Printf
