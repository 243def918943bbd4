/-
Evlog.Posix.EventType — event types made from format strings (syslogat.c).

`evl_gen_event_type_v2` is what runs when an event is logged, and
`evl_normalize_fmt` what the tools use that write templates. Each skips the
severity codes at the start and leaves out the newlines at the end with two
loops of its own, one in the string and one in a copy, and takes the length
for an `int` in between.

Behind its codes a format of less than 2^31 bytes keeps its length. A
longer one may be cut to its length modulo 2^32, or, if that is negative,
`evl_normalize_fmt` stores its NUL in front of the buffer (`none`). Strings
are without their NUL.
-/
import Evlog.Posix.Facility
import Mathlib.Data.List.DropRight

namespace Evlog.Syslogat

open Evlog.Posix (skipSeverity crc32 intLength trimmedLength evlGenEventTypeV2)

/-- The loop of `evl_gen_event_type_v2` once more, on a copy. -/
def evlNormalizeFmt (fmt : List UInt8) : Option (List UInt8) :=
  let nfmt := skipSeverity fmt
  if intLength nfmt < 0 then none
  else some (nfmt.take (trimmedLength nfmt (intLength nfmt).toNat))

/-! ## Lengths -/

variable {text fmt newlines fmt' : List UInt8}

theorem intLength_of_lt (h : text.length < 2 ^ 31) : intLength text = text.length := by
  unfold intLength
  exact Int.bmod_eq_of_le (by omega) (by omega)

theorem toNat_intLength_le (text : List UInt8) : (intLength text).toNat ≤ text.length := by
  unfold intLength
  have hemod := Int.emod_add_mul_ediv (text.length : Int) (2 ^ 32)
  rw [Int.bmod]
  omega

theorem toNat_intLength_lt (text : List UInt8) : (intLength text).toNat < 2 ^ 31 := by
  have hlt : intLength text < 2 ^ 31 := Int.bmod_lt (by decide)
  omega

/-! ## The text an event type is made of -/

/-- What is left of a text: as much as its length says, without the newlines
at the end. -/
def cutText (text : List UInt8) : List UInt8 :=
  (text.take (intLength text).toNat).rdropWhile (· = 0x0a)

theorem take_trimmedLength (text : List UInt8) {n : Nat} (hn : n ≤ text.length) :
    text.take (trimmedLength text n) = (text.take n).rdropWhile (· = 0x0a) := by
  induction n with
  | zero => simp [trimmedLength]
  | succ n ih =>
    have hlast : n < text.length := hn
    rw [List.take_succ_eq_append_getElem hlast, trimmedLength, List.getElem?_eq_getElem hlast]
    by_cases hnl : text[n] = 0x0a
    · rw [if_pos (by rw [hnl]), ih (by omega), List.rdropWhile_concat_pos _ _ _ (by simpa using hnl)]
    · rw [if_neg (by simpa using hnl), List.rdropWhile_concat_neg _ _ _ (by simpa using hnl),
        List.take_succ_eq_append_getElem hlast]

theorem evlGenEventTypeV2_eq (fmt : List UInt8) :
    evlGenEventTypeV2 fmt = (crc32 (cutText (skipSeverity fmt))).toInt32 := by
  rw [evlGenEventTypeV2, cutText, take_trimmedLength _ (toNat_intLength_le _)]

theorem evlNormalizeFmt_eq (h : 0 ≤ intLength (skipSeverity fmt)) :
    evlNormalizeFmt fmt = some (cutText (skipSeverity fmt)) := by
  rw [evlNormalizeFmt, if_neg (by omega), cutText, take_trimmedLength _ (toNat_intLength_le _)]

theorem cutText_of_lt (h : text.length < 2 ^ 31) : cutText text = text.rdropWhile (· = 0x0a) := by
  rw [cutText, intLength_of_lt h, Int.toNat_natCast, List.take_length]

/-! ## Severity codes -/

def StartsWithCode (text : List UInt8) : Prop :=
  ∃ d rest, Posix.isdigit d = true ∧ text = 0x3c :: d :: 0x3e :: rest

theorem skipSeverity_code {d : UInt8} (hd : Posix.isdigit d = true) (rest : List UInt8) :
    skipSeverity (0x3c :: d :: 0x3e :: rest) = skipSeverity rest := by
  rw [skipSeverity, if_pos ⟨rfl, hd, rfl⟩]

theorem skipSeverity_of_not_code (h : ¬ StartsWithCode text) : skipSeverity text = text := by
  unfold skipSeverity
  split
  · next a b c fmt =>
    refine if_neg fun hcode => h ⟨b, fmt, hcode.2.1, ?_⟩
    rw [hcode.1, hcode.2.2]
  · rfl

theorem not_code_skipSeverity (fmt : List UInt8) : ¬ StartsWithCode (skipSeverity fmt) := by
  fun_induction skipSeverity fmt with
  | case1 a b c fmt hcode ih => exact ih
  | case2 a b c fmt hcode =>
    rintro ⟨d, rest, hd, heq⟩
    cases heq
    exact hcode ⟨rfl, hd, rfl⟩
  | case3 fmt hshort =>
    rintro ⟨d, rest, hd, rfl⟩
    exact hshort _ _ _ _ rfl

/-- One or more codes in a row, or none. -/
inductive SeverityCodes : List UInt8 → Prop where
  | nil : SeverityCodes []
  | cons (d : UInt8) (codes : List UInt8) (hd : Posix.isdigit d = true) (h : SeverityCodes codes) :
      SeverityCodes (0x3c :: d :: 0x3e :: codes)

theorem skipSeverity_append {codes : List UInt8} (h : SeverityCodes codes) (text : List UInt8) :
    skipSeverity (codes ++ text) = skipSeverity text := by
  induction h with
  | nil => rfl
  | cons d codes hd h ih => exact (skipSeverity_code hd (codes ++ text)).trans ih

theorem exists_codes (fmt : List UInt8) :
    ∃ codes, SeverityCodes codes ∧ fmt = codes ++ skipSeverity fmt := by
  fun_induction skipSeverity fmt with
  | case1 a b c fmt hcode ih =>
    obtain ⟨codes, hcodes, heq⟩ := ih
    obtain ⟨rfl, hd, rfl⟩ := hcode
    exact ⟨_, .cons b codes hd hcodes, by rw [List.cons_append, List.cons_append, List.cons_append, ← heq]⟩
  | case2 => exact ⟨[], .nil, rfl⟩
  | case3 => exact ⟨[], .nil, rfl⟩

theorem startsWithCode_append (h : ∀ c ∈ newlines, c = 0x0a)
    (hcode : StartsWithCode (text ++ newlines)) : StartsWithCode text := by
  obtain ⟨d, rest, hd, heq⟩ := hcode
  match text, heq with
  | a :: b :: c :: text, heq =>
    cases heq
    exact ⟨d, text, hd, rfl⟩
  | [a, b], heq =>
    have hc : (0x3e : UInt8) ∈ newlines := by
      cases heq
      exact List.mem_cons_self
    exact absurd (h _ hc) (by decide)
  | [a], heq =>
    have hc : d ∈ newlines := by
      cases heq
      exact List.mem_cons_self
    rw [h _ hc] at hd
    cases hd
  | [], heq =>
    have hc : (0x3c : UInt8) ∈ newlines := by
      cases heq
      exact List.mem_cons_self
    exact absurd (h _ hc) (by decide)

/-- A code has no newline in it, so newlines behind a text do not make one. -/
theorem skipSeverity_append_newlines (h : ∀ c ∈ newlines, c = 0x0a) (text : List UInt8) :
    skipSeverity (text ++ newlines) = skipSeverity text ++ newlines := by
  obtain ⟨codes, hcodes, heq⟩ := exists_codes text
  have hnone : ¬ StartsWithCode (skipSeverity text ++ newlines) :=
    fun hcode => not_code_skipSeverity text (startsWithCode_append h hcode)
  calc skipSeverity (text ++ newlines)
      = skipSeverity (codes ++ (skipSeverity text ++ newlines)) := by
        rw [← List.append_assoc, ← heq]
    _ = skipSeverity text ++ newlines := by
        rw [skipSeverity_append hcodes, skipSeverity_of_not_code hnone]

/-- The beginning of a text that is no code is none either. -/
theorem not_code_of_start (hstart : text <+: fmt) (h : ¬ StartsWithCode fmt) :
    ¬ StartsWithCode text := by
  rintro ⟨d, rest, hd, rfl⟩
  obtain ⟨behind, rfl⟩ := hstart
  exact h ⟨d, rest ++ behind, hd, rfl⟩

/-! ## Which formats agree -/

/-- The run-time event type is that of the normalized format, and that is
normalized already. -/
def RightFor (fmt : List UInt8) : Prop :=
  ∃ nfmt, evlNormalizeFmt fmt = some nfmt ∧ evlGenEventTypeV2 fmt = (crc32 nfmt).toInt32 ∧
    evlNormalizeFmt nfmt = some nfmt

/-- A format is right unless its length is a negative `int`. -/
theorem rightFor_iff (fmt : List UInt8) : RightFor fmt ↔ 0 ≤ intLength (skipSeverity fmt) := by
  constructor
  · rintro ⟨nfmt, hnfmt, -⟩
    by_contra hneg
    rw [evlNormalizeFmt, if_pos (by omega)] at hnfmt
    cases hnfmt
  · intro hlen
    refine ⟨_, evlNormalizeFmt_eq hlen, evlGenEventTypeV2_eq fmt, ?_⟩
    have hstart : cutText (skipSeverity fmt) <+: skipSeverity fmt :=
      (List.rdropWhile_prefix _ _).trans (List.take_prefix _ _)
    have hskip : skipSeverity (cutText (skipSeverity fmt)) = cutText (skipSeverity fmt) :=
      skipSeverity_of_not_code (not_code_of_start hstart (not_code_skipSeverity fmt))
    have hshort : (cutText (skipSeverity fmt)).length < 2 ^ 31 := by
      have hcut := (List.rdropWhile_prefix (· = 0x0a)
        ((skipSeverity fmt).take (intLength (skipSeverity fmt)).toNat)).length_le
      rw [List.length_take] at hcut
      exact lt_of_le_of_lt (hcut.trans (min_le_left _ _)) (toNat_intLength_lt _)
    have hnonneg : 0 ≤ intLength (cutText (skipSeverity fmt)) := by
      rw [intLength_of_lt hshort]
      omega
    rw [evlNormalizeFmt_eq (by rwa [hskip]), hskip, cutText_of_lt hshort, cutText,
      List.rdropWhile_idempotent]

/-- Two formats that differ only in severity codes at the start and in
newlines at the end. -/
def SameText (fmt fmt' : List UInt8) : Prop :=
  ∃ codes codes' text newlines newlines',
    SeverityCodes codes ∧ SeverityCodes codes' ∧
    (∀ c ∈ newlines, c = 0x0a) ∧ (∀ c ∈ newlines', c = 0x0a) ∧
    fmt = codes ++ text ++ newlines ∧ fmt' = codes' ++ text ++ newlines'

theorem rdropWhile_append_newlines (h : ∀ c ∈ newlines, c = 0x0a) (text : List UInt8) :
    (text ++ newlines).rdropWhile (· = 0x0a) = text.rdropWhile (· = 0x0a) := by
  induction newlines using List.reverseRecOn with
  | nil => rw [List.append_nil]
  | append_singleton newlines c ih =>
    have hc : c = 0x0a := h c (by simp)
    rw [← List.append_assoc, List.rdropWhile_concat_pos _ _ _ (by simpa using hc)]
    exact ih fun d hd => h d (List.mem_append_left _ hd)

theorem SameText.rdropWhile_eq (h : SameText fmt fmt') :
    (skipSeverity fmt).rdropWhile (· = 0x0a) = (skipSeverity fmt').rdropWhile (· = 0x0a) := by
  obtain ⟨codes, codes', text, newlines, newlines', hcodes, hcodes', hnl, hnl', rfl, rfl⟩ := h
  rw [List.append_assoc, List.append_assoc, skipSeverity_append hcodes, skipSeverity_append hcodes',
    skipSeverity_append_newlines hnl, skipSeverity_append_newlines hnl',
    rdropWhile_append_newlines hnl, rdropWhile_append_newlines hnl']

/-- The beginnings of the two texts that their lengths leave, without the
newlines at the end, have one CRC. -/
def CutAlike (fmt fmt' : List UInt8) : Prop :=
  crc32 (cutText (skipSeverity fmt)) = crc32 (cutText (skipSeverity fmt'))

theorem evlGenEventTypeV2_eq_iff (fmt fmt' : List UInt8) :
    evlGenEventTypeV2 fmt = evlGenEventTypeV2 fmt' ↔ CutAlike fmt fmt' := by
  rw [evlGenEventTypeV2_eq, evlGenEventTypeV2_eq, CutAlike]
  constructor
  · intro h
    rw [← UInt32.toUInt32_toInt32 (crc32 _), h, UInt32.toUInt32_toInt32]
  · intro h
    rw [h]

theorem SameText.cutAlike (h : SameText fmt fmt') (hlt : (skipSeverity fmt).length < 2 ^ 31)
    (hlt' : (skipSeverity fmt').length < 2 ^ 31) : CutAlike fmt fmt' := by
  rw [CutAlike, cutText_of_lt hlt, cutText_of_lt hlt', h.rdropWhile_eq]

/-- Event types at run time and at build time agree exactly if the lengths
behind the codes are no negative `int`s, and those of formats with the same
text are below 2^31 or cut to beginnings with one CRC. -/
theorem eventTypes_right_iff (fmt fmt' : List UInt8) : (RightFor fmt ∧ RightFor fmt' ∧
        (SameText fmt fmt' → evlGenEventTypeV2 fmt = evlGenEventTypeV2 fmt')) ↔
      0 ≤ intLength (skipSeverity fmt) ∧ 0 ≤ intLength (skipSeverity fmt') ∧
        (SameText fmt fmt' →
          ((skipSeverity fmt).length < 2 ^ 31 ∧ (skipSeverity fmt').length < 2 ^ 31) ∨
            CutAlike fmt fmt') := by
  rw [rightFor_iff, rightFor_iff, evlGenEventTypeV2_eq_iff]
  constructor
  · rintro ⟨hlen, hlen', hsame⟩
    exact ⟨hlen, hlen', fun h => .inr (hsame h)⟩
  · rintro ⟨hlen, hlen', hcond⟩
    refine ⟨hlen, hlen', fun h => ?_⟩
    rcases hcond h with ⟨hlt, hlt'⟩ | halike
    · exact h.cutAlike hlt hlt'
    · exact halike

theorem skipSeverity_letters (n : Nat) :
    skipSeverity (List.replicate n 0x61) = List.replicate n 0x61 := by
  refine skipSeverity_of_not_code ?_
  rintro ⟨d, rest, -, heq⟩
  have hmem : (0x3c : UInt8) ∈ List.replicate n 0x61 := by
    rw [heq]
    exact List.mem_cons_self
  exact absurd (List.eq_of_mem_replicate hmem) (by decide)

theorem rightFor_letters_iff (n : Nat) :
    RightFor (List.replicate n 0x61) ↔ 0 ≤ (n : Int).bmod (2 ^ 32) := by
  rw [rightFor_iff, skipSeverity_letters]
  unfold intLength
  simp only [List.length_replicate]

/-- Of 2^31 letters there is no normalized format. -/
theorem eventTypes_long : ¬ RightFor (List.replicate (2 ^ 31) 0x61) :=
  mt (rightFor_letters_iff _).mp (by decide)

end Evlog.Syslogat
