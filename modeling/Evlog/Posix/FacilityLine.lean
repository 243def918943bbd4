/-
Evlog.Posix.FacilityLine — what a line of the facility registry says.

`Written` is the format as the registry file describes it: a number, a name,
the two words, a filter. `readLine_of_written` says that `_evlReadFacilities`
takes such a line for what it says. Other lines it takes for something too:
a number with letters behind it, a code that is not of 32 bits, a quote that
is not closed.
-/
import Evlog.Posix.FacilityFile

namespace Evlog.Posix

open Evlog.Lib

variable {Query : Type}

/-! ## The order of the tokens -/

def Token.Before (tok other : Token) : Prop := tok.start + tok.text.length < other.start

/-- The tokens so far are in order, and all before `tmp`. -/
structure Split.Ordered (st : Split) : Prop where
  pairwise : st.argv.Pairwise Token.Before
  before : ∀ tok ∈ st.argv, tok.start + tok.text.length < st.tmp

theorem Split.le_start_token (st : Split) : st.tmp ≤ st.token.start := by
  rw [Split.token, Token.unquote]
  split
  · exact Nat.le_succ _
  · exact le_rfl

theorem Split.end_token (st : Split) :
    st.token.start + st.token.text.length ≤ st.tmp + st.text.length := by
  rw [Split.token, Token.unquote]
  split
  · next hquote =>
    have hpos : 0 < st.text.length := by
      cases htext : st.text with
      | nil => simp [htext] at hquote
      | cons => exact Nat.succ_pos _
    rw [List.length_dropLast, List.length_tail]
    dsimp only
    omega
  · exact le_rfl

theorem Split.Ordered.push {st : Split} (h : st.Ordered) :
    (st.argv ++ [st.token]).Pairwise Token.Before := by
  refine List.pairwise_append.2 ⟨h.pairwise, List.pairwise_singleton _ _, fun tok hmem other hother => ?_⟩
  rw [List.mem_singleton.1 hother]
  exact (h.before tok hmem).trans_le st.le_start_token

theorem splitLoop_pairwise {n : Nat} {st : Split} (h : st.Ordered) (cmdbuf : List UInt8) :
    (splitLoop n st cmdbuf).Pairwise Token.Before := by
  induction cmdbuf generalizing st with
  | nil =>
    rw [splitLoop]
    split
    · exact h.pairwise
    · split
      · exact h.pairwise
      · exact h.push
  | cons c rest ih =>
    rw [splitLoop]
    split
    · exact ih ⟨h.pairwise, fun tok hmem => (h.before tok hmem).trans (Nat.lt_succ_self _)⟩
    · split
      · exact h.pairwise
      · split
        · refine ih ⟨h.push, fun tok hmem => ?_⟩
          rcases List.mem_append.1 hmem with hmem | hmem
          · exact (h.before tok hmem).trans_le (by dsimp only; omega)
          · rw [List.mem_singleton.1 hmem]
            exact Nat.lt_succ_of_le st.end_token
        · exact ih ⟨h.pairwise, h.before⟩

theorem evlSplitCmd_pairwise (cmdbuf : List UInt8) (n : Nat) :
    (evlSplitCmd cmdbuf n).Pairwise Token.Before :=
  splitLoop_pairwise ⟨List.Pairwise.nil, fun _ hmem => absurd hmem List.not_mem_nil⟩ cmdbuf

/-! ## Numbers -/

/-- A decimal, hex, or octal number, without a sign. -/
structure Numeral (text : List UInt8) (n : Nat) : Prop where
  ne_nil : (baseOf text).2 ≠ []
  digits : ∀ c ∈ (baseOf text).2, isDigitOf (baseOf text).1 c = true
  value : numberOf (baseOf text).1 (baseOf text).2 = n

theorem isHexDigit_plain {c : UInt8} (h : isHexDigit c = true) :
    CString.isSpace c = false ∧ c ≠ 0x2d ∧ c ≠ 0x2b := by
  simp only [isHexDigit, isdigit, Bool.or_eq_true, Bool.and_eq_true, decide_eq_true_eq,
    UInt8.le_iff_toNat_le, CString.isSpace, Bool.or_eq_false_iff, beq_eq_false_iff_ne, ne_eq,
    Bool.and_eq_false_iff, decide_eq_false_iff_not, ← UInt8.toNat_inj] at h ⊢
  simp at h ⊢
  omega

theorem baseOf_cases (text : List UInt8) :
    (∃ rest, text = 0x30 :: rest) ∨ baseOf text = (10, text) := by
  unfold baseOf
  split
  · exact .inl ⟨_, rfl⟩
  · exact .inl ⟨_, rfl⟩
  · exact .inr rfl

theorem Numeral.head {text : List UInt8} {n : Nat} (h : Numeral text n) :
    ∃ c rest, text = c :: rest ∧ isHexDigit c = true := by
  obtain ⟨rest, rfl⟩ | hbase := baseOf_cases text
  · exact ⟨0x30, rest, rfl, by decide⟩
  · have hne := h.ne_nil
    have hdigits := h.digits
    rw [hbase] at hne hdigits
    obtain ⟨c, rest, rfl⟩ := List.exists_cons_of_ne_nil hne
    have hdigit := hdigits c List.mem_cons_self
    rw [isDigitOf, Bool.and_eq_true] at hdigit
    exact ⟨c, rest, rfl, hdigit.1⟩

theorem strtoul0_of_numeral {text : List UInt8} {n : Nat} (h : Numeral text n) (hn : n < 2 ^ 64) :
    strtoul0 text = (UInt64.ofNat n, text.length) := by
  obtain ⟨c, rest, rfl, hc⟩ := h.head
  obtain ⟨hspace, hminus, hplus⟩ := isHexDigit_plain hc
  have hdrop : (c :: rest).dropWhile CString.isSpace = c :: rest := by
    rw [List.dropWhile_cons_of_neg (by simp [hspace])]
  have hsign := CString.sign_of_plain hminus hplus rest
  have hall : (baseOf (c :: rest)).2.takeWhile (isDigitOf (baseOf (c :: rest)).1) = (baseOf (c :: rest)).2 :=
    List.takeWhile_eq_self_iff.2 h.digits
  unfold strtoul0
  simp only [hdrop, hsign, hall]
  rw [if_neg h.ne_nil, h.value, if_pos hn, Nat.sub_self, Nat.sub_zero]
  rfl

/-! ## Lines -/

/-- An entry of the registry file. -/
structure FacEntry where
  code : UInt32
  name : List UInt8
  accessFlags : UInt32
  filter : Option (List UInt8)
  deriving DecidableEq, Repr

def Facility.entry (fac : Facility Query) : FacEntry :=
  ⟨fac.faCode, fac.faName, fac.faAccessFlags, fac.faFilter⟩

def lineText (line : List UInt8) : List UInt8 :=
  if line.getLast? = some 0x0a then line.dropLast else line

/-- The quotes that are open at the end of a text, double ones and single
ones. -/
def openQuotes (text : List UInt8) : Bool × Bool :=
  text.foldl (fun quotes c =>
    if c = 0x22 ∧ quotes.2 = false then (!quotes.1, quotes.2)
    else if c = 0x27 ∧ quotes.1 = false then (quotes.1, !quotes.2)
    else quotes) (false, false)

/-- A name as the registry file describes it. -/
structure ValidName (name : List UInt8) : Prop where
  ne_nil : name ≠ []
  fits : name.length ≤ posixLogMemstrMaxlen - 1
  noQuote : 0x22 ∉ name

/-- What the fields of a line say. -/
structure Fields (tokens : List Token) (e : FacEntry) : Prop where
  code : ∃ tok ∈ tokens[0]?, Numeral tok.text e.code.toNat
  reserved : e.code ≠ evlInvalidFacility
  name : ∃ tok ∈ tokens[1]?, tok.text = e.name
  valid : ValidName e.name
  params : evlCollectOptionalFacParams ((tokens.drop 2).map (·.text)) = some (e.accessFlags, e.filter)

/-- What a line says, if it is an entry with a good filter. -/
structure Written (check : List UInt8 → Except Errno Query) (line : List UInt8) (e : FacEntry) :
    Prop where
  noNul : 0 ∉ line
  closed : openQuotes (lineText line) = (false, false)
  fields : Fields (evlSplitCmd (lineText line) 6) e
  filter : ∀ filter ∈ e.filter, ∃ query, check filter = .ok query

theorem evlCollectOptionalFacParams_length {params : List (List UInt8)} {r : UInt32 × Option (List UInt8)}
    (h : evlCollectOptionalFacParams params = some r) : params.length ≤ 3 := by
  have htake : ∀ (word : List UInt8) (flag : UInt32) (l : List (List UInt8)),
      l.length ≤ (takeFlag word flag l).2.length + 1 := by
    intro word flag l
    unfold takeFlag
    split
    · split
      · exact le_rfl
      · exact Nat.le_succ _
    · exact Nat.zero_le _
  have hpriv := htake privateWord evlFaccPrivate params
  have hkern := htake kernelWord evlFaccKern (takeFlag privateWord evlFaccPrivate params).2
  unfold evlCollectOptionalFacParams at h
  dsimp only at h
  split at h
  · next hrest =>
    rw [hrest, List.length_nil] at hkern
    omega
  · next hrest =>
    rw [hrest, List.length_singleton] at hkern
    omega
  · cases h

theorem toUInt64_ne {a b : UInt32} (h : a ≠ b) : a.toUInt64 ≠ b.toUInt64 := by
  intro heq
  have hnat := congrArg UInt64.toNat heq
  rw [UInt32.toNat_toUInt64, UInt32.toNat_toUInt64] at hnat
  exact h (UInt32.toNat_inj.1 hnat)

theorem readFields_of_fields {tokens : List Token} (hpairwise : tokens.Pairwise Token.Before)
    {e : FacEntry} (h : Fields tokens e) :
    readFields tokens = .entry e.code.toUInt64 e.name e.accessFlags e.filter := by
  obtain ⟨⟨code, hcode, hnumeral⟩, hreserved, ⟨name, hname, htext⟩, hvalid, hparams⟩ := h
  rcases tokens with _ | ⟨code', _ | ⟨name', params⟩⟩
  · cases hcode
  · cases hname
  · obtain rfl : code' = code := by simpa using hcode
    obtain rfl : name' = name := by simpa using hname
    have hread := strtoul0_of_numeral hnumeral (by have := e.code.toNat_lt; omega)
    have hcode64 : UInt64.ofNat e.code.toNat = e.code.toUInt64 :=
      UInt64.toNat_inj.1 (by rw [UInt32.toNat_toUInt64, UInt64.toNat_ofNat_of_lt']; exact e.code.toUInt64.toNat_lt)
    have hpos : 0 < code'.text.length := by
      obtain ⟨c, rest, heq, -⟩ := hnumeral.head
      rw [heq]
      exact Nat.succ_pos _
    have hbefore : code'.start + code'.text.length < name'.start :=
      (List.pairwise_cons.1 hpairwise).1 name' List.mem_cons_self
    have hlength := evlCollectOptionalFacParams_length hparams
    rw [List.drop_succ_cons, List.drop_succ_cons, List.drop_zero] at hlength hparams
    rw [List.length_map] at hlength
    rw [readFields, if_neg (by omega), hread]
    dsimp only
    rw [if_neg (by omega), hcode64, if_neg (toUInt64_ne hreserved), if_neg (by omega), htext,
      List.take_of_length_le hvalid.fits, hparams]

theorem readLine_of_written {check : List UInt8 → Except Errno Query} {line : List UInt8} {e : FacEntry}
    (h : Written check line e) (hcomment : line.head? ≠ some 0x23) :
    readLine line = .entry e.code.toUInt64 e.name e.accessFlags e.filter := by
  have hbytes : (CString.ofBuf line).bytes = line := CString.ofBuf_bytes ⟨line, h.noNul⟩
  rw [readLine, if_neg hcomment, hbytes]
  exact readFields_of_fields (evlSplitCmd_pairwise _ 6) h.fields

end Evlog.Posix
