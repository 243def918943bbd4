/-
Evlog.Posix.SplitCmdTheorems — words of a line (evl_common.c).

What the words of a line are is said first, without the flags of
`_evlSplitCmd`. The loop gives these words as long as there is a blank behind
each of them. The end of the line it takes badly: a word that the NUL ends is
given too, but white space is then looked for behind the NUL, and a word with
a quote that is not closed is dropped.
-/
import Evlog.Posix.FacilityFile

namespace Evlog.Posix

/-! ## The words of a line -/

def openBehind (c : UInt8) : Option UInt8 → Option UInt8
  | none => if isQuote c then some c else none
  | some q => if c = q then none else some q

/-- The words of a line from a word on that has `text` so far. A blank ends a
word where no quote is open. -/
def wordsFrom (start : Nat) (opened : Option UInt8) (text : List UInt8) : List UInt8 → List Token
  | [] => if text = [] then [] else [⟨start, text⟩]
  | c :: rest =>
    if isBlank c ∧ opened = none then
      (if text = [] then [] else [⟨start, text⟩]) ++ wordsFrom (start + text.length + 1) none [] rest
    else wordsFrom start (openBehind c opened) (text ++ [c]) rest

def lineWords (line : List UInt8) : List Token := wordsFrom 0 none [] line

def Token.finish (tok : Token) : Nat := tok.start + tok.text.length

def Token.strip (tok : Token) : Token :=
  if 2 ≤ tok.text.length ∧ tok.text.head?.any isQuote ∧ tok.text.head? = tok.text.getLast? then
    ⟨tok.start + 1, tok.text.tail.dropLast⟩
  else tok

/-- A word that starts with the one quote and ends with the other. -/
def Token.Mismatched (tok : Token) : Prop :=
  tok.text.head?.any isQuote ∧ tok.text.getLast?.any isQuote ∧ tok.text.head? ≠ tok.text.getLast?

theorem Token.start_le_strip (tok : Token) : tok.start ≤ tok.strip.start := by
  rw [Token.strip]
  split
  · exact Nat.le_succ _
  · exact le_rfl

variable {tok w : Token}

theorem Token.unquote_of_mismatched (h : tok.Mismatched) : tok.unquote ≠ tok.strip := by
  intro heq
  rw [Token.unquote, Token.strip, if_pos ⟨h.1, h.2.1⟩, if_neg fun hpair => h.2.2 hpair.2.2] at heq
  have hstart := congrArg Token.start heq
  simp at hstart

theorem Token.unquote_eq_strip (h : ¬tok.Mismatched)
    (hsingle : ∀ c, tok.text = [c] → isQuote c = false) : tok.unquote = tok.strip := by
  rw [Token.unquote, Token.strip]
  by_cases hends : tok.text.head?.any isQuote ∧ tok.text.getLast?.any isQuote
  · have hsame : tok.text.head? = tok.text.getLast? := by
      by_contra hne
      exact h ⟨hends.1, hends.2, hne⟩
    have hlength : 2 ≤ tok.text.length := by
      match htext : tok.text with
      | [] => simp [htext] at hends
      | [c] => simp [htext, hsingle c htext] at hends
      | _ :: _ :: _ => simp
    rw [if_pos hends, if_pos ⟨hlength, hends.1, hsame⟩]
  · rw [if_neg hends, if_neg]
    intro hpair
    exact hends ⟨hpair.2.1, hpair.2.2 ▸ hpair.2.1⟩

variable {start k n : Nat} {opened : Option UInt8} {text line cmdbuf : List UInt8}

theorem le_start_of_mem (h : w ∈ wordsFrom start opened text line) : start ≤ w.start := by
  induction line generalizing start opened text with
  | nil =>
    rw [wordsFrom] at h
    split at h
    · simp at h
    · rw [List.mem_singleton.1 h]
  | cons c rest ih =>
    rw [wordsFrom] at h
    split at h
    · rcases List.mem_append.1 h with h | h
      · split at h
        · simp at h
        · rw [List.mem_singleton.1 h]
      · have hle := ih h
        omega
    · exact ih h

theorem single_of_mem (h : w ∈ wordsFrom start opened text line)
    (hends : w.finish < start + text.length + line.length) (hfresh : text = [] → opened = none)
    (hopen : ∀ c, text = [c] → isQuote c = true → opened = some c) :
    ∀ c, w.text = [c] → isQuote c = false := by
  induction line generalizing start opened text with
  | nil =>
    rw [wordsFrom] at h
    split at h
    · simp at h
    · rw [List.mem_singleton.1 h] at hends
      simp [Token.finish] at hends
  | cons d rest ih =>
    rw [wordsFrom] at h
    rw [List.length_cons] at hends
    split at h
    · next hblank =>
      rcases List.mem_append.1 h with h | h
      · split at h
        · simp at h
        · rw [List.mem_singleton.1 h]
          intro c hc
          by_contra hquote
          have hsome := hopen c hc (by simpa using hquote)
          simp [hblank.2] at hsome
      · refine ih h (by simp only [List.length_nil]; omega) (fun _ => rfl) ?_
        intro c hc
        simp at hc
    · refine ih h (by simp only [List.length_append, List.length_singleton]; omega) (by simp) ?_
      intro c hc hquote
      obtain ⟨rfl, rfl⟩ : text = [] ∧ d = c := by
        cases text with
        | nil => simpa using hc
        | cons a text => simp at hc
      simp [hfresh rfl, openBehind, hquote]

/-! ## The loop -/

/-- Whether `_evlSplitCmd` looks at the byte behind the NUL: it does when it
eats white space behind the word that the NUL ends. The loop is that of
`splitLoop`. -/
def splitReadsBehind (n : Nat) (st : Split) : List UInt8 → Bool
  | [] => !(decide (n ≤ st.argv.length)) && !(st.dbquoteOpen || st.squoteOpen)
  | c :: rest =>
    if st.eating && isBlank c then splitReadsBehind n { st with tmp := st.tmp + 1 } rest
    else if n ≤ st.argv.length then false
    else if isBlank c && !st.dbquoteOpen && !st.squoteOpen then
      splitReadsBehind n ⟨st.argv ++ [st.token], st.tmp + st.text.length + 1, [], false, false, true⟩ rest
    else
      splitReadsBehind n
        ⟨st.argv, st.tmp, st.text ++ [c],
          if c = 0x22 ∧ st.squoteOpen = false then !st.dbquoteOpen else st.dbquoteOpen,
          if c = 0x27 ∧ st.dbquoteOpen = false then !st.squoteOpen else st.squoteOpen, false⟩ rest

def evlSplitCmdReadsBehind (cmdbuf : List UInt8) (n : Nat) : Bool :=
  splitReadsBehind n ⟨[], 0, [], false, false, false⟩ cmdbuf

/-- The flags say which quote is open. -/
inductive Split.Flags : Bool → Bool → Option UInt8 → Prop
  | closed : Split.Flags false false none
  | dbquote : Split.Flags true false (some 0x22)
  | squote : Split.Flags false true (some 0x27)

theorem Split.Flags.closed_iff {dbquoteOpen squoteOpen : Bool}
    (h : Split.Flags dbquoteOpen squoteOpen opened) :
    (dbquoteOpen || squoteOpen) = false ↔ opened = none := by
  cases h with
  | closed => simp
  | dbquote => simp
  | squote => simp

theorem Split.Flags.next {dbquoteOpen squoteOpen : Bool} {opened : Option UInt8}
    (h : Split.Flags dbquoteOpen squoteOpen opened) (c : UInt8) :
    Split.Flags (if c = 0x22 ∧ squoteOpen = false then !dbquoteOpen else dbquoteOpen)
      (if c = 0x27 ∧ dbquoteOpen = false then !squoteOpen else squoteOpen) (openBehind c opened) := by
  by_cases hdb : c = 0x22
  · subst hdb
    cases h with
    | closed => exact .dbquote
    | dbquote => exact .closed
    | squote => exact .squote
  · by_cases hs : c = 0x27
    · subst hs
      cases h with
      | closed => exact .squote
      | dbquote => exact .dbquote
      | squote => exact .closed
    · have hquote : isQuote c = false := by simp [isQuote, hdb, hs]
      cases h with
      | closed => simpa [hdb, hs, openBehind, hquote] using Split.Flags.closed
      | dbquote => simpa [hdb, hs, openBehind] using Split.Flags.dbquote
      | squote => simpa [hdb, hs, openBehind] using Split.Flags.squote

/-- What holds of the loop behind the first character of a line. -/
structure Split.Scans (st : Split) (opened : Option UInt8) : Prop where
  flags : Split.Flags st.dbquoteOpen st.squoteOpen opened
  eating : st.eating = true ↔ st.text = []
  fresh : st.text = [] → opened = none

/-- The first `k` words, each with a blank behind it. -/
def Ended (k finish : Nat) (words : List Token) : Prop :=
  k ≤ words.length ∧ ∀ w ∈ words.take k, w.finish < finish

theorem ended_cons {finish : Nat} {words : List Token} (h : w.finish < finish) :
    Ended (k + 1) finish (w :: words) ↔ Ended k finish words := by
  simp [Ended, h]

/-- Words with blanks behind them are given, and nothing else is read. For
another word there is one token too few, or the byte behind the NUL is read. -/
def Split.Gives (n k : Nat) (st : Split) (line : List UInt8) (words : List Token) : Prop :=
  (Ended k (st.tmp + st.text.length + line.length) words ∧
      splitLoop n st line = st.argv ++ (words.take k).map Token.unquote ∧
      splitReadsBehind n st line = false) ∨
    (¬Ended k (st.tmp + st.text.length + line.length) words ∧
      (splitReadsBehind n st line = true ∨
        (splitLoop n st line).length < st.argv.length + (words.take k).length))

theorem Split.gives_zero {st : Split} {words : List Token} (hloop : splitLoop n st line = st.argv)
    (hreads : splitReadsBehind n st line = false) : st.Gives n 0 line words := by
  refine .inl ⟨⟨Nat.zero_le _, ?_⟩, ?_, hreads⟩
  · simp
  · simpa using hloop

theorem Split.Scans.token {st : Split} (h : st.Scans opened) (heating : st.eating = false) :
    st.text ≠ [] := by
  intro htext
  simp [h.eating.2 htext] at heating

theorem splitLoop_gives {st : Split} (line : List UInt8) (hst : st.Scans opened)
    (hk : n = st.argv.length + k) : st.Gives n k line (wordsFrom st.tmp opened st.text line) := by
  induction line generalizing st opened k with
  | nil =>
    cases k with
    | zero => exact st.gives_zero (by simp [splitLoop, hk]) (by simp [splitReadsBehind, hk])
    | succ k =>
      have hn : ¬n ≤ st.argv.length := by omega
      refine .inr ⟨?_, ?_⟩
      · rintro ⟨hlength, hfinish⟩
        rw [wordsFrom] at hlength hfinish
        split at hlength
        · simp at hlength
        · next htext => simp [htext, Token.finish] at hfinish
      · cases hopen : st.dbquoteOpen || st.squoteOpen with
        | false => exact .inl (by simp [splitReadsBehind, hn, hopen])
        | true =>
          have htext : st.text ≠ [] := by
            intro htext
            rw [hst.flags.closed_iff.2 (hst.fresh htext)] at hopen
            cases hopen
          exact .inr (by simp [splitLoop, hn, hopen, wordsFrom, htext])
  | cons c rest ih =>
    by_cases heat : st.eating && isBlank c
    · -- white space between words
      obtain ⟨heating, hblank⟩ : st.eating = true ∧ isBlank c = true := by simpa using heat
      have htext : st.text = [] := hst.eating.1 heating
      have hopened : opened = none := hst.fresh htext
      have hnext : Split.Scans { st with tmp := st.tmp + 1 } opened := ⟨hst.flags, hst.eating, hst.fresh⟩
      have hgives := ih (k := k) hnext hk
      have hwords : wordsFrom st.tmp opened st.text (c :: rest) = wordsFrom (st.tmp + 1) opened st.text rest := by
        simp [wordsFrom, hblank, hopened, htext]
      unfold Split.Gives at hgives ⊢
      rw [hwords, splitLoop, splitReadsBehind, if_pos heat, if_pos heat, List.length_cons]
      have hfinish : st.tmp + st.text.length + (rest.length + 1) = st.tmp + 1 + st.text.length + rest.length := by
        omega
      rw [hfinish]
      exact hgives
    · cases k with
      | zero =>
        exact st.gives_zero (by simp [splitLoop, heat, hk]) (by simp [splitReadsBehind, heat, hk])
      | succ k =>
        have hn : ¬n ≤ st.argv.length := by omega
        by_cases hblank : isBlank c ∧ opened = none
        · -- the end of a word
          have hclosed : (isBlank c && !st.dbquoteOpen && !st.squoteOpen) = true := by
            have hflags := hst.flags.closed_iff.2 hblank.2
            rw [Bool.or_eq_false_iff] at hflags
            simp [hblank.1, hflags]
          have htext : st.text ≠ [] := hst.token (by simpa [hblank.1] using heat)
          have hnext : Split.Scans
              ⟨st.argv ++ [st.token], st.tmp + st.text.length + 1, [], false, false, true⟩ none :=
            ⟨.closed, by simp, fun _ => rfl⟩
          have hgives := ih (k := k) hnext (by simp; omega)
          have hwords : wordsFrom st.tmp opened st.text (c :: rest) =
              ⟨st.tmp, st.text⟩ :: wordsFrom (st.tmp + st.text.length + 1) none [] rest := by
            simp [wordsFrom, hblank, htext]
          have hfinish : st.tmp + st.text.length + (rest.length + 1) =
              st.tmp + st.text.length + 1 + 0 + rest.length := by omega
          have hend : Token.finish ⟨st.tmp, st.text⟩ < st.tmp + st.text.length + 1 + 0 + rest.length := by
            simp only [Token.finish]
            omega
          unfold Split.Gives at hgives ⊢
          rw [hwords, splitLoop, splitReadsBehind, if_neg heat, if_neg heat, if_neg hn, if_neg hn,
            if_pos hclosed, if_pos hclosed, List.length_cons, hfinish, ended_cons hend]
          simpa [Split.token, Nat.add_assoc, Nat.add_comm 1] using hgives
        · -- a character of a word
          have hclosed : ¬(isBlank c && !st.dbquoteOpen && !st.squoteOpen) = true := by
            intro hclosed
            simp only [Bool.and_eq_true, Bool.not_eq_true'] at hclosed
            exact hblank ⟨hclosed.1.1, hst.flags.closed_iff.1 (by simp [hclosed])⟩
          have hnext : Split.Scans ⟨st.argv, st.tmp, st.text ++ [c],
              if c = 0x22 ∧ st.squoteOpen = false then !st.dbquoteOpen else st.dbquoteOpen,
              if c = 0x27 ∧ st.dbquoteOpen = false then !st.squoteOpen else st.squoteOpen, false⟩
              (openBehind c opened) :=
            ⟨hst.flags.next c, by simp, by simp⟩
          have hgives := ih (k := k + 1) hnext hk
          have hwords : wordsFrom st.tmp opened st.text (c :: rest) =
              wordsFrom st.tmp (openBehind c opened) (st.text ++ [c]) rest := by
            rw [wordsFrom, if_neg hblank]
          have hfinish : st.tmp + st.text.length + (rest.length + 1) =
              st.tmp + (st.text ++ [c]).length + rest.length := by
            rw [List.length_append, List.length_singleton]
            omega
          unfold Split.Gives at hgives ⊢
          rw [hwords, splitLoop, splitReadsBehind, if_neg heat, if_neg heat, if_neg hn, if_neg hn,
            if_neg hclosed, if_neg hclosed, List.length_cons, hfinish]
          exact hgives

theorem prefix_splitLoop (n : Nat) (st : Split) (line : List UInt8) : st.argv <+: splitLoop n st line := by
  induction line generalizing st with
  | nil =>
    rw [splitLoop]
    split
    · exact List.prefix_rfl
    · split
      · exact List.prefix_rfl
      · exact List.prefix_append _ _
  | cons c rest ih =>
    rw [splitLoop]
    split
    · exact ih { st with tmp := st.tmp + 1 }
    · split
      · exact List.prefix_rfl
      · split
        · have hnext := ih ⟨st.argv ++ [st.token], st.tmp + st.text.length + 1, [], false, false, true⟩
          exact (List.prefix_append _ _).trans hnext
        · exact ih ⟨st.argv, st.tmp, st.text ++ [c], _, _, false⟩

/-! ## What is asked of `_evlSplitCmd` -/

/-- The first words of the line are given, without their quotes, and nothing
behind the NUL is read. -/
def SplitsLine (cmdbuf : List UInt8) (n : Nat) : Prop :=
  evlSplitCmd cmdbuf n = ((lineWords cmdbuf).take n).map Token.strip ∧
    evlSplitCmdReadsBehind cmdbuf n = false

/-- No blank is in front, the line has `n` words with a blank behind each of
them, and none of these starts with the one quote and ends with the other. -/
def Splittable (cmdbuf : List UInt8) (n : Nat) : Prop :=
  n = 0 ∨
    (¬cmdbuf.head?.any isBlank ∧ n ≤ (lineWords cmdbuf).length ∧
      ∀ w ∈ (lineWords cmdbuf).take n, w.finish < cmdbuf.length ∧ ¬w.Mismatched)

theorem head_of_blank {c : UInt8} (rest : List UInt8) (hblank : isBlank c = true) (hn : n ≠ 0) :
    ∃ tokens, evlSplitCmd (c :: rest) n = ⟨0, []⟩ :: tokens := by
  have hprefix : [⟨0, []⟩] <+: evlSplitCmd (c :: rest) n := by
    have hempty : Split.token ⟨[], 0, [], false, false, false⟩ = ⟨0, []⟩ := rfl
    rw [evlSplitCmd, splitLoop]
    simpa [hblank, hn, hempty] using prefix_splitLoop n ⟨[⟨0, []⟩], 1, [], false, false, true⟩ rest
  obtain ⟨tokens, htokens⟩ := hprefix
  exact ⟨tokens, htokens.symm⟩

theorem not_splitsLine_of_blank {c : UInt8} {rest : List UInt8} (hblank : isBlank c = true)
    (hn : n ≠ 0) : ¬SplitsLine (c :: rest) n := by
  rintro ⟨hwords, -⟩
  obtain ⟨tokens, htokens⟩ := head_of_blank rest hblank hn
  have hmem : ⟨0, []⟩ ∈ ((lineWords (c :: rest)).take n).map Token.strip := by
    rw [← hwords, htokens]
    exact List.mem_cons_self
  obtain ⟨w, hw, hstrip⟩ := List.mem_map.1 hmem
  have hstart : 1 ≤ w.start := by
    have hw' := List.mem_of_mem_take hw
    rw [lineWords, wordsFrom, if_pos ⟨hblank, rfl⟩] at hw'
    exact le_start_of_mem hw'
  have hle := w.start_le_strip
  rw [hstrip] at hle
  exact absurd (hstart.trans hle) (by decide)

theorem evlSplitCmd_gives (hblank : ¬cmdbuf.head?.any isBlank) (hn : n ≠ 0) :
    (Ended n cmdbuf.length (lineWords cmdbuf) ∧
        evlSplitCmd cmdbuf n = ((lineWords cmdbuf).take n).map Token.unquote ∧
        evlSplitCmdReadsBehind cmdbuf n = false) ∨
      (¬Ended n cmdbuf.length (lineWords cmdbuf) ∧
        (evlSplitCmdReadsBehind cmdbuf n = true ∨
          (evlSplitCmd cmdbuf n).length < ((lineWords cmdbuf).take n).length)) := by
  cases cmdbuf with
  | nil =>
    refine .inr ⟨?_, .inl (by simp [evlSplitCmdReadsBehind, splitReadsBehind, hn])⟩
    rintro ⟨hlength, -⟩
    exact hn (by simpa [lineWords, wordsFrom] using hlength)
  | cons c rest =>
    have hchar : isBlank c = false := by simpa using hblank
    -- the first character is of a word; `splitLoop_gives` takes it from there
    have hscans : Split.Scans ⟨[], 0, [c], if c = 0x22 then true else false, if c = 0x27 then true else false, false⟩
        (openBehind c none) :=
      ⟨by simpa using Split.Flags.closed.next c, by simp, by simp⟩
    have hgives := splitLoop_gives (n := n) (k := n) rest hscans (by simp)
    unfold Split.Gives at hgives
    simpa [evlSplitCmd, evlSplitCmdReadsBehind, lineWords, wordsFrom, splitLoop, splitReadsBehind, hchar, hn,
      Nat.add_comm] using hgives

theorem splitsLine_zero (cmdbuf : List UInt8) : SplitsLine cmdbuf 0 := by
  cases cmdbuf with
  | nil => exact ⟨rfl, rfl⟩
  | cons c rest => simp [SplitsLine, evlSplitCmd, evlSplitCmdReadsBehind, splitLoop, splitReadsBehind]

theorem single_of_ended (hw : w ∈ lineWords cmdbuf) (hfinish : w.finish < cmdbuf.length) :
    ∀ c, w.text = [c] → isQuote c = false :=
  single_of_mem hw (by simpa using hfinish) (fun _ => rfl) (by simp)

/-- Where `_evlSplitCmd` splits a line into its words. -/
theorem splitsLine_iff (cmdbuf : List UInt8) (n : Nat) : SplitsLine cmdbuf n ↔ Splittable cmdbuf n := by
  by_cases hn : n = 0
  · subst hn
    exact ⟨fun _ => .inl rfl, fun _ => splitsLine_zero cmdbuf⟩
  · by_cases hblank : cmdbuf.head?.any isBlank
    · refine ⟨fun h => ?_, fun h => ?_⟩
      · cases cmdbuf with
        | nil => simp at hblank
        | cons c rest => exact absurd h (not_splitsLine_of_blank (by simpa using hblank) hn)
      · rcases h with h | h
        · exact absurd h hn
        · exact absurd hblank h.1
    · rcases evlSplitCmd_gives hblank hn with ⟨hended, htokens, hreads⟩ | ⟨hended, hbad⟩
      · refine ⟨fun h => .inr ⟨hblank, hended.1, fun w hw => ⟨hended.2 w hw, fun hmis => ?_⟩⟩, fun h => ⟨?_, hreads⟩⟩
        · rw [SplitsLine, htokens] at h
          exact Token.unquote_of_mismatched hmis (List.map_inj_left.1 h.1 w hw)
        · rw [htokens]
          refine List.map_congr_left fun w hw => ?_
          rcases h with h | h
          · exact absurd h hn
          · exact Token.unquote_eq_strip (h.2.2 w hw).2
              (single_of_ended (List.mem_of_mem_take hw) (h.2.2 w hw).1)
      · refine ⟨fun h => ?_, fun h => ?_⟩
        · rcases hbad with hbad | hbad
          · rw [SplitsLine, hbad] at h
            cases h.2
          · rw [h.1, List.length_map] at hbad
            exact absurd hbad (lt_irrefl _)
        · rcases h with h | h
          · exact absurd h hn
          · exact absurd ⟨h.2.1, fun w hw => (h.2.2 w hw).1⟩ hended

/-- "101 " has an empty second word for `_evlSplitCmd`, and the byte behind
the NUL is looked at. -/
theorem splitsLine_blankBehind : ¬SplitsLine [0x31, 0x30, 0x31, 0x20] 6 := by
  rw [SplitsLine]
  decide

/-- `7 'a b"` loses its second word. -/
example : (evlSplitCmd [0x37, 0x20, 0x27, 0x61, 0x20, 0x62, 0x22] 6).map Token.text = [[0x37]] := by
  decide

end Evlog.Posix
