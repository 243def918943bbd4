/-
Evlog.Printf.Items — what is in a format.

A format is a sequence of characters, `%%` being one, and conversions, and
maybe a `%` at its end (`items`). A conversion goes on up to its letter, the
first letter that is no modifier. A format that `_evlParsePrintfFormat`
accepts has just the segments that its items make, less the `%` at the end
(`parseTurns_items`), with strings or without.
-/
import Evlog.Printf.Format

namespace Evlog.Printf

open Evlog.Lib

/-! ## Items -/

def isConvLetter (c : UInt8) : Bool := isAlpha c && !modifierChars.contains c

def specOf (s : List UInt8) : List UInt8 :=
  s.takeWhile (fun c => !isConvLetter c) ++ (s.dropWhile fun c => !isConvLetter c).take 1

def behindSpec (s : List UInt8) : List UInt8 := (s.dropWhile fun c => !isConvLetter c).tail

/-- A character, a conversion without its `%`, or a `%` at the end. -/
inductive Item where
  | char (c : UInt8)
  | conv (spec : List UInt8)
  | lone
  deriving DecidableEq, Repr

def itemsLoop : Nat → List UInt8 → List Item
  | 0, _ => []
  | _, [] => []
  | _, [c] => if c = 0x25 then [.lone] else [.char c]
  | n + 1, c :: d :: rest =>
    if c = 0x25 then
      if d = 0x25 then .char 0x25 :: itemsLoop n rest
      else .conv (specOf (d :: rest)) :: itemsLoop n (behindSpec (d :: rest))
    else .char c :: itemsLoop n (d :: rest)

def items (format : List UInt8) : List Item := itemsLoop format.length format

theorem specOf_append_behindSpec (s : List UInt8) : specOf s ++ behindSpec s = s := by
  rw [specOf, behindSpec, List.append_assoc, ← List.drop_one, List.take_append_drop,
    List.takeWhile_append_dropWhile]

/-- A letter behind others that are none is where a conversion ends. -/
theorem specOf_eq {body rest : List UInt8} {c : UInt8} (hbody : ∀ b ∈ body, isConvLetter b = false)
    (hc : isConvLetter c = true) :
    specOf (body ++ c :: rest) = body ++ [c] ∧ behindSpec (body ++ c :: rest) = rest := by
  have hpos : ∀ b ∈ body, (!isConvLetter b) = true := fun b hb => by rw [hbody b hb]; rfl
  have htake : (body ++ c :: rest).takeWhile (fun c => !isConvLetter c) = body := by
    rw [List.takeWhile_append_of_pos hpos, List.takeWhile_cons_of_neg (by simp [hc]), List.append_nil]
  have hdrop : (body ++ c :: rest).dropWhile (fun c => !isConvLetter c) = c :: rest := by
    rw [List.dropWhile_append_of_pos hpos, List.dropWhile_cons_of_neg (by simp [hc])]
  rw [specOf, behindSpec, htake, hdrop]
  exact ⟨rfl, rfl⟩

variable {s f rest : List UInt8}

theorem length_behindSpec_lt {c : UInt8} : (behindSpec (c :: s)).length < (c :: s).length := by
  have hsuffix := List.dropWhile_suffix (fun c => !isConvLetter c) (l := c :: s)
  have hle := hsuffix.length_le
  rw [behindSpec, List.length_tail]
  rw [List.length_cons] at hle ⊢
  omega

theorem itemsLoop_fuel {n m : Nat} {format : List UInt8} (hn : format.length ≤ n) (hm : format.length ≤ m) :
    itemsLoop n format = itemsLoop m format := by
  induction n generalizing m format with
  | zero =>
    obtain rfl := List.eq_nil_of_length_eq_zero (Nat.le_zero.1 hn)
    cases m <;> rfl
  | succ n ih =>
    match format, m with
    | [], 0 => rfl
    | [], _ + 1 => rfl
    | [_], m + 1 => rfl
    | c :: d :: rest, m + 1 =>
      simp only [List.length_cons] at hn hm
      have hbehind := length_behindSpec_lt (c := d) (s := rest)
      rw [List.length_cons] at hbehind
      have hrest : itemsLoop n rest = itemsLoop m rest := ih (by omega) (by omega)
      have hspec : itemsLoop n (behindSpec (d :: rest)) = itemsLoop m (behindSpec (d :: rest)) :=
        ih (by omega) (by omega)
      have htail : itemsLoop n (d :: rest) = itemsLoop m (d :: rest) :=
        ih (by rw [List.length_cons]; omega) (by rw [List.length_cons]; omega)
      rw [itemsLoop, itemsLoop, hrest, hspec, htail]

/-! ## A conversion that is accepted -/

theorem scanFlags_ok {flags fl : List UInt8} (h : scanFlags flags s = .ok (fl, f)) :
    ∃ added, s = added ++ f ∧ fl = flags ++ added ∧ ∀ b ∈ added, b ∈ flagChars := by
  induction s generalizing flags with
  | nil => cases h
  | cons c s ih =>
    rw [scanFlags] at h
    split at h
    · next hflag =>
      split at h
      · cases h
      · obtain ⟨added, rfl, rfl, hadded⟩ := ih h
        refine ⟨c :: added, rfl, by rw [List.append_assoc]; rfl, fun b hb => ?_⟩
        rcases List.mem_cons.1 hb with rfl | hb
        · exact hflag
        · exact hadded b hb
    · cases h
      exact ⟨[], rfl, (List.append_nil _).symm, List.forall_mem_nil _⟩

def isNumberChar (b : UInt8) : Bool :=
  CString.isSpace b || CString.isDigit b || b == 0x2d || b == 0x2b || b == 0x2e

theorem sign_eq (s : List UInt8) : ∃ ate, s = ate ++ (CString.sign s).2 ∧ ∀ b ∈ ate, b = 0x2d ∨ b = 0x2b := by
  unfold CString.sign
  split
  · exact ⟨[0x2d], rfl, by simp⟩
  · exact ⟨[0x2b], rfl, by simp⟩
  · exact ⟨[], rfl, List.forall_mem_nil _⟩

/-- `strtoul` goes over no period, and where it goes over nothing it has
found 0. -/
theorem strtoul10_eq (s : List UInt8) :
    ∃ ate, s = ate ++ (strtoul10 s).2 ∧ (∀ b ∈ ate, isNumberChar b = true ∧ b ≠ 0x2e) ∧
      (ate = [] → (strtoul10 s).1 = 0) := by
  unfold strtoul10
  dsimp only
  split
  · exact ⟨[], rfl, List.forall_mem_nil _, fun _ => rfl⟩
  · rename_i hdigits
    obtain ⟨signs, hsign, hsigns⟩ := sign_eq (s.dropWhile CString.isSpace)
    generalize (CString.sign (s.dropWhile CString.isSpace)).2 = l at hsign hdigits ⊢
    have hprefix := List.takeWhile_prefix (p := CString.isDigit) (l := l)
    refine ⟨s.takeWhile CString.isSpace ++ (signs ++ l.takeWhile CString.isDigit), ?_, fun b hb => ?_, ?_⟩
    · conv_lhs => rw [← List.takeWhile_append_dropWhile (p := CString.isSpace) (l := s), hsign]
      rw [List.append_assoc, List.append_assoc, List.prefix_iff_eq_append.1 hprefix]
    · rw [List.mem_append, List.mem_append] at hb
      rcases hb with hb | hb | hb
      · have hspace := List.mem_takeWhile_imp hb
        exact ⟨by simp [isNumberChar, hspace], fun hdot => absurd (hdot ▸ hspace) (by decide)⟩
      · rcases hsigns b hb with rfl | rfl <;> decide
      · have hdigit := List.mem_takeWhile_imp hb
        exact ⟨by simp [isNumberChar, hdigit], fun hdot => absurd (hdot ▸ hdigit) (by decide)⟩
    · intro hnil
      exact absurd (List.append_eq_nil_iff.1 (List.append_eq_nil_iff.1 hnil).2).2 hdigits

theorem scanNumbers_some {width precision : UInt64} (h : scanNumbers s = some (width, precision, f)) :
    ∃ ate, s = ate ++ f ∧ ∀ b ∈ ate, isNumberChar b = true := by
  obtain ⟨ate, heq, hate, -⟩ := strtoul10_eq s
  unfold scanNumbers at h
  rcases hs : strtoul10 s with ⟨w, c⟩
  rw [hs] at h heq
  dsimp only at h heq
  split at h
  · next f' =>
    obtain ⟨ate', heq', hate', -⟩ := strtoul10_eq f'
    split at h
    · cases h
    · cases h
      refine ⟨ate ++ 0x2e :: ate', ?_, fun b hb => ?_⟩
      · rw [List.append_assoc, List.cons_append, ← heq']
        exact heq
      · rcases List.mem_append.1 hb with hb | hb
        · exact (hate b hb).1
        · rcases List.mem_cons.1 hb with rfl | hb
          · rfl
          · exact (hate' b hb).1
  · cases h
    exact ⟨ate, heq, fun b hb => (hate b hb).1⟩

theorem scanModifiers_some {mods : List UInt8} {c : UInt8}
    (h : scanModifiers s = some (mods, c, rest)) :
    s = mods ++ c :: rest ∧ (∀ b ∈ mods, b ∈ modifierChars) ∧ c ∉ modifierChars := by
  induction s generalizing mods with
  | nil => cases h
  | cons b s ih =>
    rw [scanModifiers] at h
    split at h
    · next hb =>
      obtain ⟨⟨mods', c', rest'⟩, hscan, heq⟩ := Option.map_eq_some_iff.1 h
      cases heq
      obtain ⟨rfl, hmods, hc⟩ := ih hscan
      exact ⟨rfl, List.forall_mem_cons.2 ⟨hb, hmods⟩, hc⟩
    · next hb =>
      cases h
      exact ⟨rfl, List.forall_mem_nil _, hb⟩

theorem not_convLetter_of_number {b : UInt8} (h : isNumberChar b = true) :
    isConvLetter b = false ∧ b ≠ 0x5b := by
  simp only [isNumberChar, CString.isSpace, CString.isDigit, Bool.or_eq_true, Bool.and_eq_true,
    decide_eq_true_eq, beq_iff_eq, UInt8.le_iff_toNat_le, ← UInt8.toNat_inj] at h
  simp only [isConvLetter, isAlpha, UInt8.le_iff_toNat_le, Ne, ← UInt8.toNat_inj, Bool.and_eq_false_iff,
    Bool.or_eq_false_iff, decide_eq_false_iff_not]
  simp at h ⊢
  omega

theorem not_convLetter_of_flag {b : UInt8} (h : b ∈ flagChars) : isConvLetter b = false := by
  simp only [flagChars, List.mem_cons, List.not_mem_nil, or_false] at h
  rcases h with rfl | rfl | rfl | rfl | rfl | rfl | rfl <;> decide

theorem not_convLetter_of_modifier {b : UInt8} (h : b ∈ modifierChars) : isConvLetter b = false ∧ b ≠ 0x5b := by
  simp only [modifierChars, List.mem_cons, List.not_mem_nil, or_false] at h
  rcases h with rfl | rfl | rfl | rfl | rfl | rfl | rfl <;> decide

/-- A conversion that is accepted is what is there up to its letter. -/
theorem evlParseFmtConvSpec_ok {c : List UInt8} {pf : ParsedFormat} (h : evlParseFmtConvSpec c = .ok pf) :
    c.take pf.fmLength = specOf c ∧ c.drop pf.fmLength = behindSpec c ∧ 0 < pf.fmLength ∧
      pf.fmArray = (specOf c).contains 0x5b := by
  unfold evlParseFmtConvSpec at h
  split at h
  · cases h
  · cases h
  · next flags f hflags =>
    split at h
    · cases h
    · next width precision f' hnumbers =>
      split at h
      · cases h
      · next mods letter rest hmods =>
        split at h
        · cases h
        · split at h
          · cases h
          · next halpha =>
            obtain ⟨added, rfl, hadd, hflag⟩ := scanFlags_ok hflags
            rw [List.nil_append] at hadd
            subst hadd
            obtain ⟨ate, rfl, hate⟩ := scanNumbers_some hnumbers
            obtain ⟨rfl, hmem, hletter⟩ := scanModifiers_some hmods
            cases h
            have hconv : isConvLetter letter = true := by
              rw [isConvLetter, Bool.and_eq_true, Bool.not_eq_true', List.contains_eq_mem, decide_eq_false_iff_not]
              exact ⟨by simpa using halpha, hletter⟩
            have hbody : ∀ b ∈ flags ++ (ate ++ mods), isConvLetter b = false := by
              intro b hb
              rw [List.mem_append, List.mem_append] at hb
              rcases hb with hb | hb | hb
              · exact not_convLetter_of_flag (hflag b hb)
              · exact (not_convLetter_of_number (hate b hb)).1
              · exact (not_convLetter_of_modifier (hmem b hb)).1
            have hassoc : flags ++ (ate ++ (mods ++ letter :: rest)) = (flags ++ (ate ++ mods)) ++ letter :: rest := by
              simp only [List.append_assoc]
            have hlen : (flags ++ (ate ++ mods) ++ letter :: rest).length - rest.length
                = (flags ++ (ate ++ mods) ++ [letter]).length := by
              simp only [List.length_append, List.length_cons, List.length_nil]
              omega
            have hsplit : flags ++ (ate ++ mods) ++ letter :: rest
                = (flags ++ (ate ++ mods) ++ [letter]) ++ rest := by
              simp only [List.append_assoc, List.singleton_append]
            obtain ⟨hspec, hbehind⟩ := @specOf_eq _ rest _ hbody hconv
            rw [hassoc, hspec, hbehind]
            dsimp only
            rw [hlen, hsplit]
            refine ⟨List.take_left, List.drop_left, by simp, ?_⟩
            -- the bracket is a flag
            have hother : 0x5b ∉ ate ++ mods ++ [letter] := by
              simp only [List.mem_append, List.mem_singleton, not_or]
              refine ⟨⟨fun hb => ?_, fun hb => ?_⟩, fun hb => ?_⟩
              · exact (not_convLetter_of_number (hate _ hb)).2 rfl
              · exact (not_convLetter_of_modifier (hmem _ hb)).2 rfl
              · exact absurd hconv (by rw [← hb]; decide)
            rw [Bool.eq_iff_iff, List.contains_iff_mem, List.contains_iff_mem, List.append_assoc, List.mem_append,
              or_iff_left hother]

/-! ## The items of the segments -/

theorem items_singleton (c : UInt8) : items [c] = if c = 0x25 then [.lone] else [.char c] := rfl

theorem items_cons (c d : UInt8) (rest : List UInt8) : items (c :: d :: rest) =
      if c = 0x25 then
        if d = 0x25 then .char 0x25 :: items rest
        else .conv (specOf (d :: rest)) :: items (behindSpec (d :: rest))
      else .char c :: items (d :: rest) := by
  have hbehind := length_behindSpec_lt (c := d) (s := rest)
  unfold items
  rw [List.length_cons, itemsLoop, @itemsLoop_fuel (d :: rest).length _ rest (Nat.le_succ _) le_rfl,
    itemsLoop_fuel (Nat.le_of_lt hbehind) le_rfl]

theorem collectStringSegment_items (sp : List UInt8) :
    ∃ tail, items sp = (collectStringSegment sp).1.map .char ++ tail ∧
      ((collectStringSegment sp).2 = [] → tail = [] ∨ tail = [.lone]) ∧
      ((collectStringSegment sp).2 ≠ [] → tail =
        .conv (specOf (collectStringSegment sp).2) :: items (behindSpec (collectStringSegment sp).2)) := by
  fun_induction collectStringSegment sp with
  | case1 => exact ⟨[], rfl, fun _ => .inl rfl, fun h => absurd rfl h⟩
  | case2 => exact ⟨[.lone], rfl, fun _ => .inr rfl, fun h => absurd rfl h⟩
  | case3 c hc => exact ⟨[], by rw [items_singleton, if_neg hc]; rfl, fun _ => .inl rfl, fun h => absurd rfl h⟩
  | case4 rest r ih =>
    obtain ⟨tail, heq, htail⟩ := ih
    exact ⟨tail, by rw [items_cons, if_pos rfl, if_pos rfl, heq]; rfl, htail⟩
  | case5 d rest hd =>
    exact ⟨_, by rw [items_cons, if_pos rfl, if_neg hd]; rfl, nofun, fun _ => rfl⟩
  | case6 c d rest hc r ih =>
    obtain ⟨tail, heq, htail⟩ := ih
    exact ⟨tail, by rw [items_cons, if_neg hc, heq]; rfl, htail⟩

theorem skipStringSegment_eq (sp : List UInt8) : skipStringSegment sp = (collectStringSegment sp).2 := by
  fun_induction collectStringSegment sp with
  | case1 => rfl
  | case2 => rfl
  | case3 => rfl
  | case4 rest r ih => rw [skipStringSegment, if_pos rfl, if_pos rfl, ih]
  | case5 d rest hd => rw [skipStringSegment, if_pos rfl, if_neg hd]
  | case6 c d rest hc r ih => rw [skipStringSegment, if_neg hc, ih]

theorem length_collectStringSegment (sp : List UInt8) : (collectStringSegment sp).2.length ≤ sp.length := by
  fun_induction collectStringSegment sp with
  | case1 => exact le_rfl
  | case2 => exact Nat.zero_le _
  | case3 => exact Nat.zero_le _
  | case4 rest r ih => exact ih.trans (by simp only [List.length_cons]; omega)
  | case5 => exact Nat.le_succ _
  | case6 c d rest hc r ih => exact ih.trans (Nat.le_succ _)

def Segment.items : Segment → List Item
  | .string s => s.map .char
  | .printfConv _ userfmt => [.conv (userfmt.getD []).tail]

def Segment.Made : Segment → Prop
  | .string _ => True
  | .printfConv pf userfmt =>
    ∃ spec, userfmt = some (0x25 :: spec) ∧ pf.fmArray = spec.contains 0x5b

def stringSegments (s : List UInt8) : List Segment := if s = [] then [] else [.string s]

theorem items_stringSegments (s : List UInt8) : (stringSegments s).flatMap Segment.items = s.map .char := by
  unfold stringSegments
  split
  · next h => rw [h]; rfl
  · rw [List.flatMap_singleton]; rfl

theorem parseTurns_strings (n : Nat) (sp : List UInt8) (hsp : sp ≠ []) :
    parseTurns true (n + 1) sp =
      match collectConversionSegment true (collectStringSegment sp).2 with
      | .overrun => .overrun
      | .bad => .bad
      | .ok (seg, rest) =>
        match parseTurns true n rest with
        | .overrun => .overrun
        | .bad => .bad
        | .ok list => .ok (stringSegments (collectStringSegment sp).1 ++ seg.toList ++ list) := by
  obtain ⟨c, rest, rfl⟩ := List.exists_cons_of_ne_nil hsp
  rfl

theorem collectConversionSegment_ok {c : List UInt8} {seg : Option Segment}
    (h : collectConversionSegment true c = .ok (seg, rest)) :
    (c = [] ∧ seg = none ∧ rest = []) ∨
      ∃ pf, c ≠ [] ∧ evlParseFmtConvSpec c = .ok pf ∧ seg = some (.printfConv pf (some (0x25 :: specOf c))) ∧
        rest = behindSpec c ∧ pf.fmArray = (specOf c).contains 0x5b := by
  unfold collectConversionSegment at h
  split at h
  · cases h
    exact .inl ⟨rfl, rfl, rfl⟩
  · next b s =>
    split at h
    · cases h
    · cases h
    · next pf hpf =>
      obtain ⟨htake, hdrop, -, harray⟩ := evlParseFmtConvSpec_ok hpf
      cases h
      rw [htake, hdrop]
      exact .inr ⟨pf, List.cons_ne_nil _ _, hpf, rfl, rfl, harray⟩

/-- A format that is accepted has the segments that its items make. -/
theorem parseTurns_items {n : Nat} {sp : List UInt8} (hn : sp.length ≤ n) {segs : List Segment}
    (h : parseTurns true n sp = .ok segs) :
    segs.flatMap Segment.items = (items sp).filter (· ≠ .lone) ∧ ∀ seg ∈ segs, seg.Made := by
  induction n generalizing sp segs with
  | zero =>
    obtain rfl := List.eq_nil_of_length_eq_zero (Nat.le_zero.1 hn)
    cases h
    exact ⟨rfl, nofun⟩
  | succ n ih =>
    by_cases hsp : sp = []
    · subst hsp
      cases h
      exact ⟨rfl, nofun⟩
    · obtain ⟨tail, hitems, hnil, hcons⟩ := collectStringSegment_items sp
      have hchars : ∀ s : List UInt8, (s.map Item.char).filter (· ≠ .lone) = s.map .char := by
        intro s
        rw [List.filter_eq_self]
        intro item hitem
        obtain ⟨c, -, rfl⟩ := List.mem_map.1 hitem
        rfl
      have hstrings : ∀ seg ∈ stringSegments (collectStringSegment sp).1, seg.Made := by
        intro seg hseg
        unfold stringSegments at hseg
        split at hseg
        · cases hseg
        · rw [List.mem_singleton.1 hseg]
          trivial
      rw [parseTurns_strings n sp hsp] at h
      split at h
      · cases h
      · cases h
      · next seg rest hconv =>
        split at h
        · cases h
        · cases h
        · next list hlist =>
          cases h
          obtain ⟨hc, rfl, rfl⟩ | ⟨pf, hc, hpf, rfl, rfl, harray⟩ := collectConversionSegment_ok hconv
          · have hlist' : list = [] := by
              cases n <;> exact (Parsed.ok.inj hlist).symm
            subst hlist'
            rw [hitems, List.filter_append, hchars]
            refine ⟨?_, by simpa using hstrings⟩
            rw [Option.toList_none, List.append_nil, List.append_nil, items_stringSegments]
            rcases hnil hc with rfl | rfl <;> simp
          · have hlen := length_collectStringSegment sp
            have hlt : (behindSpec (collectStringSegment sp).2).length < (collectStringSegment sp).2.length := by
              obtain ⟨b, s, hbs⟩ := List.exists_cons_of_ne_nil hc
              rw [hbs]
              exact length_behindSpec_lt
            obtain ⟨hrest, hmade⟩ := ih (by omega) hlist
            rw [hitems, hcons hc, List.filter_append, hchars]
            constructor
            · rw [List.flatMap_append, List.flatMap_append, items_stringSegments, hrest, List.append_assoc]
              simp [Segment.items]
            · intro seg hseg
              rw [List.mem_append, List.mem_append] at hseg
              rcases hseg with (hseg | hseg) | hseg
              · exact hstrings seg hseg
              · rw [Option.mem_toList, Option.some.injEq] at hseg
                rw [← hseg]
                exact ⟨_, rfl, harray⟩
              · exact hmade seg hseg

def conversions (segs : List Segment) : List ParsedFormat :=
  segs.filterMap fun
    | .string _ => none
    | .printfConv pf _ => some pf

theorem conversions_append (segs segs' : List Segment) :
    conversions (segs ++ segs') = conversions segs ++ conversions segs' := List.filterMap_append

def Parsed.map {α β : Type} (f : α → β) : Parsed α → Parsed β
  | .overrun => .overrun
  | .bad => .bad
  | .ok a => .ok (f a)

theorem parseTurns_conversions (n : Nat) (sp : List UInt8) : parseTurns false n sp =
      (parseTurns true n sp).map fun segs => (conversions segs).map (.printfConv · none) := by
  induction n generalizing sp with
  | zero => cases sp <;> rfl
  | succ n ih =>
    by_cases hsp : sp = []
    · subst hsp
      rfl
    · have hfalse : parseTurns false (n + 1) sp =
          match collectConversionSegment false (collectStringSegment sp).2 with
          | .overrun => .overrun
          | .bad => .bad
          | .ok (seg, rest) =>
            match parseTurns false n rest with
            | .overrun => .overrun
            | .bad => .bad
            | .ok list => .ok (seg.toList ++ list) := by
        rw [← skipStringSegment_eq]
        obtain ⟨c, rest, rfl⟩ := List.exists_cons_of_ne_nil hsp
        rfl
      rw [hfalse, parseTurns_strings n sp hsp]
      have hstrings : conversions (stringSegments (collectStringSegment sp).1) = [] := by
        unfold stringSegments
        split <;> rfl
      unfold collectConversionSegment
      cases (collectStringSegment sp).2 with
      | nil =>
        dsimp only
        rw [ih]
        cases parseTurns true n [] with
        | ok list =>
          dsimp only [Parsed.map]
          rw [conversions_append, conversions_append, hstrings]
          rfl
        | _ => rfl
      | cons b s =>
        dsimp only
        cases evlParseFmtConvSpec (b :: s) with
        | ok pf =>
          dsimp only
          rw [ih]
          cases parseTurns true n ((b :: s).drop pf.fmLength) with
          | ok list =>
            dsimp only [Parsed.map]
            rw [conversions_append, conversions_append, hstrings]
            rfl
          | _ => rfl
        | _ => rfl

end Evlog.Printf
