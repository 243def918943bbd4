/-
Evlog.Printf.HostileTheorems — what a record can do to those who view it.

Whatever the data of a record are, `formatConversion` finds what it reads, or
comes to the end of them (`collectPassed_cases`, `formatElements_base`), and
what it passes is of the type that it has read. What can go wrong is in the
format: `formatHarmless_iff` says that the formatting goes well just
if no conversion is cut off, and every conversion that the data reach is well
formed, and short if it is one of an array.
-/
import Evlog.Printf.RefusalTheorems

namespace Evlog.Printf

open Evlog.Lib
open Evlog.Posix (CharPtr)
open Evlog.Template (BaseType)

/-! ## Reading anything -/

variable {b : Recbuf}

theorem Recbuf.ahead_eq_nil (h : b.data.length ≤ b.next) : b.ahead = [] :=
  List.drop_eq_nil_of_le h

theorem collectBytes_cases (b : Recbuf) (n : Nat) :
    n ≤ b.ahead.length ∨ ∃ b', collectBytes b n = some (none, b') ∧ b'.ahead = [] := by
  by_cases h : n ≤ b.ahead.length
  · exact .inl h
  · rw [b.length_ahead] at h
    refine .inr ⟨_, if_pos ?_, Recbuf.ahead_eq_nil le_rfl⟩
    unfold Recbuf.left
    omega

variable {data s rest bytes delim behind spec fl f : List UInt8}

theorem findNull_of_not_mem {n next : Nat} (h : 0 ∉ data.drop next) (hn : data.length - next ≤ n) :
    ∃ next', findNull data n next = some next' ∧ data.length ≤ next' := by
  induction n generalizing next with
  | zero => exact ⟨next, rfl, by omega⟩
  | succ n ih =>
    rw [findNull]
    split
    · next hlt =>
      rw [List.getElem?_eq_getElem hlt]
      dsimp only
      rw [List.drop_eq_getElem_cons hlt, List.mem_cons, not_or] at h
      rw [if_neg fun h0 => h.1 h0.symm]
      exact ih h.2 (by omega)
    · next hlt => exact ⟨next, rfl, by omega⟩

theorem exists_of_mem_zero {l : List UInt8} (h : 0 ∈ l) : ∃ s rest, l = s ++ 0 :: rest ∧ 0 ∉ s := by
  obtain ⟨s, rest, rfl, hs⟩ := List.eq_append_cons_of_mem h
  exact ⟨s, rest, rfl, hs⟩

theorem collectString_cases (b : Recbuf) :
    0 ∈ b.ahead ∨ ∃ b', collectString b = some (none, b') ∧ b'.ahead = [] := by
  by_cases h : 0 ∈ b.ahead
  · exact .inl h
  · obtain ⟨next, hnext, hle⟩ := findNull_of_not_mem h (Nat.sub_le _ _)
    refine .inr ⟨{ b with next }, ?_, Recbuf.ahead_eq_nil hle⟩
    rw [collectString, hnext, Option.map_some, if_neg (by omega)]

theorem collectWchars_cases (n : Nat) (s : List UInt32) (b : Recbuf) (hn : b.ahead.length < n) :
    (∃ cs rest, 0 ∉ cs ∧ b.ahead = wideBytes (cs ++ [0]) ++ rest) ∨
      ∃ b', collectWchars n s b = some (none, b') ∧ b'.ahead = [] := by
  induction n generalizing s b with
  | zero => omega
  | succ n ih =>
    rcases collectBytes_cases b 4 with hfour | ⟨b', hread, hb'⟩
    · obtain ⟨bytes, rest, hahead, hlen⟩ : ∃ bytes rest, b.ahead = bytes ++ rest ∧ bytes.length = 4 :=
        ⟨b.ahead.take 4, b.ahead.drop 4, (List.take_append_drop 4 _).symm, by
          rw [List.length_take]
          omega⟩
      have hread := collectBytes_of_ahead hahead (by omega)
      have hbehind := Recbuf.ahead_skip_of hahead
      rw [hlen] at hread hbehind
      have hbytes : leBytes 4 (UInt32.ofNat (leNat bytes)).toNat = bytes := by
        have hlt : leNat bytes < 256 ^ 4 := by
          rw [← hlen]
          exact leNat_lt bytes
        rw [UInt32.toNat_ofNat_of_lt' hlt, ← hlen, leBytes_leNat]
      have hcode : collectWchars (n + 1) s b =
          if UInt32.ofNat (leNat bytes) = 0 then some (some s, b.skip 4)
          else collectWchars n (s ++ [UInt32.ofNat (leNat bytes)]) (b.skip 4) := by
        rw [collectWchars, hread]
      rw [hcode]
      by_cases hzero : UInt32.ofNat (leNat bytes) = 0
      · refine .inl ⟨[], rest, List.not_mem_nil, ?_⟩
        rw [hahead, ← hbytes, hzero]
        rfl
      · rw [if_neg hzero]
        have hlen' : (b.skip 4).ahead.length < n := by
          rw [hbehind]
          rw [hahead, List.length_append] at hn
          omega
        rcases ih (s ++ [UInt32.ofNat (leNat bytes)]) (b.skip 4) hlen' with ⟨cs, rest', hcs, hrest'⟩ | hend
        · refine .inl ⟨UInt32.ofNat (leNat bytes) :: cs, rest', ?_, ?_⟩
          · rw [List.mem_cons, not_or]
            exact ⟨fun h0 => hzero h0.symm, hcs⟩
          · rw [hbehind] at hrest'
            rw [hahead, hrest']
            conv_lhs => rw [← hbytes]
            exact (List.append_assoc _ _ _).symm
        · exact .inr hend
    · refine .inr ⟨b', ?_, hb'⟩
      rw [collectWchars, hread]

/-- An argument of the type is read, or the end of the record is come to. -/
theorem collectPassed_cases {type : BaseType} (htype : Passable type) (b : Recbuf) :
    (∃ p : Passed, ∃ rest, p.IsOf type ∧ b.ahead = p.bytes ++ rest) ∨
      ∃ b', collectPassed type b = some (none, b') ∧ b'.ahead = [] := by
  rcases htype with rfl | rfl | hpassed
  · rcases collectString_cases b with hmem | ⟨b', hread, hb'⟩
    · obtain ⟨s, rest, hahead, hs⟩ := exists_of_mem_zero hmem
      exact .inl ⟨.string s, rest, ⟨rfl, hs⟩, by rw [hahead, Passed.bytes, List.append_assoc]; rfl⟩
    · exact .inr ⟨b', by rw [collectPassed, hread]; rfl, hb'⟩
  · have hlen : b.ahead.length < b.data.length + 1 := by
      rw [b.length_ahead]
      omega
    rcases collectWchars_cases _ [] b hlen with ⟨cs, rest, hcs, hahead⟩ | ⟨b', hread, hb'⟩
    · exact .inl ⟨.wstring cs, rest, ⟨rfl, hcs⟩, hahead⟩
    · exact .inr ⟨b', by rw [collectPassed, collectWstring, hread]; rfl, hb'⟩
  · rcases collectBytes_cases b (ConvType.base type).size with hsize | ⟨b', hread, hb'⟩
    · refine .inl ⟨.scalar type (b.ahead.take (ConvType.base type).size), b.ahead.drop (ConvType.base type).size,
        ⟨rfl, List.length_take_of_le hsize, hpassed⟩, (List.take_append_drop _ _).symm⟩
    · refine .inr ⟨b', ?_, hb'⟩
      rw [collectPassed_scalar hpassed, hread]
      rfl

/-! ## Elements -/

def Passes (type : ConvType) (n : Nat) (bytes : List UInt8) : Prop :=
  0 < n ∧ ∃ type', type = .base type' ∧ ∃ p : Passed, ∃ rest, p.IsOf type' ∧ bytes = p.bytes ++ rest

/-- All the elements are there. With `%n` there are none, and without a type
there must be none. -/
def Filled (type : ConvType) (n : Nat) (bytes rest : List UInt8) : Prop :=
  match type with
  | .base type => ∃ ps : List Passed, ps.length = n ∧ (∀ p ∈ ps, p.IsOf type) ∧
      bytes = ps.flatMap Passed.bytes ++ rest
  | .special => bytes = rest
  | .none => n = 0 ∧ bytes = rest

/-- What becomes of elements of a type: something is passed if it is there, and
then either all are, or the end of the record is come to. -/
theorem formatElements_base {type : BaseType} (htype : Passable type) (fmt delim : List UInt8) (n : Nat)
    (first : Bool) (b : Recbuf) :
    ∃ calls b', formatElements fmt (.base type) delim n first b = some (calls, false, b') ∧
      (∀ c ∈ calls, c = .text delim ∨ ∃ p : Passed, p.IsOf type ∧ c = .conversion fmt p) ∧
      ((∃ p, .conversion fmt p ∈ calls) ↔ Passes (.base type) n b.ahead) ∧
      (Filled (.base type) n b.ahead b'.ahead ∨ b'.ahead = []) := by
  induction n generalizing first b with
  | zero =>
    refine ⟨[], b, rfl, nofun, ?_, .inl ⟨[], rfl, nofun, rfl⟩⟩
    simp [Passes]
  | succ n ih =>
    have hhead : ∀ c ∈ (if first then [] else [Call.text delim]), c = .text delim := by
      cases first <;> simp
    rcases collectPassed_cases htype b with ⟨p, rest, hp, hahead⟩ | ⟨b', hread, hb'⟩
    · obtain ⟨calls, b', hcalls, hall, -, hrest⟩ := ih false (b.skip p.bytes.length)
      have hskip := Recbuf.ahead_skip_of hahead
      refine ⟨(if first then [] else [.text delim]) ++ .conversion fmt p :: calls, b', ?_, ?_, ?_, ?_⟩
      · rw [formatElements, collectPassed_of_ahead hp hahead]
        dsimp only
        rw [hcalls]
        rfl
      · intro c hc
        rw [List.mem_append, List.mem_cons] at hc
        rcases hc with hc | rfl | hc
        · exact .inl (hhead c hc)
        · exact .inr ⟨p, hp, rfl⟩
        · exact hall c hc
      · exact iff_of_true ⟨p, List.mem_append_right _ List.mem_cons_self⟩
          ⟨Nat.succ_pos n, type, rfl, p, rest, hp, hahead⟩
      · refine hrest.imp_left ?_
        rintro ⟨ps, hlen, hps, hahead'⟩
        refine ⟨p :: ps, by rw [List.length_cons, hlen], List.forall_mem_cons.2 ⟨hp, hps⟩, ?_⟩
        rw [hskip] at hahead'
        rw [hahead, hahead', List.flatMap_cons, List.append_assoc]
    · refine ⟨if first then [] else [.text delim], b', ?_, fun c hc => .inl (hhead c hc), ?_, .inr hb'⟩
      · rw [formatElements, hread]
      · refine iff_of_false ?_ ?_
        · rintro ⟨p, hp⟩
          cases hhead _ hp
        · rintro ⟨-, type', heq, p, rest, hp, hahead⟩
          cases heq
          rw [collectPassed_of_ahead hp hahead] at hread
          cases hread

theorem formatElements_cases {type : ConvType} (htype : ∀ type', type = .base type' → Passable type')
    (fmt delim : List UInt8) (n : Nat) (b : Recbuf) :
    ∃ calls failed b', formatElements fmt type delim n true b = some (calls, failed, b') ∧
      (∀ c ∈ calls, c = .text delim ∨ ∃ type' p, type = .base type' ∧ p.IsOf type' ∧ c = .conversion fmt p) ∧
      ((∃ p, .conversion fmt p ∈ calls) ↔ Passes type n b.ahead) ∧
      (∀ rest, Filled type n b.ahead rest → failed = false ∧ b'.ahead = rest) ∧
      ((∀ rest, ¬Filled type n b.ahead rest) → failed = true ∨ b'.ahead = []) := by
  cases type with
  | none =>
    cases n with
    | zero =>
      refine ⟨[], false, b, rfl, nofun, by simp [Passes], fun rest h => ⟨rfl, h.2⟩, fun h => ?_⟩
      exact absurd ⟨rfl, rfl⟩ (h b.ahead)
    | succ n =>
      refine ⟨[], true, b, rfl, nofun, by simp [Passes], fun rest h => ?_, fun _ => .inl rfl⟩
      cases h.1
  | special =>
    refine ⟨[], false, b, by cases n <;> rfl, nofun, by simp [Passes], fun rest h => ⟨rfl, h⟩, fun h => ?_⟩
    exact absurd rfl (h b.ahead)
  | base type =>
    obtain ⟨calls, b', hcalls, hall, hpasses, hrest⟩ :=
      formatElements_base (htype type rfl) fmt delim n true b
    refine ⟨calls, false, b', hcalls, fun c hc => ?_, hpasses, ?_, fun hno => ?_⟩
    · rcases hall c hc with h | ⟨p, hp, rfl⟩
      · exact .inl h
      · exact .inr ⟨type, p, rfl, hp, rfl⟩
    · rintro rest ⟨ps, rfl, hps, hahead⟩
      rw [formatElements_of_ahead ps hps fmt delim true hahead] at hcalls
      cases hcalls
      exact ⟨rfl, Recbuf.ahead_skip_of hahead⟩
    · exact .inr (hrest.resolve_left (hno _))

/-! ## Conversions -/

def ArrayHead (bytes : List UInt8) (n : Nat) (delim behind : List UInt8) : Prop :=
  ∃ dim : List UInt8, dim.length = 4 ∧ 0 ∉ delim ∧ bytes = dim ++ (delim ++ 0 :: behind) ∧
    n = (UInt32.ofNat (leNat dim)).toInt32.toInt.toNat

/-- How many elements a conversion has in the data, and where they are. -/
def Head (pf : ParsedFormat) (bytes : List UInt8) (n : Nat) (delim behind : List UInt8) : Prop :=
  if pf.fmArray then ArrayHead bytes n delim behind else n = 1 ∧ delim = [] ∧ behind = bytes

/-- The type of a conversion, as `formatConversion` has it. -/
def ParsedFormat.type (pf : ParsedFormat) : ConvType := evlGetTypeFromConversion pf (!pf.fmArray) true

def ParsedFormat.passedFmt (pf : ParsedFormat) (fmt : List UInt8) : List UInt8 :=
  if pf.fmArray then squeeze fmt else fmt

/-- A text that ends at its first null character does so in one way. -/
theorem split_at_zero {s' rest' : List UInt8} (hs : 0 ∉ s) (hs' : 0 ∉ s')
    (h : s ++ 0 :: rest = s' ++ 0 :: rest') : s = s' ∧ rest = rest' := by
  induction s generalizing s' with
  | nil =>
    cases s' with
    | nil => exact ⟨rfl, (List.cons.inj h).2⟩
    | cons c s' =>
      rw [← (List.cons.inj h).1] at hs'
      exact absurd List.mem_cons_self hs'
  | cons c s ih =>
    cases s' with
    | nil =>
      rw [(List.cons.inj h).1] at hs
      exact absurd List.mem_cons_self hs
    | cons c' s' =>
      obtain ⟨rfl, htail⟩ := List.cons.inj h
      obtain ⟨rfl, hrest⟩ := ih (fun h0 => hs (List.mem_cons_of_mem c h0))
        (fun h0 => hs' (List.mem_cons_of_mem c h0)) htail
      exact ⟨rfl, hrest⟩

variable {pf : ParsedFormat}

theorem Head.unique {delim' behind' : List UInt8} {n n' : Nat} (h : Head pf bytes n delim behind)
    (h' : Head pf bytes n' delim' behind') : n = n' ∧ delim = delim' ∧ behind = behind' := by
  unfold Head at h h'
  split at h
  · rw [if_pos ‹_›] at h'
    obtain ⟨dim, hlen, hdelim, rfl, rfl⟩ := h
    obtain ⟨dim', hlen', hdelim', heq, rfl⟩ := h'
    obtain ⟨rfl, htail⟩ := List.append_inj heq (by rw [hlen, hlen'])
    obtain ⟨rfl, rfl⟩ := split_at_zero hdelim hdelim' htail
    exact ⟨rfl, rfl, rfl⟩
  · rw [if_neg ‹_›] at h'
    obtain ⟨rfl, rfl, rfl⟩ := h
    obtain ⟨rfl, rfl, rfl⟩ := h'
    exact ⟨rfl, rfl, rfl⟩

/-- With the head of a conversion ahead, its elements are formatted, unless it
is one of an array and too long. -/
theorem formatConversion_of_head {n : Nat} (h : Head pf b.ahead n delim behind) (fmt : List UInt8) :
    (Short pf fmt → ∃ b', b'.ahead = behind ∧
        formatConversion pf fmt b = formatElements (pf.passedFmt fmt) pf.type delim n true b') ∧
      (¬Short pf fmt → formatConversion pf fmt b = none) := by
  unfold Head at h
  unfold formatConversion Short ParsedFormat.passedFmt ParsedFormat.type
  cases harray : pf.fmArray with
  | false =>
    rw [harray, if_neg Bool.false_ne_true] at h
    obtain ⟨rfl, rfl, rfl⟩ := h
    exact ⟨fun _ => ⟨b, rfl, rfl⟩, fun hno => absurd nofun hno⟩
  | true =>
    rw [harray, if_pos rfl] at h
    obtain ⟨dim, hlen, hdelim, hahead, rfl⟩ := h
    have hread := collectBytes_of_ahead hahead (by omega)
    have hbehind := Recbuf.ahead_skip_of hahead
    rw [hlen] at hread hbehind
    have hstring := collectString_of_ahead hbehind hdelim
    have hrest : ((b.skip 4).skip (delim.length + 1)).ahead = behind := by
      rw [Recbuf.ahead_skip, hbehind, ← List.singleton_append, ← List.append_assoc]
      exact List.drop_left' (by simp)
    rw [if_pos rfl, hread]
    dsimp only
    rw [hstring]
    dsimp only
    refine ⟨fun hshort => ⟨_, hrest, ?_⟩, fun hlong => ?_⟩
    · rw [if_pos (hshort rfl), if_pos rfl, Bool.not_true]
    · rw [if_neg fun hlt => hlong fun _ => hlt]

/-- Without it nothing is made of the conversion, and the end of the record is
come to. -/
theorem formatConversion_of_no_head (h : ∀ n delim behind, ¬Head pf b.ahead n delim behind)
    (fmt : List UInt8) :
    ∃ b', formatConversion pf fmt b = some ([], false, b') ∧ b'.ahead = [] := by
  unfold Head at h
  cases harray : pf.fmArray with
  | false =>
    have hno := h 1 [] b.ahead
    simp [harray] at hno
  | true =>
    simp only [harray, if_true] at h
    unfold formatConversion
    rw [if_pos harray]
    rcases collectBytes_cases b 4 with hfour | ⟨b', hread, hb'⟩
    · have hlen : (b.ahead.take 4).length = 4 := List.length_take_of_le hfour
      have hsplit : b.ahead = b.ahead.take 4 ++ b.ahead.drop 4 := (List.take_append_drop 4 _).symm
      have hread := collectBytes_of_ahead hsplit (by omega)
      have hbehind := Recbuf.ahead_skip_of hsplit
      rw [hlen] at hread hbehind
      rcases collectString_cases (b.skip 4) with hmem | ⟨b', hstring, hb'⟩
      · rw [hbehind] at hmem
        obtain ⟨delim, behind, hdrop, hdelim⟩ := exists_of_mem_zero hmem
        exact absurd ⟨_, hlen, hdelim, by rw [← hdrop]; exact hsplit, rfl⟩ (h _ delim behind)
      · rw [hread]
        dsimp only
        rw [hstring]
        exact ⟨b', rfl, hb'⟩
    · rw [hread]
      exact ⟨b', rfl, hb'⟩

/-! ## Calls that are right -/

def Passed.ctype : Passed → Option CType
  | .scalar type _ => (ConvType.base type).passedAs
  | .string _ => some .string
  | .wstring _ => some .wstring

/-- A conversion is handed to printf as one that it knows, and with an argument
of the type that it takes. `%n` takes none. -/
def Call.Right : Call → Prop
  | .text _ => True
  | .conversion fmt arg =>
    ∃ spec type, fmt = 0x25 :: spec ∧ 0x5b ∉ spec ∧ Takes spec type ∧ arg.ctype = some type

theorem Passed.IsOf.ctype {type : BaseType} {p : Passed} (h : p.IsOf type) :
    p.ctype = (ConvType.base type).passedAs := by
  cases p with
  | scalar type' bytes =>
    obtain ⟨rfl, -, -⟩ := h
    rfl
  | string s =>
    obtain ⟨rfl, -⟩ := h
    rfl
  | wstring s =>
    obtain ⟨rfl, -⟩ := h
    rfl

theorem behindSpec_specOf (s : List UInt8) : behindSpec (specOf s) = [] := by
  rcases hdrop : s.dropWhile fun c => !isConvLetter c with _ | ⟨c, rest⟩
  · have hall : ∀ b ∈ s, (!isConvLetter b) = true := List.dropWhile_eq_nil_iff.1 hdrop
    rw [specOf, hdrop, List.take_nil, List.append_nil, List.takeWhile_eq_self_iff.2 hall, behindSpec, hdrop]
    rfl
  · have hhead := List.head?_dropWhile_not (fun c => !isConvLetter c) s
    rw [hdrop] at hhead
    have hbody : ∀ b ∈ s.takeWhile fun c => !isConvLetter c, isConvLetter b = false := fun b hb => by
      simpa using List.mem_takeWhile_imp hb
    rw [specOf, hdrop]
    exact (specOf_eq hbody (by simpa using hhead)).2

/-- A conversion of a format has nothing behind its letter. -/
theorem behindSpec_of_mem {format : List UInt8} (h : spec ∈ specs format) :
    behindSpec spec = [] := by
  suffices hspec : ∃ s, spec = specOf s by
    obtain ⟨s, rfl⟩ := hspec
    exact behindSpec_specOf s
  have hloop : ∀ (n : Nat) (format : List UInt8), format.length ≤ n → spec ∈ specs format →
      ∃ s, spec = specOf s := by
    intro n
    induction n with
    | zero =>
      intro format hn hspec
      obtain rfl := List.eq_nil_of_length_eq_zero (Nat.le_zero.1 hn)
      cases hspec
    | succ n ih =>
      intro format hn hspec
      match format with
      | [] => cases hspec
      | [c] =>
        rw [specs, items_singleton] at hspec
        split at hspec <;> cases hspec
      | c :: d :: rest =>
        have hbehind := length_behindSpec_lt (c := d) (s := rest)
        simp only [List.length_cons] at hn hbehind
        rw [specs, items_cons] at hspec
        split_ifs at hspec
        · exact ih rest (by omega) hspec
        · change spec ∈ specOf (d :: rest) :: specs (behindSpec (d :: rest)) at hspec
          rcases List.mem_cons.1 hspec with rfl | hspec
          · exact ⟨_, rfl⟩
          · exact ih _ (by omega) hspec
        · exact ih (d :: rest) (by rw [List.length_cons]; omega) hspec
  exact hloop format.length format le_rfl h

theorem scanFlags_head {flags : List UInt8} (h : scanFlags flags s = .ok (fl, f))
    (hnodup : flags.Nodup) : fl.Nodup ∧ ∃ b, f.head? = some b ∧ b ∉ flagChars := by
  induction s generalizing flags with
  | nil => cases h
  | cons c s ih =>
    rw [scanFlags] at h
    split at h
    · split at h
      · cases h
      · next hnew =>
        refine ih h (List.nodup_append.2 ⟨hnodup, List.nodup_singleton c, ?_⟩)
        rintro a ha b hb rfl
        rw [List.mem_singleton.1 hb] at ha
        exact hnew ha
    · next hflag =>
      cases h
      exact ⟨hnodup, c, rfl, hflag⟩

/-- What the flags of a conversion are, and what the rest of it is not. -/
theorem evlParseFmtConvSpec_flags (h : evlParseFmtConvSpec spec = .ok pf)
    (hend : behindSpec spec = []) :
    ∃ f b, spec = pf.fmFlags ++ f ∧ pf.fmFlags.Nodup ∧ (∀ b ∈ pf.fmFlags, b ∈ flagChars) ∧
      f.head? = some b ∧ b ∉ flagChars ∧ 0x5b ∉ f ∧ pf.fmModifier.length ≤ 2 := by
  obtain ⟨-, hdrop, hpos, -⟩ := evlParseFmtConvSpec_ok h
  rw [hend, List.drop_eq_nil_iff] at hdrop
  unfold evlParseFmtConvSpec at h
  split at h
  · cases h
  · cases h
  · next flags f hflags =>
    split at h
    · cases h
    · next width precision f' hnumbers =>
      split at h
      · cases h
      · next mods letter rest hmods =>
        split at h
        · cases h
        · next hlen =>
          split at h
          · cases h
          · next halpha =>
            obtain ⟨hnodup, b, hb, hflag⟩ := scanFlags_head hflags List.nodup_nil
            obtain ⟨added, rfl, hadd, hmem⟩ := scanFlags_ok hflags
            rw [List.nil_append] at hadd
            subst hadd
            obtain ⟨ate, rfl, hate⟩ := scanNumbers_some hnumbers
            obtain ⟨rfl, hmodifiers, hletter⟩ := scanModifiers_some hmods
            cases h
            dsimp only at hdrop hpos ⊢
            have hrest : rest = [] := List.eq_nil_of_length_eq_zero (by omega)
            subst hrest
            refine ⟨_, b, rfl, hnodup, hmem, hb, hflag, ?_, Nat.not_lt.1 hlen⟩
            simp only [List.mem_append, List.mem_cons, List.not_mem_nil, or_false, not_or]
            refine ⟨fun hb => ?_, fun hb => ?_, fun hb => ?_⟩
            · exact (not_convLetter_of_number (hate _ hb)).2 rfl
            · exact (not_convLetter_of_modifier (hmodifiers _ hb)).2 rfl
            · subst hb
              exact halpha (by decide)

theorem flags_unique {fl' f' : List UInt8} {b b' : UInt8} (hfl : ∀ b ∈ fl, b ∈ flagChars)
    (hf : f.head? = some b) (hb : b ∉ flagChars) (hfl' : ∀ b ∈ fl', b ∈ flagChars)
    (hf' : f'.head? = some b') (hb' : b' ∉ flagChars) (h : fl ++ f = fl' ++ f') :
    fl = fl' ∧ f = f' := by
  have htake : ∀ {fl f : List UInt8} {b : UInt8}, (∀ b ∈ fl, b ∈ flagChars) → f.head? = some b →
      b ∉ flagChars → (fl ++ f).takeWhile (flagChars.contains ·) = fl := by
    intro fl f b hfl hf hb
    refine CString.takeWhile_digits (fun a ha => List.contains_iff_mem.2 (hfl a ha)) fun a ha => ?_
    rw [hf, Option.mem_some_iff] at ha
    rw [← ha, List.contains_eq_mem, decide_eq_false_iff_not]
    exact hb
  have hsame : fl = fl' := by rw [← htake hfl hf hb, h, htake hfl' hf' hb']
  subst hsame
  exact ⟨rfl, List.append_cancel_left h⟩

/-- What is passed for a conversion is right just if the conversion is one that
takes an argument. -/
theorem right_iff (h : evlParseFmtConvSpec spec = .ok pf) (hend : behindSpec spec = [])
    {type : BaseType} (htype : pf.type = .base type) {p : Passed} (hp : p.IsOf type) :
    (Call.conversion (pf.passedFmt (0x25 :: spec)) p).Right ↔ ∃ ctype, Takes spec ctype := by
  obtain ⟨f, b, hspec, hnodup, hmem, hb, hflag, hbracket, -⟩ := evlParseFmtConvSpec_flags h hend
  have harray := (evlParseFmtConvSpec_ok h).2.2.2
  have hself : specOf spec = spec := by
    conv_rhs => rw [← specOf_append_behindSpec spec, hend, List.append_nil]
  rw [hself] at harray
  -- the format that is passed on is the conversion without its bracket
  have hfmt : pf.passedFmt (0x25 :: spec) = 0x25 :: (pf.fmFlags.filter (· ≠ 0x5b) ++ f) := by
    have hf : f.filter (· ≠ 0x5b) = f := List.filter_eq_self.2 fun a ha => by
      rw [decide_eq_true_eq]
      rintro rfl
      exact hbracket ha
    unfold ParsedFormat.passedFmt
    split
    · rw [squeeze, List.filter_cons_of_pos (by decide), hspec, List.filter_append, hf]
    · next hno =>
      have hflags : pf.fmFlags.filter (· ≠ 0x5b) = pf.fmFlags := List.filter_eq_self.2 fun a ha => by
        rw [decide_eq_true_eq]
        rintro rfl
        rw [harray, List.contains_iff_mem, hspec] at hno
        exact hno (List.mem_append_left _ ha)
      rw [hflags, ← hspec]
  have hfilter : ∀ a ∈ pf.fmFlags.filter (· ≠ 0x5b), a ∈ flagChars := fun a ha => hmem a (List.mem_filter.1 ha).1
  rw [hfmt]
  constructor
  · rintro ⟨spec', ctype, heq, -, ⟨c, hc, hargs⟩, -⟩
    rw [← (List.cons.inj heq).2, Conversion.text] at hc
    obtain ⟨b', hb', hflag'⟩ := c.head_tail []
    rw [List.append_nil] at hb'
    obtain ⟨-, htail⟩ := flags_unique c.isFlag hb' hflag' hfilter hb hflag hc
    refine ⟨ctype, { c with flags := pf.fmFlags, nodup := hnodup, isFlag := hmem }, ?_, hargs⟩
    rw [hspec, ← htail]
    rfl
  · rintro ⟨ctype, c, hc, hargs⟩
    obtain ⟨pf', hpf', hflags, hmod, hletter, -⟩ := evlParseFmtConvSpec_text c []
    rw [List.append_nil, hc, h] at hpf'
    cases hpf'
    obtain ⟨b', hb', hflag'⟩ := c.head_tail []
    rw [List.append_nil] at hb'
    obtain ⟨-, htail⟩ := flags_unique c.isFlag hb' hflag' hmem hb hflag (by rw [← hspec, ← hc]; rfl)
    refine ⟨_, ctype, rfl, ?_, ⟨{ c with
      flags := pf.fmFlags.filter (· ≠ 0x5b), nodup := hnodup.filter _, isFlag := hfilter }, ?_, hargs⟩, ?_⟩
    · rw [List.mem_append, not_or]
      exact ⟨by simp, hbracket⟩
    · rw [← htail]
      rfl
    · rw [hp.ctype, ← htype, ParsedFormat.type, evlGetTypeFromConversion_passedAs, hmod, hletter, hargs]

/-! ## Segments -/

/-- The data go through the conversions: each of them has its arguments, and
these are behind them. -/
inductive Reaches : List (List UInt8 × ParsedFormat) → List UInt8 → List UInt8 → Prop where
  | here (bytes : List UInt8) : Reaches [] bytes bytes
  | next {p : List UInt8 × ParsedFormat} {parsed : List (List UInt8 × ParsedFormat)} {n : Nat}
      {bytes delim behind mid rest : List UInt8} (head : Head p.2 bytes n delim behind)
      (filled : Filled p.2.type n behind mid) (tail : Reaches parsed mid rest) : Reaches (p :: parsed) bytes rest

/-- With these data, a conversion is short if it is one of an array, and well
formed and supported if something is passed for it. -/
def Handled (p : List UInt8 × ParsedFormat) (bytes : List UInt8) : Prop :=
  ∀ n delim behind, Head p.2 bytes n delim behind →
    (p.2.fmArray = true → p.1.length < 19) ∧
      (Passes p.2.type n behind → ∃ ctype, Takes p.1 ctype)

def AllHandled (parsed : List (List UInt8 × ParsedFormat)) (bytes : List UInt8) : Prop :=
  ∀ before p behind rest, parsed = before ++ p :: behind → Reaches before bytes rest → Handled p rest

def AllRight (r : Option (List Call × Bool)) : Prop := ∃ cs, r = some cs ∧ ∀ c ∈ cs.1, c.Right

variable {parsed : List (List UInt8 × ParsedFormat)}

theorem allHandled_cons {p : List UInt8 × ParsedFormat} :
    AllHandled (p :: parsed) bytes ↔ Handled p bytes ∧
      ∀ n delim behind mid, Head p.2 bytes n delim behind → Filled p.2.type n behind mid → AllHandled parsed mid := by
  constructor
  · intro h
    refine ⟨h [] p parsed bytes rfl (.here bytes), fun n delim behind mid hhead hfilled before q after rest heq hr => ?_⟩
    exact h (p :: before) q after rest (by rw [heq]; rfl) (.next hhead hfilled hr)
  · rintro ⟨hp, hrest⟩ before q after rest heq hr
    cases before with
    | nil =>
      cases hr
      cases heq
      exact hp
    | cons p' before =>
      cases heq
      cases hr with
      | next hhead hfilled htail => exact hrest _ _ _ _ hhead hfilled before q after rest rfl htail

theorem formatSegments_of_nil (segs : List Segment) (h : b.ahead = []) :
    AllRight (formatSegments segs b) := by
  have hleft : b.left ≤ 0 := by
    have hlen := b.length_ahead
    rw [h, List.length_nil] at hlen
    unfold Recbuf.left
    omega
  induction segs with
  | nil => exact ⟨([], false), rfl, nofun⟩
  | cons seg segs ih =>
    obtain ⟨r, hr, hright⟩ := ih
    cases seg with
    | string s =>
      refine ⟨(.text s :: r.1, r.2), by rw [formatSegments, hr]; rfl, fun c hc => ?_⟩
      rcases List.mem_cons.1 hc with rfl | hc
      · trivial
      · exact hright c hc
    | printfConv pf userfmt => exact ⟨r, by rw [formatSegments, if_pos hleft, hr], hright⟩

theorem handled_nil (p : List UInt8 × ParsedFormat) : Handled p [] := by
  intro n delim behind hhead
  unfold Head at hhead
  split at hhead
  · obtain ⟨dim, hlen, -, heq, -⟩ := hhead
    obtain rfl := (List.append_eq_nil_iff.1 heq.symm).1
    cases hlen
  · next harray =>
    obtain ⟨-, -, rfl⟩ := hhead
    refine ⟨fun h => absurd h harray, ?_⟩
    rintro ⟨-, type, -, q, rest, hq, heq⟩
    have hpos := hq.bytes_pos
    rw [(List.append_eq_nil_iff.1 heq.symm).1] at hpos
    exact absurd hpos (lt_irrefl 0)

theorem Reaches.eq_nil (h : Reaches parsed bytes rest) (hbytes : bytes = []) : rest = [] := by
  induction h with
  | here => exact hbytes
  | @next q parsed n bytes delim behind mid rest hhead hfilled htail ih =>
    subst hbytes
    refine ih ?_
    unfold Head at hhead
    split at hhead
    · obtain ⟨dim, hlen, -, heq, -⟩ := hhead
      obtain rfl := (List.append_eq_nil_iff.1 heq.symm).1
      cases hlen
    · obtain ⟨-, -, rfl⟩ := hhead
      unfold Filled at hfilled
      split at hfilled
      · obtain ⟨ps, -, -, heq⟩ := hfilled
        exact (List.append_eq_nil_iff.1 heq.symm).2
      · exact hfilled.symm
      · exact hfilled.2.symm

theorem allHandled_nil (parsed : List (List UInt8 × ParsedFormat)) : AllHandled parsed [] :=
  fun _ p _ _ _ hr => hr.eq_nil rfl ▸ handled_nil p

theorem passable_of_type (type : BaseType) (h : pf.type = .base type) : Passable type :=
  evlGetTypeFromConversion_base h

theorem formatSegments_conv {userfmt : Option (List UInt8)} {segs : List Segment}
    (hne : b.ahead ≠ []) :
    formatSegments (.printfConv pf userfmt :: segs) b =
      match formatConversion pf (userfmt.getD []) b with
      | none => none
      | some (calls, true, _) => some (calls, true)
      | some (calls, false, b) => (formatSegments segs b).map fun r => (calls ++ r.1, r.2) := by
  have hleft : ¬b.left ≤ 0 := by
    have hlen := b.length_ahead
    have hpos := List.length_pos_iff.2 hne
    unfold Recbuf.left
    omega
  rw [formatSegments]
  refine (if_neg hleft).trans ?_
  rcases formatConversion pf (userfmt.getD []) b with _ | ⟨calls, failed, b'⟩
  · rfl
  · cases failed <;> rfl

/-- The calls of a conversion before those of other segments. -/
theorem allRight_append {calls : List Call} {r : Option (List Call × Bool)} :
    AllRight (r.map fun r => (calls ++ r.1, r.2)) ↔ (∀ c ∈ calls, c.Right) ∧ AllRight r := by
  constructor
  · rintro ⟨cs, hcs, hright⟩
    obtain ⟨r', rfl, rfl⟩ := Option.map_eq_some_iff.1 hcs
    exact ⟨fun c hc => hright c (List.mem_append_left _ hc), r', rfl, fun c hc => hright c (List.mem_append_right _ hc)⟩
  · rintro ⟨hcalls, r', rfl, hright⟩
    refine ⟨_, rfl, fun c hc => ?_⟩
    rcases List.mem_append.1 hc with hc | hc
    · exact hcalls c hc
    · exact hright c hc

/-- The segments are formatted with right calls just if every conversion that
the data reach is handled. -/
theorem formatSegments_right_iff {segs : List Segment} (hmade : ∀ seg ∈ segs, seg.Made)
    (hparsed : ∀ p ∈ segmentSpecs segs, evlParseFmtConvSpec p.1 = .ok p.2 ∧ behindSpec p.1 = []) (b : Recbuf) :
    AllRight (formatSegments segs b) ↔ AllHandled (segmentSpecs segs) b.ahead := by
  induction segs generalizing b with
  | nil =>
    refine iff_of_true ⟨([], false), rfl, nofun⟩ fun before p behind rest heq => ?_
    cases before <;> cases heq
  | cons seg segs ih =>
    have hmade' : ∀ seg ∈ segs, seg.Made := fun seg hseg => hmade seg (List.mem_cons_of_mem _ hseg)
    cases seg with
    | string s =>
      refine Iff.trans ?_ (ih hmade' hparsed b)
      exact (@allRight_append [.text s] (formatSegments segs b)).trans
        (and_iff_right fun c hc => List.mem_singleton.1 hc ▸ trivial)
    | printfConv pf userfmt =>
      obtain ⟨spec, rfl, -⟩ := hmade _ List.mem_cons_self
      change ∀ p ∈ (spec, pf) :: segmentSpecs segs, _ at hparsed
      change _ ↔ AllHandled ((spec, pf) :: segmentSpecs segs) b.ahead
      obtain ⟨⟨hpf, hend⟩, hparsed'⟩ := List.forall_mem_cons.1 hparsed
      by_cases hne : b.ahead = []
      · rw [hne]
        exact iff_of_true (formatSegments_of_nil _ hne) (allHandled_nil _)
      rw [formatSegments_conv hne, allHandled_cons, Option.getD_some]
      by_cases hhead : ∃ n delim behind, Head pf b.ahead n delim behind
      · obtain ⟨n, delim, behind, hhead⟩ := hhead
        obtain ⟨hshort, hlong⟩ := formatConversion_of_head hhead (0x25 :: spec)
        by_cases hlen : Short pf (0x25 :: spec)
        · obtain ⟨b₁, rfl, hconv⟩ := hshort hlen
          obtain ⟨calls, failed, b', hcalls, hall, hpasses, hfilled, hunfilled⟩ :=
            formatElements_cases (fun type => passable_of_type type) (pf.passedFmt (0x25 :: spec)) delim n b₁
          rw [hconv, hcalls]
          -- the conversion is handled just if its calls are right
          have hcallsRight : (∀ c ∈ calls, c.Right) ↔ Handled (spec, pf) b.ahead := by
            constructor
            · intro hright n' delim' behind' hhead'
              obtain ⟨rfl, rfl, rfl⟩ := hhead.unique hhead'
              refine ⟨fun harray => Nat.lt_of_succ_lt_succ (hlen harray), fun hpass => ?_⟩
              obtain ⟨p, hp⟩ := hpasses.2 hpass
              rcases hall _ hp with htext | ⟨type, q, htype, hq, heq⟩
              · cases htext
              · cases heq
                exact (right_iff hpf hend htype hq).1 (hright _ hp)
            · intro hhandled c hc
              rcases hall c hc with rfl | ⟨type, p, htype, hp, rfl⟩
              · trivial
              · exact (right_iff hpf hend htype hp).2 ((hhandled n delim _ hhead).2 (hpasses.1 ⟨p, hc⟩))
          by_cases hfill : ∃ mid, Filled pf.type n b₁.ahead mid
          · obtain ⟨mid, hmid⟩ := hfill
            obtain ⟨rfl, rfl⟩ := hfilled mid hmid
            dsimp only
            rw [allRight_append, hcallsRight, ih hmade' hparsed']
            refine and_congr_right fun _ => ⟨fun h n' delim' behind' mid' hhead' hmid' => ?_,
              fun h => h n delim _ _ hhead hmid⟩
            obtain ⟨rfl, rfl, rfl⟩ := hhead.unique hhead'
            rw [← (hfilled mid' hmid').2]
            exact h
          · push Not at hfill
            have hvacuous : ∀ n' delim' behind' mid', Head pf b.ahead n' delim' behind' →
                Filled pf.type n' behind' mid' → AllHandled (segmentSpecs segs) mid' := by
              intro n' delim' behind' mid' hhead' hmid'
              obtain ⟨rfl, rfl, rfl⟩ := hhead.unique hhead'
              exact absurd hmid' (hfill mid')
            rw [and_iff_left hvacuous, ← hcallsRight]
            cases failed with
            | true =>
              refine ⟨?_, fun h => ⟨_, rfl, h⟩⟩
              rintro ⟨cs, hcs, hright⟩
              cases hcs
              exact hright
            | false =>
              have hb' : b'.ahead = [] := (hunfilled hfill).resolve_left (by decide)
              dsimp only
              rw [allRight_append, and_iff_left (formatSegments_of_nil segs hb')]
        · rw [hlong hlen]
          refine iff_of_false nofun fun h => hlen fun harray => ?_
          exact Nat.succ_lt_succ ((h.1 n delim behind hhead).1 harray)
      · push Not at hhead
        obtain ⟨b', hconv, hb'⟩ := formatConversion_of_no_head hhead (0x25 :: spec)
        rw [hconv]
        dsimp only
        rw [allRight_append]
        exact iff_of_true ⟨nofun, formatSegments_of_nil segs hb'⟩
          ⟨fun n delim behind h => absurd h (hhead n delim behind),
            fun n delim behind mid h => absurd h (hhead n delim behind)⟩

/-! ## Records -/

def recordFormat (data : List UInt8) : List UInt8 := data.takeWhile (· ≠ 0)

/-- The arguments of a record, behind the format and their size. -/
def recordArgs (data : List UInt8) : List UInt8 := (data.dropWhile (· ≠ 0)).drop 5

/-- A record is formatted without a read outside of what may be read and
without a failed assertion, and whatever is handed to printf is right. -/
def FormatHarmless (data : List UInt8) : Prop :=
  ∃ result, evlFormatPrintfRec data = some result ∧
    ∀ cs failed, result = .calls cs failed → ∀ c ∈ cs, c.Right

/-- There is no format, or one that the parser refuses, or its conversions are
all parsed, and all that the data reach are handled. -/
def HandledRecord (data : List UInt8) : Prop :=
  0 ∉ data ∨ RefusedByParser (recordFormat data) ∨
    ∃ parsed, Parsed.all ((specs (recordFormat data)).map parsedSpec) = .ok parsed ∧
      AllHandled parsed (recordArgs data)

theorem evlFormatPrintfRec_of_not_mem (h : 0 ∉ data) : evlFormatPrintfRec data = some .bad := by
  unfold evlFormatPrintfRec
  split
  · rfl
  · rcases collectString_cases ⟨data, 0⟩ with hmem | ⟨b', hread, -⟩
    · exact absurd hmem h
    · rw [hread]

theorem evlFormatPrintfRec_of_mem (h : 0 ∈ data) :
    ∃ b : Recbuf, b.ahead = recordArgs data ∧ evlFormatPrintfRec data =
      match evlParsePrintfFormat true (recordFormat data) with
      | .overrun => none
      | .bad => some .bad
      | .ok parsedFmt => (formatSegments parsedFmt b).map fun r => .calls r.1 r.2 := by
  obtain ⟨format, rest, rfl, hformat⟩ := exists_of_mem_zero h
  have hpos : ∀ b ∈ format, decide (b ≠ 0) = true := fun b hb => by
    rw [decide_eq_true_eq]
    rintro rfl
    exact hformat hb
  have htake : recordFormat (format ++ 0 :: rest) = format :=
    CString.takeWhile_digits hpos fun b hb => by
      rw [List.head?_cons, Option.mem_some_iff] at hb
      rw [← hb]
      rfl
  have hargs : recordArgs (format ++ 0 :: rest) = rest.drop 4 := by
    rw [recordArgs, List.dropWhile_append_of_pos hpos, List.dropWhile_cons_of_neg (by decide)]
    rfl
  have hread := @collectString_of_ahead ⟨format ++ 0 :: rest, 0⟩ format rest rfl hformat
  refine ⟨((Recbuf.mk (format ++ 0 :: rest) 0).skip (format.length + 1)).skip 4, ?_, ?_⟩
  · have hdrop : (Recbuf.mk (format ++ 0 :: rest) 0).ahead.drop (format.length + 1) = rest := by
      change (format ++ 0 :: rest).drop (format.length + 1) = rest
      rw [← List.drop_drop, List.drop_left]
      rfl
    rw [Recbuf.ahead_skip, Recbuf.ahead_skip, hargs, hdrop]
  · rw [evlFormatPrintfRec, if_neg (List.append_ne_nil_of_right_ne_nil _ (List.cons_ne_nil _ _)), hread, htake]
    rfl

theorem formatHarmless_iff (data : List UInt8) : FormatHarmless data ↔ HandledRecord data := by
  by_cases hmem : 0 ∈ data
  · obtain ⟨b, hb, hcode⟩ := evlFormatPrintfRec_of_mem hmem
    have hspecs := @parseTurns_specs (recordFormat data).length (recordFormat data) le_rfl
    change (evlParsePrintfFormat true (recordFormat data)).map segmentSpecs = _ at hspecs
    have hinit : ∀ spec ∈ (specs (recordFormat data)).dropLast, parsedSpec spec ≠ .overrun :=
      fun spec hspec h => (specs_ends _ spec hspec).ne_overrun (parsedSpec_overrun.1 h)
    unfold FormatHarmless HandledRecord
    rw [hcode, ← hspecs, or_iff_right (not_not.2 hmem)]
    cases hparse : evlParsePrintfFormat true (recordFormat data) with
    | overrun =>
      refine iff_of_false (by rintro ⟨r, h, -⟩; cases h) ?_
      rintro (⟨spec, hspec, hbad⟩ | ⟨parsed, hok, -⟩)
      · rw [hparse, Parsed.all_of_bad hinit hspec (parsedSpec_bad.2 hbad)] at hspecs
        cases hspecs
      · cases hok
    | bad =>
      rw [hparse] at hspecs
      obtain ⟨spec, hspec, hbad⟩ := Parsed.all_bad hspecs.symm
      exact iff_of_true ⟨.bad, rfl, nofun⟩ (.inl ⟨spec, hspec, parsedSpec_bad.1 hbad⟩)
    | ok segs =>
      obtain ⟨-, hmade⟩ := parseTurns_items le_rfl hparse
      rw [hparse] at hspecs
      have hparsed : ∀ p ∈ segmentSpecs segs, evlParseFmtConvSpec p.1 = .ok p.2 ∧ behindSpec p.1 = [] := by
        intro p hp
        obtain ⟨spec, hspec, hsp⟩ := Parsed.mem_all hspecs.symm hp
        obtain ⟨hfst, hok⟩ := parsedSpec_ok hsp
        rw [hfst]
        exact ⟨hok, behindSpec_of_mem hspec⟩
      have hnobad : ¬RefusedByParser (recordFormat data) := by
        rintro ⟨spec, hspec, hbad⟩
        rw [Parsed.all_of_bad hinit hspec (parsedSpec_bad.2 hbad)] at hspecs
        cases hspecs
      rw [or_iff_right hnobad]
      dsimp only
      have hiff := formatSegments_right_iff hmade hparsed b
      rw [hb] at hiff
      constructor
      · rintro ⟨r, hr, hright⟩
        obtain ⟨cs, hcs, rfl⟩ := Option.map_eq_some_iff.1 hr
        exact ⟨_, rfl, hiff.1 ⟨cs, hcs, hright _ _ rfl⟩⟩
      · rintro ⟨parsed, hok, hhandled⟩
        cases hok
        obtain ⟨cs, hcs, hright⟩ := hiff.2 hhandled
        rw [hcs]
        refine ⟨_, rfl, fun cs' failed heq => ?_⟩
        cases heq
        exact hright
  · exact iff_of_true ⟨.bad, evlFormatPrintfRec_of_not_mem hmem, nofun⟩ (.inl hmem)

/-- The flags and the modifiers of a conversion fit into `fm_flags` and
`fm_modifier`. -/
theorem evlParseFmtConvSpec_fits {fmt : List UInt8} (h : evlParseFmtConvSpec fmt = .ok pf) :
    pf.fmFlags.length < 10 ∧ pf.fmModifier.length < 3 := by
  unfold evlParseFmtConvSpec at h
  split at h
  · cases h
  · cases h
  · next flags f hflags =>
    split at h
    · cases h
    · split at h
      · cases h
      · split at h
        · cases h
        · next hlen =>
          split at h
          · cases h
          · cases h
            obtain ⟨hnodup, -⟩ := scanFlags_head hflags List.nodup_nil
            obtain ⟨added, -, hadd, hmem⟩ := scanFlags_ok hflags
            rw [List.nil_append] at hadd
            subst hadd
            have hle : flags.length ≤ flagChars.length := (hnodup.subperm hmem).length_le
            exact ⟨Nat.lt_of_le_of_lt hle (by decide), Nat.lt_succ_of_le (Nat.not_lt.1 hlen)⟩

/-- Formats and records are harmless in just these cases: a format is packed
well if one of its conversions is refused by the parser, or all are parsed
and the first that cannot be packed is a scalar, or nothing is wrong with
it; a record is formatted well if it has no format, or one that the parser
refuses, or all conversions are parsed and those that its data reach are
handled. -/
theorem printf_harmless_iff (format : CharPtr) (data : List UInt8) :
    (PackHarmless format ↔ RefusedByParser format.string.bytes ∨
      RefusedByPacker format.string.bytes ∨ ¬Malformed format.string.bytes) ∧
    (FormatHarmless data ↔ HandledRecord data) ∧
    ∀ (fmt : List UInt8) (pf : ParsedFormat), evlParseFmtConvSpec fmt = .ok pf →
      pf.fmFlags.length < 10 ∧ pf.fmModifier.length < 3 :=
  ⟨packHarmless_iff format, formatHarmless_iff data, fun _ _ => evlParseFmtConvSpec_fits⟩

/-- `%5`. -/
def cutOff : CharPtr := ⟨⟨[0x25, 0x35], by decide⟩, by decide⟩

/-- A conversion that is cut off is read on behind the format, both when it is
packed and when it is formatted. -/
theorem cutOff_not_harmless : ¬PackHarmless cutOff ∧ ¬FormatHarmless cutOff.bytes := by
  constructor
  · intro h
    exact (h [] .empty).1 rfl
  · rintro ⟨result, hresult, -⟩
    have hnone : evlFormatPrintfRec cutOff.bytes = none := by decide
    rw [hnone] at hresult
    cases hresult

end Evlog.Printf
