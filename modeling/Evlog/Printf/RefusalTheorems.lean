/-
Evlog.Printf.RefusalTheorems — what `evl_pack_format_and_args` refuses.

A format comes to one of three ends: it is refused by the parser, the parser
goes on behind it, or its conversions are packed one by one, up to the first
that there is no type for (`ParsedFormat.fate`). That one is refused if it is
a scalar with a letter or a modifier that is not known; at `%n` and at an
array of no type an assertion fails. `packHarmless_iff` puts this beside what
should be refused, the formats with a malformed or unsupported conversion.
-/
import Evlog.Printf.RoundTripTheorems

namespace Evlog.Printf

open Evlog.Lib
open Evlog.Posix (CharPtr WcharPtr Packing memcpyex packString packWstring)
open Evlog.Template (BaseType)

/-! ## One conversion -/

/-- What becomes of a conversion: its argument is packed, `EINVAL` is
returned, or an assertion fails. -/
inductive Fate where
  | packed
  | unknown
  | asserts
  deriving DecidableEq, Repr

def ParsedFormat.fate (pf : ParsedFormat) : Fate :=
  match evlGetTypeFromConversion pf (!pf.fmArray) true with
  | .base _ => .packed
  | .none => if pf.fmArray then .asserts else .unknown
  | .special => .asserts

/-- An argument for a conversion of the type, all zeros, or empty. -/
def someScalar (type : BaseType) : Scalar type :=
  ⟨List.replicate (ConvType.base type).size 0, List.length_replicate⟩

def emptyString : CharPtr := ⟨⟨[], CString.noNul_nil⟩, by decide⟩

def emptyWstring : WcharPtr := ⟨[], by decide, by decide⟩

def someArray (type : BaseType) : ArrayArg :=
  match type with
  | .string => ⟨.strings [], emptyString, by decide⟩
  | .wstring => ⟨.wstrings [], emptyString, by decide⟩
  | type => ⟨.scalars type [], emptyString, by simp [Elements.length]⟩

def Packable (type : BaseType) : Prop := type = .string ∨ type = .wstring ∨ copied type = true

instance (type : BaseType) : Decidable (Packable type) := inferInstanceAs (Decidable (_ ∨ _ ∨ _))

theorem packable_of_promoted {pf : ParsedFormat} {type : BaseType}
    (h : evlGetTypeFromConversion pf true true = .base type) : Packable type := by
  refine evlGetTypeFromConversion_of h (fun type h => ?_) (fun type h => ?_) (fun type h => ?_)
    (fun type h => ?_) (by decide) (by decide) (by decide)
  · simp only [adjustCharType, if_true] at h
    split_ifs at h <;> cases h <;> decide
  · simp only [adjustIntType, if_true] at h
    split_ifs at h <;> cases h <;> decide
  · unfold adjustDoubleType at h
    split_ifs at h <;> cases h <;> decide
  · unfold adjustStringType at h
    split_ifs at h <;> cases h <;> decide

theorem packArray_someArray (type : BaseType) (st : Packing) (args : List Arg) :
    ∃ st', packArray st (someArray type) (.base type) args = .next args st' := by
  cases type <;> exact ⟨_, rfl⟩

theorem packArray_next_or {type : BaseType} (h : Passable type) (st : Packing) (a : ArrayArg) (args : List Arg) :
    packArray st a (.base type) args = .noArg ∨ ∃ st', packArray st a (.base type) args = .next args st' := by
  obtain ⟨elements, delim, hlt⟩ := a
  rcases h with rfl | rfl | hpassed
  · cases elements <;> first | exact .inl rfl | exact .inr ⟨_, rfl⟩
  · cases elements <;> first | exact .inl rfl | exact .inr ⟨_, rfl⟩
  · cases elements with
    | scalars type' values =>
      have hcode : packArray st ⟨.scalars type' values, delim, hlt⟩ (.base type) args =
          if ConvType.base type = .base type' then
            .next args (memcpyex (packString (memcpyex st (dimObject values.length)) delim) (arrayObject values hlt))
          else .noArg := by
        cases type <;> first | rfl | cases hpassed
      rw [hcode]
      split
      · exact .inr ⟨_, rfl⟩
      · exact .inl rfl
    | strings ss => cases type <;> first | exact .inl rfl | cases hpassed
    | wstrings ss => cases type <;> first | exact .inl rfl | cases hpassed

/-- What is packed of a conversion that is none of an array. -/
theorem packConversion_alone {pf : ParsedFormat} (harray : pf.fmArray = false) {type : BaseType}
    (htype : evlGetTypeFromConversion pf true true = .base type) (hcopied : copied type = true)
    (args : List Arg) (st : Packing) :
    packConversion pf args st =
      match args with
      | .scalar type' v :: args => if type = type' then .next args (memcpyex st v.object) else .noArg
      | _ => .noArg := by
  unfold packConversion
  rw [if_neg (by simp [harray]), htype]
  rcases args with _ | ⟨arg, args⟩
  · cases type <;> first | rfl | cases hcopied
  · cases arg <;> cases type <;> first | rfl | cases hcopied

theorem packConversion_array {pf : ParsedFormat} (harray : pf.fmArray = true) {type : BaseType}
    (htype : evlGetTypeFromConversion pf false true = .base type) (args : List Arg) (st : Packing) :
    packConversion pf args st =
      match args with
      | .array a :: args => packArray st a (.base type) args
      | _ => .noArg := by
  unfold packConversion
  rw [if_pos harray]
  generalize evlGetTypeFromConversion pf false true = t at htype
  subst htype
  rcases args with _ | ⟨arg, args⟩
  · rfl
  · cases arg <;> rfl

theorem packConversion_string {pf : ParsedFormat} (harray : pf.fmArray = false)
    (htype : evlGetTypeFromConversion pf true true = .base .string) (args : List Arg) (st : Packing) :
    packConversion pf args st =
      match args with
      | .string s :: args => .next args (packString st s)
      | _ => .noArg := by
  unfold packConversion
  rw [if_neg (by simp [harray])]
  generalize evlGetTypeFromConversion pf true true = t at htype
  subst htype
  rcases args with _ | ⟨arg, args⟩
  · rfl
  · cases arg <;> rfl

theorem packConversion_wstring {pf : ParsedFormat} (harray : pf.fmArray = false)
    (htype : evlGetTypeFromConversion pf true true = .base .wstring) (args : List Arg) (st : Packing) :
    packConversion pf args st =
      match args with
      | .wstring s :: args => .next args (packWstring st s)
      | _ => .noArg := by
  unfold packConversion
  rw [if_neg (by simp [harray])]
  generalize evlGetTypeFromConversion pf true true = t at htype
  subst htype
  rcases args with _ | ⟨arg, args⟩
  · rfl
  · cases arg <;> rfl

/-- A conversion of a type packs its argument, if there is one. -/
theorem packConversion_packed {pf : ParsedFormat} (h : pf.fate = .packed) :
    (∀ args st, packConversion pf args st = .noArg ∨ ∃ args' st', packConversion pf args st = .next args' st') ∧
      ∃ arg, ∀ args st, ∃ st', packConversion pf (arg :: args) st = .next args st' := by
  obtain ⟨type, htype⟩ : ∃ type, evlGetTypeFromConversion pf (!pf.fmArray) true = .base type := by
    unfold ParsedFormat.fate at h
    split at h
    · exact ⟨_, ‹_›⟩
    · split at h <;> cases h
    · cases h
  cases harray : pf.fmArray with
  | true =>
    rw [harray, Bool.not_true] at htype
    have hpassable := evlGetTypeFromConversion_base htype
    refine ⟨fun args st => ?_, .array (someArray type), fun args st => ?_⟩
    · rw [packConversion_array harray htype]
      split
      · next a args =>
        rcases packArray_next_or hpassable st a args with hno | ⟨st', hst'⟩
        · exact .inl hno
        · exact .inr ⟨_, _, hst'⟩
      · exact .inl rfl
    · rw [packConversion_array harray htype]
      exact packArray_someArray type st args
  | false =>
    rw [harray, Bool.not_false] at htype
    rcases packable_of_promoted htype with rfl | rfl | hcopied
    · refine ⟨fun args st => ?_, .string emptyString, fun args st => ?_⟩
      · rw [packConversion_string harray htype]
        split
        · exact .inr ⟨_, _, rfl⟩
        · exact .inl rfl
      · rw [packConversion_string harray htype]
        exact ⟨_, rfl⟩
    · refine ⟨fun args st => ?_, .wstring emptyWstring, fun args st => ?_⟩
      · rw [packConversion_wstring harray htype]
        split
        · exact .inr ⟨_, _, rfl⟩
        · exact .inl rfl
      · rw [packConversion_wstring harray htype]
        exact ⟨_, rfl⟩
    · refine ⟨fun args st => ?_, .scalar type (someScalar type), fun args st => ?_⟩
      · rw [packConversion_alone harray htype hcopied]
        split
        · split
          · exact .inr ⟨_, _, rfl⟩
          · exact .inl rfl
        · exact .inl rfl
      · rw [packConversion_alone harray htype hcopied]
        dsimp only
        rw [if_pos rfl]
        exact ⟨_, rfl⟩

theorem packConversion_unknown {pf : ParsedFormat} (h : pf.fate = .unknown) (args : List Arg) (st : Packing) :
    packConversion pf args st = .unknown := by
  unfold ParsedFormat.fate at h
  split at h
  · cases h
  · next htype =>
    split at h
    · cases h
    · next harray =>
      rw [Bool.not_eq_true] at harray
      rw [harray, Bool.not_false] at htype
      unfold packConversion
      rw [if_neg (by simp [harray]), htype]
  · cases h

theorem packConversion_asserts {pf : ParsedFormat} (h : pf.fate = .asserts) :
    ∃ arg, ∀ args st, packConversion pf (arg :: args) st = .crash := by
  refine ⟨.array (someArray .int), fun args st => ?_⟩
  unfold ParsedFormat.fate at h
  unfold packConversion
  split at h
  · cases h
  · next htype =>
    split at h
    · next harray =>
      rw [harray, Bool.not_true] at htype
      rw [if_pos harray, htype]
      rfl
    · cases h
  · next htype =>
    cases harray : pf.fmArray with
    | true =>
      rw [harray, Bool.not_true] at htype
      rw [if_pos rfl, htype]
      rfl
    | false =>
      rw [harray, Bool.not_false] at htype
      rw [if_neg (by decide), htype]

/-! ## All of them -/

def packedSegments (parsed : List (List UInt8 × ParsedFormat)) : List Segment :=
  parsed.map fun p => .printfConv p.2 none

theorem packConversions_cons (p : List UInt8 × ParsedFormat) (parsed : List (List UInt8 × ParsedFormat))
    (args : List Arg) (st : Packing) :
    packConversions (packedSegments (p :: parsed)) args st =
      match packConversion p.2 args st with
      | .crash => .crash
      | .noArg => .noArg
      | .unknown => .done (some .einval) st
      | .next args st => packConversions (packedSegments parsed) args st := rfl

def firstFate : List (List UInt8 × ParsedFormat) → Fate
  | [] => .packed
  | p :: parsed => if p.2.fate = .packed then firstFate parsed else p.2.fate

theorem packConversions_packed {parsed : List (List UInt8 × ParsedFormat)} (h : firstFate parsed = .packed) :
    (∀ args st, packConversions (packedSegments parsed) args st = .noArg ∨
        ∃ st', packConversions (packedSegments parsed) args st = .done none st') ∧
      ∃ args, ∀ st, ∃ st', packConversions (packedSegments parsed) args st = .done none st' := by
  induction parsed with
  | nil => exact ⟨fun args st => .inr ⟨st, rfl⟩, [], fun st => ⟨st, rfl⟩⟩
  | cons p parsed ih =>
    rw [firstFate] at h
    split at h
    · next hp =>
      obtain ⟨hall, args, hsome⟩ := ih h
      obtain ⟨hstep, arg, harg⟩ := packConversion_packed hp
      refine ⟨fun args st => ?_, arg :: args, fun st => ?_⟩
      · rw [packConversions_cons]
        rcases hstep args st with hno | ⟨args', st', hnext⟩
        · rw [hno]
          exact .inl rfl
        · rw [hnext]
          exact hall args' st'
      · obtain ⟨st', hnext⟩ := harg args st
        rw [packConversions_cons, hnext]
        exact hsome st'
    · next hp => exact absurd h hp

theorem packConversions_unknown {parsed : List (List UInt8 × ParsedFormat)} (h : firstFate parsed = .unknown)
    (args : List Arg) (st : Packing) :
    packConversions (packedSegments parsed) args st = .noArg ∨
      ∃ st', packConversions (packedSegments parsed) args st = .done (some .einval) st' := by
  induction parsed generalizing args st with
  | nil => cases h
  | cons p parsed ih =>
    rw [packConversions_cons]
    rw [firstFate] at h
    split at h
    · next hp =>
      rcases (packConversion_packed hp).1 args st with hno | ⟨args', st', hnext⟩
      · rw [hno]
        exact .inl rfl
      · rw [hnext]
        exact ih h args' st'
    · rw [packConversion_unknown h]
      exact .inr ⟨st, rfl⟩

theorem packConversions_asserts {parsed : List (List UInt8 × ParsedFormat)} (h : firstFate parsed = .asserts) :
    ∃ args, ∀ st, packConversions (packedSegments parsed) args st = .crash := by
  induction parsed with
  | nil => cases h
  | cons p parsed ih =>
    rw [firstFate] at h
    split at h
    · next hp =>
      obtain ⟨args, hargs⟩ := ih h
      obtain ⟨-, arg, harg⟩ := packConversion_packed hp
      refine ⟨arg :: args, fun st => ?_⟩
      obtain ⟨st', hnext⟩ := harg args st
      rw [packConversions_cons, hnext]
      exact hargs st'
    · obtain ⟨arg, harg⟩ := packConversion_asserts h
      exact ⟨[arg], fun st => by rw [packConversions_cons, harg]⟩

/-! ## The parse -/

theorem parsedSpec_ok {spec : List UInt8} {p : List UInt8 × ParsedFormat} (h : parsedSpec spec = .ok p) :
    p.1 = spec ∧ evlParseFmtConvSpec spec = .ok p.2 := by
  unfold parsedSpec at h
  cases hpf : evlParseFmtConvSpec spec with
  | ok pf =>
    rw [hpf] at h
    cases h
    exact ⟨rfl, rfl⟩
  | _ =>
    rw [hpf] at h
    cases h

theorem parsedSpec_bad {spec : List UInt8} :
    parsedSpec spec = .bad ↔ evlParseFmtConvSpec spec = .bad := by
  unfold parsedSpec
  cases evlParseFmtConvSpec spec <;> simp [Parsed.map]

theorem parsedSpec_overrun {spec : List UInt8} :
    parsedSpec spec = .overrun ↔ evlParseFmtConvSpec spec = .overrun := by
  unfold parsedSpec
  cases evlParseFmtConvSpec spec <;> simp [Parsed.map]

/-- A conversion that is refused makes the whole refused, if nothing is
overrun before it. -/
theorem Parsed.all_of_bad {α β : Type} {f : β → Parsed α} {bs : List β}
    (hinit : ∀ b ∈ bs.dropLast, f b ≠ .overrun) {b : β} (hb : b ∈ bs) (hbad : f b = .bad) :
    Parsed.all (bs.map f) = .bad := by
  induction bs with
  | nil => cases hb
  | cons a bs ih =>
    rw [List.map_cons]
    cases ha : f a with
    | bad => rfl
    | overrun =>
      rcases List.mem_cons.1 hb with rfl | hb
      · rw [ha] at hbad
        cases hbad
      · refine absurd ha (hinit a ?_)
        rw [List.dropLast_cons_of_ne_nil (List.ne_nil_of_mem hb)]
        exact List.mem_cons_self
    | ok x =>
      rcases List.mem_cons.1 hb with rfl | hb
      · rw [ha] at hbad
        cases hbad
      · rw [List.dropLast_cons_of_ne_nil (List.ne_nil_of_mem hb)] at hinit
        rw [Parsed.all, ih (fun c hc => hinit c (List.mem_cons_of_mem a hc)) hb]
        rfl

theorem Parsed.all_bad {α β : Type} {f : β → Parsed α} {bs : List β}
    (h : Parsed.all (bs.map f) = .bad) : ∃ b ∈ bs, f b = .bad := by
  induction bs with
  | nil => cases h
  | cons b bs ih =>
    rw [List.map_cons] at h
    cases hb : f b with
    | bad => exact ⟨b, List.mem_cons_self, hb⟩
    | overrun =>
      rw [hb] at h
      cases h
    | ok a =>
      rw [hb, Parsed.all] at h
      have hbs : Parsed.all (bs.map f) = .bad := by
        cases hall : Parsed.all (bs.map f) with
        | bad => rfl
        | _ =>
          rw [hall] at h
          cases h
      obtain ⟨c, hc, hbad⟩ := ih hbs
      exact ⟨c, List.mem_cons_of_mem b hc, hbad⟩

theorem Parsed.all_overrun {α β : Type} {f : β → Parsed α} {bs : List β}
    (h : Parsed.all (bs.map f) = .overrun) : ∃ b ∈ bs, f b = .overrun := by
  induction bs with
  | nil => cases h
  | cons b bs ih =>
    rw [List.map_cons] at h
    cases hb : f b with
    | overrun => exact ⟨b, List.mem_cons_self, hb⟩
    | bad =>
      rw [hb] at h
      cases h
    | ok a =>
      rw [hb, Parsed.all] at h
      have hbs : Parsed.all (bs.map f) = .overrun := by
        cases hall : Parsed.all (bs.map f) with
        | overrun => rfl
        | _ =>
          rw [hall] at h
          cases h
      obtain ⟨c, hc, hover⟩ := ih hbs
      exact ⟨c, List.mem_cons_of_mem b hc, hover⟩

theorem packedSegments_segmentSpecs (segs : List Segment) :
    packedSegments (segmentSpecs segs) = (conversions segs).map (.printfConv · none) := by
  induction segs with
  | nil => rfl
  | cons seg segs ih =>
    cases seg with
    | string s => exact ih
    | printfConv pf userfmt => exact congrArg (_ :: ·) ih

/-- What is packed is what the conversions are parsed to. -/
theorem evlParsePrintfFormat_specs (format : List UInt8) :
    evlParsePrintfFormat false format = (Parsed.all ((specs format).map parsedSpec)).map packedSegments := by
  unfold evlParsePrintfFormat
  rw [parseTurns_conversions, ← parseTurns_specs le_rfl]
  cases parseTurns true format.length format with
  | ok segs => exact congrArg Parsed.ok (packedSegments_segmentSpecs segs).symm
  | _ => rfl

/-! ## Refusals -/

/-- No assertion fails and the format is not read behind its end, and `EINVAL`
is returned just when something of it is malformed or not supported, for any
arguments that are there for the conversions, and any record that is packed
already. -/
def PackHarmless (format : CharPtr) : Prop :=
  ∀ args st, evlPackFormatAndArgs format args st ≠ .crash ∧
    ∀ status st', evlPackFormatAndArgs format args st = .done status st' →
      (status = some .einval ↔ Malformed format.string.bytes)

def RefusedByParser (format : List UInt8) : Prop :=
  ∃ spec ∈ specs format, evlParseFmtConvSpec spec = .bad

/-- All conversions can be parsed, and the first that cannot be packed is a
scalar that is not known. -/
def RefusedByPacker (format : List UInt8) : Prop :=
  ∃ parsed, Parsed.all ((specs format).map parsedSpec) = .ok parsed ∧ firstFate parsed = .unknown

/-- A conversion that takes an argument is parsed, and its argument packed. -/
theorem Takes.parse {spec : List UInt8} {type : CType} (h : Takes spec type) :
    ∃ pf, evlParseFmtConvSpec spec = .ok pf ∧ argType pf.fmModifier pf.fmConversion = some type := by
  obtain ⟨c, rfl, htype⟩ := h
  obtain ⟨pf, hpf, -, hmod, hconv, -⟩ := evlParseFmtConvSpec_text c []
  rw [List.append_nil] at hpf
  exact ⟨pf, hpf, by rw [hmod, hconv]; exact htype⟩

theorem fate_of_argType {pf : ParsedFormat} {type : CType} (h : argType pf.fmModifier pf.fmConversion = some type) :
    pf.fate = .packed := by
  rw [← evlGetTypeFromConversion_passedAs pf (!pf.fmArray)] at h
  unfold ParsedFormat.fate
  cases htype : evlGetTypeFromConversion pf (!pf.fmArray) true with
  | base type => rfl
  | _ =>
    rw [htype] at h
    cases h

theorem mem_specs {spec format : List UInt8} : spec ∈ specs format ↔ Item.conv spec ∈ items format := by
  rw [specs, List.mem_filterMap]
  constructor
  · rintro ⟨item, hitem, heq⟩
    cases item with
    | conv spec' =>
      cases heq
      exact hitem
    | _ => cases heq
  · exact fun h => ⟨_, h, rfl⟩

theorem malformed_of_spec {spec format : List UInt8} (h : spec ∈ specs format) (hno : ∀ type, ¬Takes spec type) :
    Malformed format := ⟨_, mem_specs.1 h, .inr ⟨spec, rfl, hno⟩⟩

theorem malformed_of_parse {spec format : List UInt8} (h : spec ∈ specs format)
    (hno : ∀ pf, evlParseFmtConvSpec spec = .ok pf → pf.fate ≠ .packed) : Malformed format := by
  refine malformed_of_spec h fun type htakes => ?_
  obtain ⟨pf, hpf, htype⟩ := htakes.parse
  exact hno pf hpf (fate_of_argType htype)

theorem malformed_of_firstFate {format : List UInt8} {parsed : List (List UInt8 × ParsedFormat)}
    (hparsed : Parsed.all ((specs format).map parsedSpec) = .ok parsed) (h : firstFate parsed ≠ .packed) :
    Malformed format := by
  have hall := Parsed.all_ok hparsed
  suffices hex : ∃ spec ∈ specs format, ∃ pf, evlParseFmtConvSpec spec = .ok pf ∧ pf.fate ≠ .packed by
    obtain ⟨spec, hspec, pf, hpf, hfate⟩ := hex
    refine malformed_of_parse hspec fun pf' hpf' => ?_
    rw [hpf] at hpf'
    cases hpf'
    exact hfate
  clear hparsed
  revert hall h
  generalize specs format = bs
  intro h hall
  induction hall with
  | nil => exact absurd rfl h
  | @cons spec p bs parsed hp hrest ih =>
    rw [firstFate] at h
    split at h
    · obtain ⟨spec', hspec', hex⟩ := ih h
      exact ⟨spec', List.mem_cons_of_mem _ hspec', hex⟩
    · next hfate => exact ⟨spec, List.mem_cons_self, p.2, (parsedSpec_ok hp).2, hfate⟩

/-- The packing of a format whose conversions are all parsed, up to what the
loop comes to. -/
theorem evlPackFormatAndArgs_parsed {format : CharPtr} {parsed : List (List UInt8 × ParsedFormat)}
    (h : Parsed.all ((specs format.string.bytes).map parsedSpec) = .ok parsed) (args : List Arg) (st : Packing) :
    ∃ st₀, (∀ status st', evlPackFormatAndArgs format args st = .done status st' →
        ∃ status' st₁, packConversions (packedSegments parsed) args st₀ = .done status' st₁ ∧
          (status = some .einval ↔ status' = some .einval)) ∧
      (evlPackFormatAndArgs format args st = .crash ↔
        packConversions (packedSegments parsed) args st₀ = .crash) ∧
      (∀ st₁, packConversions (packedSegments parsed) args st₀ = .done none st₁ →
        ∃ status st', evlPackFormatAndArgs format args st = .done status st' ∧ status ≠ some .einval) := by
  refine ⟨memcpyex (packString st format) (dimObject 0), ?_⟩
  unfold evlPackFormatAndArgs
  rw [evlParsePrintfFormat_specs, h]
  simp only [Parsed.map]
  cases packConversions (packedSegments parsed) args (memcpyex (packString st format) (dimObject 0)) with
  | crash => exact ⟨fun _ _ h => (by cases h), Iff.rfl, fun _ h => (by cases h)⟩
  | noArg => exact ⟨fun _ _ h => (by cases h), iff_of_false (by simp) (by simp), fun _ h => (by cases h)⟩
  | done status st₁ =>
    cases status with
    | none =>
      refine ⟨fun status st' hdone => ⟨none, st₁, rfl, ?_⟩, iff_of_false (by simp) (by simp),
        fun _ _ => ⟨_, _, rfl, ?_⟩⟩
      · cases hdone
        split <;> simp
      · split <;> simp
    | some e =>
      refine ⟨fun status st' hdone => ⟨some e, st₁, rfl, ?_⟩, iff_of_false (by simp) (by simp),
        fun _ h => by cases h⟩
      cases hdone
      exact Iff.rfl

/-- Packing is harmless for the formats that are refused, by the parser or at
the first conversion that cannot be packed, and for those that there is
nothing wrong with, and for no other. -/
theorem packHarmless_iff (format : CharPtr) :
    PackHarmless format ↔ RefusedByParser format.string.bytes ∨ RefusedByPacker format.string.bytes ∨
      ¬Malformed format.string.bytes := by
  have hinit : ∀ spec ∈ (specs format.string.bytes).dropLast, parsedSpec spec ≠ .overrun :=
    fun spec hspec h => (specs_ends _ spec hspec).ne_overrun (parsedSpec_overrun.1 h)
  cases hall : Parsed.all ((specs format.string.bytes).map parsedSpec) with
  | overrun =>
    have hcrash : ∀ args st, evlPackFormatAndArgs format args st = .crash := fun args st => by
      rw [evlPackFormatAndArgs, evlParsePrintfFormat_specs, hall]
      rfl
    obtain ⟨spec, hspec, hover⟩ := Parsed.all_overrun hall
    have hmalformed : Malformed format.string.bytes := malformed_of_parse hspec fun pf hpf => by
      rw [parsedSpec_overrun.1 hover] at hpf
      cases hpf
    constructor
    · exact fun h => absurd (hcrash [] .empty) (h [] .empty).1
    · rintro (⟨spec', hspec', hbad⟩ | ⟨parsed, hok, -⟩ | hno)
      · rw [Parsed.all_of_bad hinit hspec' (parsedSpec_bad.2 hbad)] at hall
        cases hall
      · rw [hall] at hok
        cases hok
      · exact absurd hmalformed hno
  | bad =>
    have hdone : ∀ args st, evlPackFormatAndArgs format args st = .done (some .einval) st := fun args st => by
      rw [evlPackFormatAndArgs, evlParsePrintfFormat_specs, hall]
      rfl
    obtain ⟨spec, hspec, hbad⟩ := Parsed.all_bad hall
    have hmalformed : Malformed format.string.bytes := malformed_of_parse hspec fun pf hpf => by
      rw [parsedSpec_bad.1 hbad] at hpf
      cases hpf
    refine iff_of_true (fun args st => ?_) (.inl ⟨spec, hspec, parsedSpec_bad.1 hbad⟩)
    rw [hdone]
    refine ⟨nofun, fun status st' h => ?_⟩
    cases h
    exact iff_of_true rfl hmalformed
  | ok parsed =>
    have hnobad : ¬RefusedByParser format.string.bytes := by
      rintro ⟨spec, hspec, hbad⟩
      rw [Parsed.all_of_bad hinit hspec (parsedSpec_bad.2 hbad)] at hall
      cases hall
    have hpacker : RefusedByPacker format.string.bytes ↔ firstFate parsed = .unknown := by
      constructor
      · rintro ⟨parsed', hok, hfate⟩
        rw [hall] at hok
        cases hok
        exact hfate
      · exact fun h => ⟨parsed, hall, h⟩
    rw [hpacker, or_iff_right hnobad]
    cases hfate : firstFate parsed with
    | packed =>
      obtain ⟨hloop, args, hargs⟩ := packConversions_packed hfate
      rw [or_iff_right (by decide)]
      constructor
      · intro h hmalformed
        obtain ⟨st₀, -, -, hdone⟩ := evlPackFormatAndArgs_parsed hall args .empty
        obtain ⟨st₁, hst₁⟩ := hargs st₀
        obtain ⟨status, st', hpack, hstatus⟩ := hdone st₁ hst₁
        exact hstatus (((h args .empty).2 status st' hpack).2 hmalformed)
      · intro hno args st
        obtain ⟨st₀, hdone, hcrash, -⟩ := evlPackFormatAndArgs_parsed hall args st
        constructor
        · rw [Ne, hcrash]
          rcases hloop args st₀ with h | ⟨st', h⟩ <;> rw [h] <;> exact nofun
        · intro status st' hpack
          obtain ⟨status', st₁, hpack', hiff⟩ := hdone status st' hpack
          rw [hiff]
          refine iff_of_false ?_ hno
          rcases hloop args st₀ with h | ⟨st'', h⟩
          · rw [h] at hpack'
            cases hpack'
          · rw [h] at hpack'
            cases hpack'
            exact nofun
    | unknown =>
      have hmalformed := malformed_of_firstFate hall (by rw [hfate]; decide)
      refine iff_of_true (fun args st => ?_) (.inl rfl)
      obtain ⟨st₀, hdone, hcrash, -⟩ := evlPackFormatAndArgs_parsed hall args st
      have hloop := packConversions_unknown hfate args st₀
      constructor
      · rw [Ne, hcrash]
        rcases hloop with h | ⟨st', h⟩ <;> rw [h] <;> exact nofun
      · intro status st' hpack
        obtain ⟨status', st₁, hpack', hiff⟩ := hdone status st' hpack
        rw [hiff]
        refine iff_of_true ?_ hmalformed
        rcases hloop with h | ⟨st'', h⟩
        · rw [h] at hpack'
          cases hpack'
        · rw [h] at hpack'
          cases hpack'
          rfl
    | asserts =>
      have hmalformed := malformed_of_firstFate hall (by rw [hfate]; decide)
      refine iff_of_false (fun h => ?_) (by simp [hmalformed])
      obtain ⟨args, hargs⟩ := packConversions_asserts hfate
      obtain ⟨st₀, -, hcrash, -⟩ := evlPackFormatAndArgs_parsed hall args .empty
      exact (h args .empty).1 (hcrash.2 (hargs st₀))

end Evlog.Printf
