/-
Evlog.Printf.CmdArgsTheorems — a record from a command line is the one that
a program packs.

`Texts.Given` says that some texts are those of an argument. `decodeConversion_read`
and `packConversion_given` have the two loops side by side, a conversion at a
time: they take the same arguments and store the same bytes, only that the
elements of an array are stored in a row by the one and each for itself by
the other. As long as all of it fits this is the same, and when it does not,
both see that (`past_iff`).

What is left is an array conversion of no known type. `evl_pack_format_and_args`
has an assertion there, but from the command line no element is decoded when
there is none, and such a record is built (`BuiltAlone`).
-/
import Evlog.Printf.CmdArgs
import Evlog.Printf.RefusalTheorems

namespace Evlog.Printf

open Evlog.Lib
open Evlog.Posix (CharPtr WcharPtr Object Packing Piece memcpyex packString packWstring serialise maxlen
  posixLogEntryMaxlen)
open Evlog.Template (BaseType)

/-! ## Texts -/

/-- The decimal texts of real numbers and the texts of wide strings, as far as
they have any, and that the C library reads them back. What the padding of a
`long double` has in it counts as its value. A `float` is passed as a `double`
and is the same behind the cast back. -/
structure Texts (lib : Libc) where
  float : Scalar .float → Option (List UInt8)
  double : Scalar .double → Option (List UInt8)
  ldouble : Scalar .ldouble → Option (List UInt8)
  wide : WcharPtr → Option (List UInt8)
  passed : Scalar .float → Scalar .double
  sscanf_float : ∀ {v t}, float v = some t → lib.sscanf t = (1, v, false)
  strtod_double : ∀ {v t}, double v = some t → lib.strtod t = ⟨v, [], false⟩
  strtold_ldouble : ∀ {v t}, ldouble v = some t → lib.strtold t = ⟨v, [], false⟩
  mbstowcs_wide : ∀ {s : WcharPtr} {t : CharPtr}, wide s = some t.string.bytes → lib.mbstowcs t = s
  castFloat_passed : ∀ {v t}, float v = some t → lib.castFloat (passed v) = v
  /-- No character has less than a byte. -/
  length_wide : ∀ {s : WcharPtr} {t : List UInt8}, wide s = some t → s.chars.length ≤ t.length

section

variable {lib : Libc} (T : Texts lib)

def Texts.text : (type : BaseType) → Scalar type → Option (List UInt8)
  | .float, v => T.float v
  | .double, v => T.double v
  | .ldouble, v => T.ldouble v
  | .string, _ => none
  | .wstring, _ => none
  | type, v => some (if type.isSigned then CString.signedDecimal (leInt v.bytes) else CString.decimal (leNat v.bytes))

def Texts.Shows (bytes : List UInt8) (type : BaseType) (t : CharPtr) : Prop :=
  ∃ v : Scalar type, v.bytes = bytes ∧ T.text type v = some t.string.bytes

/-- The texts are those of the elements, for the type that they are decoded
for. -/
inductive Texts.OfElements : BaseType → Elements → List CharPtr → Prop where
  | scalars {type type' : BaseType} {values : List (Scalar type')} {ts : List CharPtr}
      (hscalar : type'.isScalar = true) (h : List.Forall₂ (fun v t => T.Shows v.bytes type t) values ts) :
      Texts.OfElements type (.scalars type' values) ts
  | strings (ss : List CharPtr) : Texts.OfElements .string (.strings ss) ss
  | wstrings {ss : List WcharPtr} {ts : List CharPtr}
      (h : List.Forall₂ (fun s (t : CharPtr) => T.wide s = some t.string.bytes) ss ts) :
      Texts.OfElements .wstring (.wstrings ss) ts

/-! ## Decoding -/

theorem decodeSint_signedDecimal {size : Nat} (hsize : size = 1 ∨ size = 2 ∨ size = 4 ∨ size = 8) {n : Int}
    (hmin : -(256 ^ size : Nat) ≤ 2 * n) (hmax : 2 * n < (256 ^ size : Nat)) :
    decodeSint (CString.signedDecimal n) size = .ok n := by
  have hread : CString.strtoll (CString.signedDecimal n) = ⟨n, [], false⟩ := by
    apply CString.strtoll_signedDecimal <;> rcases hsize with rfl | rfl | rfl | rfl <;> omega
  unfold decodeSint
  rw [hread]
  rcases hsize with rfl | rfl | rfl | rfl
  all_goals
    dsimp only
    rw [if_neg (by simp)]
    simp only [Nat.reduceEqDiff, if_true, if_false]
    rw [if_neg (by omega)]

theorem decodeUint_decimal {size : Nat} (hsize : size = 1 ∨ size = 2 ∨ size = 4 ∨ size = 8) {n : Nat}
    (hmax : n < 256 ^ size) : decodeUint (CString.decimal n) size = .ok (UInt64.ofNat n) := by
  have hn : n < 2 ^ 64 := by rcases hsize with rfl | rfl | rfl | rfl <;> omega
  have hnat : (UInt64.ofNat n).toNat = n := UInt64.toNat_ofNat_of_lt' hn
  unfold decodeUint
  rw [CString.strtoull_decimal hn]
  rcases hsize with rfl | rfl | rfl | rfl
  all_goals
    dsimp only
    rw [if_neg (by simp)]
    simp only [Nat.reduceEqDiff, if_true, if_false]
    rw [if_neg (by rw [UInt64.lt_iff_toNat_lt, hnat]; simp; omega)]

variable {type type' : BaseType}

theorem Scalar.ofInt_leInt (v : Scalar type) : Scalar.ofInt type (leInt v.bytes) = v := by
  have h := intBytes_leInt v.bytes
  rw [v.size] at h
  obtain ⟨bytes, size⟩ := v
  simp only [Scalar.ofInt, h]

theorem Scalar.ofUint_leNat (v : Scalar type) (h : leNat v.bytes < 2 ^ 64) :
    Scalar.ofUint type (UInt64.ofNat (leNat v.bytes)) = v := by
  have hbytes := leBytes_leNat v.bytes
  rw [v.size] at hbytes
  obtain ⟨bytes, size⟩ := v
  simp only [Scalar.ofUint, UInt64.toNat_ofNat_of_lt' h, hbytes]

theorem orChar_ok {α : Type} (val : List UInt8) (ofChar : Int8 → α) (a : α) :
    orChar val ofChar (.ok a) = .ok a := by
  cases val <;> rfl

theorem decodeSint_text (h : type.isSigned = true) (v : Scalar type) :
    decodeSint (CString.signedDecimal (leInt v.bytes)) (ConvType.base type).size = .ok (leInt v.bytes) := by
  have hbounds := leInt_bounds v.bytes
  rw [v.size] at hbounds
  refine decodeSint_signedDecimal ?_ hbounds.1 hbounds.2
  cases type <;> first | decide | cases h

theorem decodeUint_text (h : type.isInteger = true) (v : Scalar type) :
    decodeUint (CString.decimal (leNat v.bytes)) (ConvType.base type).size = .ok (UInt64.ofNat (leNat v.bytes)) ∧
      Scalar.ofUint type (UInt64.ofNat (leNat v.bytes)) = v := by
  have hsize : (ConvType.base type).size = 1 ∨ (ConvType.base type).size = 2 ∨ (ConvType.base type).size = 4 ∨
      (ConvType.base type).size = 8 := by
    cases type <;> first | decide | cases h
  have hlt := leNat_lt v.bytes
  rw [v.size] at hlt
  refine ⟨decodeUint_decimal hsize hlt, v.ofUint_leNat ?_⟩
  rcases hsize with hs | hs | hs | hs <;> rw [hs] at hlt <;> omega

/-- A text is decoded to the value that it is the text of. -/
theorem decodeScalar_text {v : Scalar type} {t : List UInt8} (h : T.text type v = some t) :
    decodeScalar lib t type = .ok v := by
  have hsint : ∀ {type : BaseType} (v : Scalar type), type.isSigned = true →
      (decodeSint (CString.signedDecimal (leInt v.bytes)) (ConvType.base type).size).map (Scalar.ofInt type) = .ok v :=
    fun v hsigned => by rw [decodeSint_text hsigned v, Except.map, v.ofInt_leInt]
  have huint : ∀ {type : BaseType} (v : Scalar type), type.isInteger = true →
      (decodeUint (CString.decimal (leNat v.bytes)) (ConvType.base type).size).map (Scalar.ofUint type) = .ok v :=
    fun v hinteger => by
      obtain ⟨hdecode, hv⟩ := decodeUint_text hinteger v
      rw [hdecode, Except.map, hv]
  cases type with
  | float =>
    rw [decodeScalar, T.sscanf_float h]
    rfl
  | double =>
    rw [decodeScalar, T.strtod_double h]
    rfl
  | ldouble =>
    rw [decodeScalar, T.strtold_ldouble h]
    rfl
  | string => cases h
  | wstring => cases h
  | char =>
    cases h
    have hdecode : decodeSint (CString.signedDecimal (leInt v.bytes)) 1 = _ := decodeSint_text rfl v
    change (orChar _ _ (decodeSint (CString.signedDecimal (leInt v.bytes)) 1)).map _ = _
    rw [hdecode, orChar_ok, Except.map, v.ofInt_leInt]
  | wchar =>
    cases h
    have hdecode : decodeSint (CString.signedDecimal (leInt v.bytes)) 4 = _ := decodeSint_text rfl v
    change (orChar _ _ (decodeSint (CString.signedDecimal (leInt v.bytes)) 4)).map _ = _
    rw [hdecode, orChar_ok, Except.map, v.ofInt_leInt]
  | uchar =>
    cases h
    have hdecode : decodeUint (CString.decimal (leNat v.bytes)) 1 = _ := (decodeUint_text rfl v).1
    change (orChar _ _ (decodeUint (CString.decimal (leNat v.bytes)) 1)).map _ = _
    rw [hdecode, orChar_ok, Except.map, (decodeUint_text rfl v).2]
  | short | int | long | longlong =>
    cases h
    exact hsint v rfl
  | ushort | uint | ulong | ulonglong | address =>
    cases h
    exact huint v rfl

/-! ## Loops over texts -/

/-- What is packed for the elements of an array, each for itself. -/
def Elements.each : Elements → List Piece
  | .scalars _ values => values.map fun v => .block v.object
  | .strings ss => ss.map .string
  | .wstrings ss => ss.map fun s => .block s.object

/-- What is packed for an argument from the command line. -/
def Arg.each : Arg → List Piece
  | .array a => .block (dimObject a.elements.length) :: .string a.delim :: a.elements.each
  | arg => arg.pieces

theorem Elements.serialise_each (e : Elements) : serialise e.each = e.passed.flatMap Passed.bytes := by
  cases e <;> simp only [Elements.each, Elements.passed, serialise, List.flatMap_map] <;> rfl

theorem Arg.serialise_each (arg : Arg) : serialise arg.each = arg.bytes := by
  cases arg with
  | array a =>
    rw [Arg.bytes, List.append_assoc, ← a.elements.serialise_each]
    rfl
  | scalar type v => exact (Arg.scalar type v).serialise_pieces
  | string s => exact (Arg.string s).serialise_pieces
  | wstring s => exact (Arg.wstring s).serialise_pieces

def Decodes (lib : Libc) (type : ConvType) (t : CharPtr) (p : Piece) : Prop :=
  ∀ nelements st, decodeArg lib (some t) type nelements st = .ok (p.exec st)

theorem decodeArg_scalar (lib : Libc) (h : type.isScalar = true) (t : CharPtr) (nelements : Int)
    (st : Packing) : decodeArg lib (some t) (.base type) nelements st =
      match decodeScalar lib t.string.bytes type with
      | .error status => .error (some (reportBadVal t status))
      | .ok v => .ok (memcpyex st v.object) := by
  cases type <;> first | rfl | cases h

theorem Scalar.object_congr {v : Scalar type} {w : Scalar type'} (h : v.bytes = w.bytes) :
    v.object = w.object := by
  simp only [Scalar.object, h]

variable {T}

variable {t dim : CharPtr}

theorem Texts.Shows.isScalar {bytes : List UInt8} (h : T.Shows bytes type t) :
    type.isScalar = true := by
  obtain ⟨v, -, htext⟩ := h
  cases type <;> first | rfl | cases htext

theorem Texts.Shows.decodes {v : Scalar type'} (h : T.Shows v.bytes type t) :
    Decodes lib (.base type) t (.block v.object) := by
  have hscalar := h.isScalar
  obtain ⟨w, hbytes, htext⟩ := h
  intro nelements st
  rw [decodeArg_scalar lib hscalar, decodeScalar_text T htext, ← Scalar.object_congr hbytes]
  rfl

theorem decodes_string (s : CharPtr) : Decodes lib (.base .string) s (.string s) := fun _ _ => rfl

theorem decodes_wstring {s : WcharPtr} (h : T.wide s = some t.string.bytes) :
    Decodes lib (.base .wstring) t (.block s.object) := by
  intro nelements st
  rw [decodeArg, T.mbstowcs_wide h]
  rfl

variable {ts texts : List CharPtr}

theorem decodeArgs_decodes {type : ConvType} {ps : List Piece}
    (h : List.Forall₂ (Decodes lib type) ts ps) (nelements : Int) (argv : List CharPtr)
    (st : Packing) :
    decodeArgs lib type nelements ts.length (ts ++ argv) st = .ok (argv, ps.foldl Piece.exec st) := by
  induction h generalizing st with
  | nil => rfl
  | cons hp _ ih =>
    rw [List.length_cons, List.cons_append, decodeArgs, List.head?_cons, hp]
    exact ih _

variable {e : Elements}

theorem Texts.OfElements.decodes (h : T.OfElements type e ts) :
    List.Forall₂ (Decodes lib (.base type)) ts e.each := by
  cases h with
  | scalars _ h =>
    rw [Elements.each, List.forall₂_map_right_iff]
    exact (h.imp fun _ _ hshows => hshows.decodes).flip
  | strings =>
    rw [Elements.each, List.forall₂_map_right_iff]
    exact List.forall₂_same.2 fun s _ => decodes_string s
  | wstrings h =>
    rw [Elements.each, List.forall₂_map_right_iff]
    exact (h.imp fun _ _ hwide => decodes_wstring hwide).flip

theorem Elements.length_each (e : Elements) : e.each.length = e.length := by
  cases e <;> exact List.length_map _

theorem Texts.OfElements.length_eq (h : T.OfElements type e ts) :
    ts.length = e.length := h.decodes.length_eq.trans e.length_each

theorem Texts.OfElements.decodes_all (h : T.OfElements type e ts) (nelements : Int)
    (argv : List CharPtr) (st : Packing) :
    decodeArgs lib (.base type) nelements e.length (ts ++ argv) st = .ok (argv, e.each.foldl Piece.exec st) := by
  rw [← h.length_eq]
  exact decodeArgs_decodes h.decodes nelements argv st

/-! ## Types -/

/-- The type of a conversion is the same for both but for that of an integer,
which may lose its sign. -/
theorem evlGetTypeFromConversion_unsigned (pf : ParsedFormat) (promote : Bool) :
    evlGetTypeFromConversion pf promote false = evlGetTypeFromConversion pf promote true ∨
      (evlGetTypeFromConversion pf promote true = adjustIntType pf.fmModifier promote ∧
        evlGetTypeFromConversion pf promote false = adjustUintType pf.fmModifier promote) := by
  simp only [evlGetTypeFromConversion, Bool.false_eq_true, if_true, if_false]
  by_cases hc : pf.fmConversion = 0x63
  · simp only [if_pos hc, true_or]
  rw [if_neg hc, if_neg hc]
  by_cases hd : pf.fmConversion = 0x64 ∨ pf.fmConversion = 0x69
  · simp only [if_pos hd, true_or]
  rw [if_neg hd, if_neg hd]
  by_cases hu : pf.fmConversion = 0x6f ∨ pf.fmConversion = 0x75 ∨ pf.fmConversion = 0x78 ∨ pf.fmConversion = 0x58
  · simp only [if_pos hu, true_and, or_true]
  · simp only [if_neg hu, true_or]

variable {pf : ParsedFormat}

theorem unsigned_of_base {promote : Bool}
    (h : evlGetTypeFromConversion pf promote true = .base type) (hscalar : type.isScalar = false) :
    evlGetTypeFromConversion pf promote false = .base type := by
  rcases evlGetTypeFromConversion_unsigned pf promote with hsame | ⟨hint, -⟩
  · rw [hsame, h]
  · rw [h, eq_comm] at hint
    unfold adjustIntType at hint
    split_ifs at hint <;> cases hint <;> cases hscalar

theorem unsigned_of_not_base {promote : Bool}
    (h : ∀ type, evlGetTypeFromConversion pf promote true ≠ .base type) :
    ∀ type, evlGetTypeFromConversion pf promote false ≠ .base type := by
  rcases evlGetTypeFromConversion_unsigned pf promote with hsame | ⟨hint, huint⟩
  · rw [hsame]
    exact h
  · rw [hint] at h
    rw [huint]
    unfold adjustUintType
    split
    all_goals
      first
        | next heq => exact absurd heq (h _)
        | exact h

/-- A conversion has a type, or it has none, which is no matter to an array
without elements on the command line. -/
theorem fate_packed_iff :
    pf.fate = .packed ↔ ∃ type, evlGetTypeFromConversion pf (!pf.fmArray) true = .base type := by
  unfold ParsedFormat.fate
  cases evlGetTypeFromConversion pf (!pf.fmArray) true with
  | base type => simp
  | special => simp
  | none => cases pf.fmArray <;> simp

/-! ## A conversion -/

/-- The texts are those of the argument of the conversion. Where the conversion
has no type they are any. -/
inductive Texts.Given (T : Texts lib) (pf : ParsedFormat) : Arg → List CharPtr → Prop where
  | scalar {type type' : BaseType} {v : Scalar type} {t : CharPtr} (hfits : (Arg.scalar type v).Fits pf)
      (htype : evlGetTypeFromConversion pf true false = .base type') (hshows : T.Shows v.bytes type' t) :
      Texts.Given T pf (.scalar type v) [t]
  | string {s : CharPtr} (hfits : (Arg.string s).Fits pf) : Texts.Given T pf (.string s) [s]
  | wstring {s : WcharPtr} {t : CharPtr} (hfits : (Arg.wstring s).Fits pf) (hwide : T.wide s = some t.string.bytes) :
      Texts.Given T pf (.wstring s) [t]
  | array {a : ArrayArg} {type : BaseType} {dim : CharPtr} {ts : List CharPtr} (hfits : (Arg.array a).Fits pf)
      (htype : evlGetTypeFromConversion pf false false = .base type)
      (hdim : dim.string.bytes = CString.decimal a.elements.length) (helements : T.OfElements type a.elements ts) :
      Texts.Given T pf (.array a) (dim :: a.delim :: ts)
  | untyped {arg : Arg} {t : CharPtr} (halone : pf.fmArray = false)
      (hno : ∀ type, evlGetTypeFromConversion pf true true ≠ .base type) : Texts.Given T pf arg [t]
  | untypedArray {a : ArrayArg} {dim : CharPtr} {ts : List CharPtr} (harray : pf.fmArray = true)
      (hno : ∀ type, evlGetTypeFromConversion pf false true ≠ .base type)
      (hdim : dim.string.bytes = CString.decimal a.elements.length) (hlen : ts.length = a.elements.length) :
      Texts.Given T pf (.array a) (dim :: a.delim :: ts)

def Arg.Empty : Arg → Prop
  | .array a => a.elements.length = 0
  | _ => False

/-- The conversion is decoded from the command line: it has a type, or is that
of an array without elements. -/
def Read (pf : ParsedFormat) (arg : Arg) : Prop :=
  pf.fate = .packed ∨ (pf.fmArray = true ∧ arg.Empty)

variable {arg : Arg}

theorem Arg.Fits.fate (h : arg.Fits pf) : pf.fate = .packed := by
  rw [fate_packed_iff]
  cases arg with
  | scalar type v => exact ⟨type, by rw [h.1]; exact h.2.1⟩
  | string s => exact ⟨.string, by rw [h.1]; exact h.2⟩
  | wstring s => exact ⟨.wstring, by rw [h.1]; exact h.2⟩
  | array a => exact ⟨a.elements.type, by rw [h.1]; exact h.2.1⟩

theorem Read.typed (h : Read pf arg) (halone : pf.fmArray = false) :
    ∃ type, evlGetTypeFromConversion pf true true = .base type := by
  rcases h with hpacked | ⟨harray, -⟩
  · obtain ⟨type, htype⟩ := fate_packed_iff.1 hpacked
    rw [halone] at htype
    exact ⟨type, htype⟩
  · rw [halone] at harray
    cases harray

theorem Read.empty (h : Read pf arg) (harray : pf.fmArray = true)
    (hno : ∀ type, evlGetTypeFromConversion pf false true ≠ .base type) : arg.Empty := by
  rcases h with hpacked | ⟨-, hempty⟩
  · obtain ⟨type, htype⟩ := fate_packed_iff.1 hpacked
    rw [harray] at htype
    exact absurd htype (hno type)
  · exact hempty

theorem decodeSint_dim {n : Nat} (hdim : dim.string.bytes = CString.decimal n) (hlt : n < 2 ^ 31) :
    decodeSint dim.string.bytes 4 = .ok (n : Int) := by
  have hsigned : CString.decimal n = CString.signedDecimal (n : Int) := by
    rw [CString.signedDecimal, if_neg (by omega), Int.natAbs_natCast]
  rw [hdim, hsigned]
  exact decodeSint_signedDecimal (by decide) (by omega) (by omega)

theorem decodeConversion_alone (h : pf.fmArray = false) (argv : List CharPtr) (st : Packing) :
    decodeConversion lib pf argv st = decodeArgs lib (evlGetTypeFromConversion pf true false) 1 1 argv st := by
  unfold decodeConversion
  rw [if_neg (by simp [h])]

/-- An array is decoded with its dimension and its delimiter. -/
theorem decodeConversion_array (h : pf.fmArray = true) {a : ArrayArg}
    (hdim : dim.string.bytes = CString.decimal a.elements.length) (argv : List CharPtr)
    (st : Packing) :
    decodeConversion lib pf (dim :: a.delim :: argv) st =
      decodeArgs lib (evlGetTypeFromConversion pf false false) a.elements.length a.elements.length argv
        (packString (memcpyex st (dimObject a.elements.length)) a.delim) := by
  unfold decodeConversion
  rw [if_pos h]
  dsimp only
  rw [decodeSint_dim hdim a.dim_lt]
  dsimp only
  rw [if_neg (by omega), Int.toNat_natCast]

theorem decodeArgs_untyped {type : ConvType} (h : ∀ type', type ≠ .base type') (nelements : Int) (n : Nat) (t : CharPtr)
    (argv : List CharPtr) (st : Packing) : decodeArgs lib type nelements (n + 1) (t :: argv) st = .error none := by
  cases type with
  | base type => exact absurd rfl (h type)
  | none => rfl
  | special => rfl

/-- A conversion that is decoded has its argument packed. -/
theorem decodeConversion_read (h : T.Given pf arg ts) (hread : Read pf arg) (argv : List CharPtr)
    (st : Packing) :
    decodeConversion lib pf (ts ++ argv) st = .ok (argv, arg.each.foldl Piece.exec st) := by
  have hone : ∀ {type : BaseType} {t : CharPtr} {p : Piece}, pf.fmArray = false →
      evlGetTypeFromConversion pf true false = .base type → Decodes lib (.base type) t p →
      decodeConversion lib pf ([t] ++ argv) st = .ok (argv, [p].foldl Piece.exec st) := by
    intro type t p halone htype hdecodes
    rw [decodeConversion_alone halone, htype]
    exact decodeArgs_decodes (.cons hdecodes .nil) 1 argv st
  cases h with
  | scalar hfits htype hshows => exact hone hfits.1 htype hshows.decodes
  | string hfits => exact hone hfits.1 (unsigned_of_base hfits.2 rfl) (decodes_string _)
  | wstring hfits hwide => exact hone hfits.1 (unsigned_of_base hfits.2 rfl) (decodes_wstring hwide)
  | array hfits htype hdim helements =>
    rw [List.cons_append, List.cons_append, decodeConversion_array hfits.1 hdim, htype, helements.decodes_all]
    rfl
  | untyped halone hno =>
    obtain ⟨type, htype⟩ := hread.typed halone
    exact absurd htype (hno type)
  | @untypedArray a dim ts harray hno hdim hlen =>
    have hzero : a.elements.length = 0 := hread.empty harray hno
    have hnil : ts = [] := List.length_eq_zero_iff.1 (hlen.trans hzero)
    have heach : a.elements.each = [] := List.length_eq_zero_iff.1 (a.elements.length_each.trans hzero)
    subst hnil
    rw [List.cons_append, List.cons_append, decodeConversion_array harray hdim, Arg.each, heach, hzero]
    rfl

theorem decodeConversion_unread (h : T.Given pf arg ts) (hread : ¬ Read pf arg)
    (argv : List CharPtr) (st : Packing) :
    decodeConversion lib pf (ts ++ argv) st = .error none := by
  cases h with
  | scalar hfits _ _ => exact absurd (.inl hfits.fate) hread
  | string hfits => exact absurd (.inl hfits.fate) hread
  | wstring hfits _ => exact absurd (.inl hfits.fate) hread
  | array hfits _ _ _ => exact absurd (.inl hfits.fate) hread
  | untyped halone hno =>
    rw [decodeConversion_alone halone]
    exact decodeArgs_untyped (unsigned_of_not_base hno) 1 0 _ argv st
  | @untypedArray a dim ts harray hno hdim hlen =>
    have hpos : a.elements.length ≠ 0 := fun hzero => hread (.inr ⟨harray, hzero⟩)
    cases ts with
    | nil => exact absurd hlen.symm hpos
    | cons t ts =>
      rw [List.cons_append, List.cons_append, decodeConversion_array harray hdim, List.cons_append, ← hlen,
        List.length_cons]
      exact decodeArgs_untyped (unsigned_of_not_base hno) _ _ t _ _

/-! ### From the values -/

theorem packArray_elements {a : ArrayArg} (h : T.OfElements type a.elements ts)
    (hpassable : Passable a.elements.type) (args : List Arg) (st : Packing) :
    packArray st a (.base a.elements.type) args = .next args ((Arg.array a).pieces.foldl Piece.exec st) := by
  obtain ⟨elements, delim, hlt⟩ := a
  have hfold : ∀ ps : List Piece,
      (Piece.block (dimObject elements.length) :: .string delim :: ps).foldl Piece.exec st
        = ps.foldl Piece.exec (packString (memcpyex st (dimObject elements.length)) delim) := fun _ => rfl
  rw [Arg.pieces, hfold]
  cases h with
  | strings ss =>
    rw [ArrayArg.pieces, List.foldl_map]
    rfl
  | wstrings h =>
    rw [ArrayArg.pieces, List.foldl_map]
    rfl
  | @scalars _ type' values _ hscalar h =>
    have hpassed : passed type' = true := by
      rcases hpassable with hs | hs | hs
      · change type' = _ at hs
        rw [hs] at hscalar
        cases hscalar
      · change type' = _ at hs
        rw [hs] at hscalar
        cases hscalar
      · exact hs
    change packArray st ⟨.scalars type' values, delim, hlt⟩ (.base type') args =
      .next args (memcpyex (packString (memcpyex st (dimObject values.length)) delim) (arrayObject values hlt))
    have hcode : packArray st ⟨.scalars type' values, delim, hlt⟩ (.base type') args =
        if ConvType.base type' = .base type' then
          .next args (memcpyex (packString (memcpyex st (dimObject values.length)) delim) (arrayObject values hlt))
        else .noArg := by
      cases type' <;> first | rfl | cases hpassed
    rw [hcode, if_pos rfl]

/-- A conversion that has a type has its argument packed. -/
theorem packConversion_given (h : T.Given pf arg ts) (hfate : pf.fate = .packed) (args : List Arg)
    (st : Packing) :
    packConversion pf (arg :: args) st = .next args (arg.pieces.foldl Piece.exec st) := by
  cases h with
  | scalar hfits _ _ =>
    rw [packConversion_alone hfits.1 hfits.2.1 hfits.2.2]
    exact if_pos rfl
  | string hfits => rw [packConversion_string hfits.1 hfits.2]; rfl
  | wstring hfits _ => rw [packConversion_wstring hfits.1 hfits.2]; rfl
  | array hfits _ _ helements =>
    rw [packConversion_array hfits.1 hfits.2.1]
    exact packArray_elements helements (evlGetTypeFromConversion_base hfits.2.1) args st
  | untyped halone hno =>
    obtain ⟨type, htype⟩ := fate_packed_iff.1 hfate
    rw [halone] at htype
    exact absurd htype (hno type)
  | untypedArray harray hno _ _ =>
    obtain ⟨type, htype⟩ := fate_packed_iff.1 hfate
    rw [harray] at htype
    exact absurd htype (hno type)

theorem packConversion_untyped (h : T.Given pf arg ts) (hfate : pf.fate ≠ .packed) (args : List Arg)
    (st : Packing) :
    packConversion pf (arg :: args) st = .crash ∨ packConversion pf (arg :: args) st = .unknown := by
  unfold packConversion
  cases h with
  | scalar hfits _ _ => exact absurd hfits.fate hfate
  | string hfits => exact absurd hfits.fate hfate
  | wstring hfits _ => exact absurd hfits.fate hfate
  | array hfits _ _ _ => exact absurd hfits.fate hfate
  | untyped halone hno =>
    rw [if_neg (by simp [halone])]
    cases htype : evlGetTypeFromConversion pf true true with
    | base type => exact absurd htype (hno type)
    | none => exact .inr rfl
    | special => exact .inl rfl
  | untypedArray harray hno _ _ =>
    rw [if_pos harray]
    cases htype : evlGetTypeFromConversion pf false true with
    | base type => exact absurd htype (hno type)
    | none => exact .inl rfl
    | special => exact .inl rfl

/-! ## All conversions -/

/-- The texts are those of the arguments, one conversion after the other. -/
inductive Texts.GivenAll (T : Texts lib) : List ParsedFormat → List Arg → List CharPtr → Prop where
  | nil : Texts.GivenAll T [] [] []
  | cons {pf : ParsedFormat} {arg : Arg} {pfs : List ParsedFormat} {args : List Arg} {ts texts : List CharPtr}
      (h : T.Given pf arg ts) (hrest : Texts.GivenAll T pfs args texts) :
      Texts.GivenAll T (pf :: pfs) (arg :: args) (ts ++ texts)

def bareSegments (pfs : List ParsedFormat) : List Segment := pfs.map (.printfConv · none)

variable {pfs : List ParsedFormat} {args : List Arg}

theorem decodeConversions_read (h : T.GivenAll pfs args texts) (hread : List.Forall₂ Read pfs args)
    (argv : List CharPtr) (st : Packing) :
    decodeConversions lib (bareSegments pfs) (texts ++ argv) st =
      .done none none argv ((args.flatMap Arg.each).foldl Piece.exec st) := by
  induction h generalizing st with
  | nil => rfl
  | cons h _ ih =>
    cases hread with
    | cons hone hrest =>
      rw [List.append_assoc, bareSegments, List.map_cons, decodeConversions, decodeConversion_read h hone,
        List.flatMap_cons, List.foldl_append]
      exact ih hrest _

theorem decodeConversions_unread (h : T.GivenAll pfs args texts)
    (hread : ¬ List.Forall₂ Read pfs args) (argv : List CharPtr) (st : Packing) :
    decodeConversions lib (bareSegments pfs) (texts ++ argv) st = .refused none := by
  induction h generalizing st with
  | nil => exact absurd .nil hread
  | @cons pf arg pfs args ts texts h _ ih =>
    rw [List.append_assoc, bareSegments, List.map_cons, decodeConversions]
    by_cases hone : Read pf arg
    · rw [decodeConversion_read h hone]
      exact ih (fun hrest => hread (.cons hone hrest)) _
    · rw [decodeConversion_unread h hone]

theorem packConversions_given (h : T.GivenAll pfs args texts)
    (hfate : ∀ pf ∈ pfs, pf.fate = .packed) (st : Packing) :
    packConversions (bareSegments pfs) args st = .done none ((args.flatMap Arg.pieces).foldl Piece.exec st) := by
  induction h generalizing st with
  | nil => rfl
  | cons h _ ih =>
    rw [bareSegments, List.map_cons, packConversions, packConversion_given h (hfate _ List.mem_cons_self),
      List.flatMap_cons, List.foldl_append]
    exact ih (fun pf hpf => hfate pf (List.mem_cons_of_mem _ hpf)) _

theorem packConversions_untyped (h : T.GivenAll pfs args texts)
    (hfate : ¬ ∀ pf ∈ pfs, pf.fate = .packed) (st : Packing) :
    packConversions (bareSegments pfs) args st = .crash ∨
      ∃ st', packConversions (bareSegments pfs) args st = .done (some .einval) st' := by
  induction h generalizing st with
  | nil => exact absurd (fun _ hpf => absurd hpf List.not_mem_nil) hfate
  | @cons pf arg pfs args ts texts h _ ih =>
    rw [bareSegments, List.map_cons, packConversions]
    by_cases hone : pf.fate = .packed
    · rw [packConversion_given h hone]
      refine ih (fun hrest => hfate fun pf' hpf' => ?_) _
      rcases List.mem_cons.1 hpf' with rfl | hmem
      · exact hone
      · exact hrest pf' hmem
    · rcases packConversion_untyped h hone args st with hcrash | hunknown
      · rw [hcrash]
        exact .inl rfl
      · rw [hunknown]
        exact .inr ⟨st, rfl⟩

/-! ## Sizes -/

def textSize (ts : List CharPtr) : Nat := (ts.map fun t => t.bytes.length).sum

/-- The arguments of a process: they are in its memory one behind the other. -/
structure Argv where
  strings : List CharPtr
  size_lt : textSize strings < 2 ^ 48

theorem textSize_append (ts texts : List CharPtr) : textSize (ts ++ texts) = textSize ts + textSize texts := by
  simp [textSize]

theorem textSize_cons (t : CharPtr) (ts : List CharPtr) : textSize (t :: ts) = t.bytes.length + textSize ts := by
  simp [textSize]

theorem length_charPtr (s : CharPtr) : s.bytes.length = s.string.bytes.length + 1 := List.length_append ..

/-- The elements take a size that their texts are the measure of. -/
theorem Texts.OfElements.size_le (h : T.OfElements type e ts) :
    (e.passed.flatMap Passed.bytes).length ≤ 16 * textSize ts := by
  cases h with
  | @scalars _ type' values ts _ h =>
    clear * - h
    induction h with
    | nil => simp [Elements.passed]
    | @cons v t values ts _ _ ih =>
      have hv := v.size
      have htype := Printf.size_le type'
      have ht := length_charPtr t
      simp only [Elements.passed, List.map_cons, List.flatMap_cons, List.length_append, textSize_cons] at ih ⊢
      change v.bytes.length + _ ≤ _
      omega
  | strings =>
    induction ts with
    | nil => simp [Elements.passed]
    | cons s ts ih =>
      simp only [Elements.passed, List.map_cons, List.flatMap_cons, List.length_append, textSize_cons] at ih ⊢
      change s.bytes.length + _ ≤ _
      omega
  | @wstrings ss ts h =>
    induction h with
    | nil => simp [Elements.passed]
    | @cons s t ss ts hwide _ ih =>
      have hs := s.length_bytes
      have hle := T.length_wide hwide
      have ht := length_charPtr t
      simp only [Elements.passed, List.map_cons, List.flatMap_cons, List.length_append, textSize_cons] at ih ⊢
      change s.bytes.length + _ ≤ _
      omega

theorem Texts.Given.size_le (h : T.Given pf arg ts) (hread : Read pf arg) :
    arg.bytes.length ≤ 16 * textSize ts := by
  have hdim : ∀ n, (dimBytes n).length = 4 := fun n => leBytes_length 4 n
  cases h with
  | @scalar type _ v t hfits _ _ =>
    have hv := v.size
    have htype := Printf.size_le type
    have ht := length_charPtr t
    rw [Arg.bytes, textSize_cons]
    omega
  | string hfits =>
    rw [Arg.bytes, textSize_cons]
    omega
  | @wstring s t hfits hwide =>
    have hs := s.length_bytes
    have hle := T.length_wide hwide
    have ht := length_charPtr t
    rw [Arg.bytes, textSize_cons]
    omega
  | @array a _ dim ts hfits htype _ helements =>
    have hle := helements.size_le
    have ht := length_charPtr dim
    rw [Arg.bytes, List.length_append, List.length_append, hdim, textSize_cons, textSize_cons]
    omega
  | untyped halone hno =>
    obtain ⟨type, htype⟩ := hread.typed halone
    exact absurd htype (hno type)
  | @untypedArray a dim ts harray hno _ hlen =>
    have hempty : a.elements.length = 0 := hread.empty harray hno
    have hpassed : a.elements.passed = [] :=
      List.length_eq_zero_iff.1 (a.elements.length_passed.trans hempty)
    have ht := length_charPtr dim
    rw [Arg.bytes, List.length_append, List.length_append, hdim, textSize_cons, textSize_cons, hpassed,
      List.flatMap_nil, List.length_nil]
    omega

theorem Texts.GivenAll.size_le (h : T.GivenAll pfs args texts) (hread : List.Forall₂ Read pfs args) :
    (args.flatMap Arg.bytes).length ≤ 16 * textSize texts := by
  induction h with
  | nil => exact Nat.zero_le _
  | cons h _ ih =>
    cases hread with
    | cons hone hrest =>
      have hle := h.size_le hone
      have hle' := ih hrest
      rw [List.flatMap_cons, List.length_append, textSize_append]
      omega

theorem past_iff (ps : List Piece) (st : Packing) (h : st.reclen.toNat + (serialise ps).length < 2 ^ 64) :
    posixLogEntryMaxlen < (ps.foldl Piece.exec st).reclen.toNat ↔
      posixLogEntryMaxlen < st.reclen.toNat + (serialise ps).length := by
  induction ps generalizing st with
  | nil => exact Iff.rfl
  | cons p ps ih =>
    have hsize : (serialise (p :: ps)).length = p.size + (serialise ps).length := by
      rw [serialise, List.flatMap_cons, List.length_append]
      rfl
    have hcount := (p.exec_eq st).2
    rw [hsize] at h
    rw [Piece.counted, Nat.mod_eq_of_lt (by omega)] at hcount
    rw [List.foldl_cons, hsize]
    split at hcount
    · rw [ih _ (by omega), hcount]
      omega
    · rw [ih _ (by omega), hcount]
      omega

/-! ## Records -/

def Packed.record : Packed → Option Packing
  | .done none st => some st
  | _ => none

def CmdPacked.record : CmdPacked → Option Packing
  | .done none _ _ st => some st
  | _ => none

theorem plugInArgsz_reclen (goesHere startHere : UInt64) (st : Packing) :
    (plugInArgsz goesHere startHere st).reclen = st.reclen := by
  unfold plugInArgsz
  split <;> rfl

/-- What is behind the loops, as far as they store the same bytes. -/
theorem run_format (format : CharPtr) (ps : List Piece)
    (hserial : serialise ps = args.flatMap Arg.bytes)
    (hlt : (packedForm format args).length < 2 ^ 64) :
    let st := ps.foldl Piece.exec (memcpyex (packString .empty format) (dimObject 0))
    (maxlen < st.reclen ↔ posixLogEntryMaxlen < (packedForm format args).length) ∧
      ((packedForm format args).length ≤ posixLogEntryMaxlen →
        st = ⟨packedForm format args, UInt64.ofNat (packedForm format args).length⟩) := by
  intro st
  have hst : st = (Piece.string format :: .block (dimObject 0) :: ps).foldl Piece.exec .empty := rfl
  have hall : serialise (Piece.string format :: .block (dimObject 0) :: ps) = packedForm format args := by
    rw [packedForm, ← hserial, List.append_assoc]
    rfl
  constructor
  · have hpast := past_iff (Piece.string format :: .block (dimObject 0) :: ps) .empty (by
      rw [hall]
      simpa [Packing.empty] using hlt)
    rw [hall] at hpast
    rw [UInt64.lt_iff_toNat_lt, hst, Posix.toNat_maxlen, hpast]
    simp [Packing.empty]
  · intro hfits
    have hrun := run_fits (Piece.string format :: .block (dimObject 0) :: ps) .empty rfl (by
      rw [hall]
      simpa [Packing.empty] using hfits)
    rw [hall, ← hst] at hrun
    have hreclen : st.reclen = UInt64.ofNat (packedForm format args).length := by
      rw [← UInt64.toNat_inj, UInt64.toNat_ofNat_of_lt' hlt, hrun.2]
      rfl
    obtain ⟨written, reclen⟩ := st
    simp only at hreclen
    rw [hreclen, show written = packedForm format args from hrun.1]

variable {parsedFmt : List Segment}

theorem parse_bare {format : List UInt8} (h : evlParsePrintfFormat false format = .ok parsedFmt) :
    parsedFmt = bareSegments (conversions parsedFmt) := by
  unfold evlParsePrintfFormat at h
  rw [parseTurns_conversions] at h
  cases hparse : parseTurns true format.length format with
  | ok segs =>
    rw [hparse] at h
    cases h
    have hconv : conversions ((conversions segs).map (.printfConv · none)) = conversions segs := by
      conv_lhs => rw [conversions, List.filterMap_map]
      exact List.filterMap_some
    rw [hconv]
    rfl
  | _ =>
    rw [hparse] at h
    cases h

def Texts.Gives (T : Texts lib) (format : CharPtr) (args : List Arg) (texts : List CharPtr) : Prop :=
  ∀ parsedFmt, evlParsePrintfFormat false format.string.bytes = .ok parsedFmt →
    T.GivenAll (conversions parsedFmt) args texts

/-- Only the command line has a record built: there is an array conversion of
no known type, there are no elements for such a one, any other has a type, and
all of it fits. -/
def BuiltAlone (format : CharPtr) (args : List Arg) : Prop :=
  ∃ parsedFmt, evlParsePrintfFormat false format.string.bytes = .ok parsedFmt ∧
    List.Forall₂ Read (conversions parsedFmt) args ∧ (¬ ∀ pf ∈ conversions parsedFmt, pf.fate = .packed) ∧
    (packedForm format args).length ≤ posixLogEntryMaxlen

theorem read_of_packed (h : T.GivenAll pfs args texts) (hfate : ∀ pf ∈ pfs, pf.fate = .packed) :
    List.Forall₂ Read pfs args := by
  induction h with
  | nil => exact .nil
  | cons _ _ ih =>
    exact .cons (.inl (hfate _ List.mem_cons_self)) (ih fun pf hpf => hfate pf (List.mem_cons_of_mem _ hpf))

/-- What `evl_pack_format_and_args` has built, if all conversions have a type. -/
theorem packed_record (format : CharPtr)
    (hparse : evlParsePrintfFormat false format.string.bytes = .ok parsedFmt)
    (h : T.GivenAll (conversions parsedFmt) args texts) :
    (evlPackFormatAndArgs format args .empty).record =
      if ∀ pf ∈ conversions parsedFmt, pf.fate = .packed then
        let st₁ := packString .empty format
        let st₂ := memcpyex st₁ (dimObject 0)
        let st₃ := (args.flatMap Arg.pieces).foldl Piece.exec st₂
        if maxlen < st₃.reclen then none else some (plugInArgsz st₁.reclen st₂.reclen st₃)
      else none := by
  unfold evlPackFormatAndArgs
  rw [hparse]
  dsimp only
  by_cases hfate : ∀ pf ∈ conversions parsedFmt, pf.fate = .packed
  · have hloop := packConversions_given h hfate (memcpyex (packString .empty format) (dimObject 0))
    rw [← parse_bare hparse] at hloop
    rw [hloop, if_pos hfate]
    dsimp only
    rw [plugInArgsz_reclen]
    split <;> rfl
  · have hloop := packConversions_untyped h hfate (memcpyex (packString .empty format) (dimObject 0))
    rw [← parse_bare hparse] at hloop
    rw [if_neg hfate]
    rcases hloop with hno | ⟨st, hno⟩
    · rw [hno]
      rfl
    · rw [hno]
      rfl

/-- What `_evlPackCmdArgsPerFormat` has built, if all conversions are decoded. -/
theorem cmdPacked_record (format : CharPtr)
    (hparse : evlParsePrintfFormat false format.string.bytes = .ok parsedFmt)
    (h : T.GivenAll (conversions parsedFmt) args texts) (rest : List CharPtr)
    [Decidable (List.Forall₂ Read (conversions parsedFmt) args)] :
    (evlPackCmdArgsPerFormat lib format (texts ++ rest)).record =
      if List.Forall₂ Read (conversions parsedFmt) args then
        let st₁ := packString .empty format
        let st₂ := memcpyex st₁ (dimObject 0)
        let st₃ := (args.flatMap Arg.each).foldl Piece.exec st₂
        if maxlen < st₃.reclen then none else some (plugInArgsz st₁.reclen st₂.reclen st₃)
      else none := by
  unfold evlPackCmdArgsPerFormat
  rw [hparse]
  dsimp only
  by_cases hread : List.Forall₂ Read (conversions parsedFmt) args
  · have hloop := decodeConversions_read h hread rest (memcpyex (packString .empty format) (dimObject 0))
    rw [← parse_bare hparse] at hloop
    rw [hloop, if_pos hread]
    dsimp only
    rw [CmdPacked.finish, plugInArgsz_reclen]
    split <;> rfl
  · have hloop := decodeConversions_unread h hread rest (memcpyex (packString .empty format) (dimObject 0))
    rw [← parse_bare hparse] at hloop
    rw [hloop, if_neg hread]
    rfl

/-- From the texts of the arguments the record is built that is built from the
arguments, but where only the one is built. -/
theorem format_records_agree_iff (T : Texts lib) (format : CharPtr) {rest : List CharPtr}
    (argv : Argv) (hargv : argv.strings = texts ++ rest) (h : T.Gives format args texts) :
    (evlPackCmdArgsPerFormat lib format argv.strings).record = (evlPackFormatAndArgs format args .empty).record ↔
      ¬ BuiltAlone format args := by
  classical
  rw [hargv]
  cases hparse : evlParsePrintfFormat false format.string.bytes with
  | overrun =>
    unfold evlPackCmdArgsPerFormat evlPackFormatAndArgs
    rw [hparse]
    refine iff_of_true rfl fun hbuilt => ?_
    obtain ⟨parsedFmt, hok, -⟩ := hbuilt
    rw [hparse] at hok
    cases hok
  | bad =>
    unfold evlPackCmdArgsPerFormat evlPackFormatAndArgs
    rw [hparse]
    refine iff_of_true rfl fun hbuilt => ?_
    obtain ⟨parsedFmt, hok, -⟩ := hbuilt
    rw [hparse] at hok
    cases hok
  | ok parsedFmt =>
    have hgiven := h parsedFmt hparse
    have hbuilt : BuiltAlone format args ↔ List.Forall₂ Read (conversions parsedFmt) args ∧
        (¬ ∀ pf ∈ conversions parsedFmt, pf.fate = .packed) ∧
        (packedForm format args).length ≤ posixLogEntryMaxlen := by
      constructor
      · intro hb
        obtain ⟨parsedFmt', hok, hrest⟩ := hb
        rw [hparse] at hok
        cases hok
        exact hrest
      · intro hb
        exact ⟨parsedFmt, hparse, hb⟩
    rw [cmdPacked_record format hparse hgiven rest, packed_record format hparse hgiven, hbuilt]
    by_cases hread : List.Forall₂ Read (conversions parsedFmt) args
    · have hlt : (packedForm format args).length < 2 ^ 64 := by
        have hsize := hgiven.size_le hread
        have hargs := argv.size_lt
        have hformat := format.size_lt
        have hdim : (dimBytes 0).length = 4 := rfl
        rw [hargv, textSize_append] at hargs
        rw [packedForm, List.length_append, List.length_append, hdim, length_charPtr]
        omega
      obtain ⟨hpast, hfits⟩ := run_format format (args.flatMap Arg.each) (by
        rw [serialise, List.flatMap_assoc]
        exact List.flatMap_congr fun arg _ => arg.serialise_each) hlt
      obtain ⟨hpast', hfits'⟩ := run_format format (args.flatMap Arg.pieces) (by
        rw [serialise, List.flatMap_assoc]
        exact List.flatMap_congr fun arg _ => arg.serialise_pieces) hlt
      rw [if_pos hread]
      by_cases hover : posixLogEntryMaxlen < (packedForm format args).length
      · refine iff_of_true ?_ fun hb => Nat.not_le.2 hover hb.2.2
        dsimp only
        rw [if_pos (hpast.2 hover), if_pos (hpast'.2 hover), ite_self]
      · have hle := Nat.not_lt.1 hover
        dsimp only
        rw [if_neg (mt hpast.1 hover), if_neg (mt hpast'.1 hover), hfits hle, hfits' hle]
        by_cases hfate : ∀ pf ∈ conversions parsedFmt, pf.fate = .packed
        · rw [if_pos hfate]
          exact iff_of_true rfl fun hb => hb.2.1 hfate
        · rw [if_neg hfate]
          exact iff_of_false (Option.some_ne_none _) fun hno => hno ⟨hread, hfate, hle⟩
    · have hfate : ¬ ∀ pf ∈ conversions parsedFmt, pf.fate = .packed :=
        fun hall => hread (read_of_packed hgiven hall)
      rw [if_neg hread, if_neg hfate]
      exact iff_of_true rfl fun hb => hread hb.1

end

end Evlog.Printf
