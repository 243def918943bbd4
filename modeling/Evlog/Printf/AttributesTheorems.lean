/-
Evlog.Printf.AttributesTheorems — attributes from a command line are those
that a program packs.

`copy_attr_data` and `_evlPackCmdArgs` go through the same list, the one
with the values and the other with their texts. Both store each value for
itself, so that they agree on the buffer at every attribute, also where it
overflows (`attributes_agree`); only the one of them says so then.

`packers_agree_iff` has both pairs of packers: for attributes, and for the
conversions of a format, where there is the one exception of `BuiltAlone`.
-/
import Evlog.Lib.SerialList
import Evlog.Printf.Attributes
import Evlog.Printf.CmdArgsTheorems

namespace Evlog.Printf

open Evlog.Lib
open Evlog.Posix (CharPtr WcharPtr Object Packing Piece memcpyex packString packWstring maxlen)
open Evlog.Template (BaseType)

section

variable {lib : Libc} (T : Texts lib)

/-! ## Arguments -/

def Texts.promote : (type : BaseType) → Scalar type → Scalar (bigType type)
  | .float, v => T.passed v
  | type, v =>
    if type.isSigned then Scalar.ofInt (bigType type) (leInt v.bytes)
    else ⟨leBytes (ConvType.base (bigType type)).size (leNat v.bytes), leBytes_length ..⟩

def Texts.vaArgs : Elements → List VaArg
  | .scalars type values => values.map fun v => .scalar (bigType type) (T.promote type v)
  | .strings ss => ss.map .string
  | .wstrings ss => ss.map .wstring

structure Attribute where
  attType : CharPtr
  values : Elements

inductive Texts.GivesAttribute : Attribute → List VaArg → List CharPtr → Prop where
  | list {att : Attribute} {ti : AttTypeInfo} {ts : List CharPtr} (hparse : parseAttType att.attType.string.bytes = some ti)
      (harray : ti.atArray = false) (htype : att.values.type = ti.atType)
      (hlen : att.values.length = ti.atNelements.toInt.toNat) (hvalues : T.OfElements ti.atType att.values ts) :
      Texts.GivesAttribute att (.string att.attType :: T.vaArgs att.values) (att.attType :: ts)
  | array {att : Attribute} {ti : AttTypeInfo} {dim : CharPtr} {ts : List CharPtr}
      (hparse : parseAttType att.attType.string.bytes = some ti) (harray : ti.atArray = true)
      (htype : att.values.type = ti.atType) (hlt : att.values.length < 2 ^ 31)
      (hdim : dim.string.bytes = CString.decimal att.values.length) (hvalues : T.OfElements ti.atType att.values ts) :
      Texts.GivesAttribute att
        [.string att.attType, .scalar .int (Scalar.ofInt .int att.values.length), .pointer att.values]
        (att.attType :: dim :: ts)

inductive Texts.GivesAttributes : List Attribute → List VaArg → List CharPtr → Prop where
  | nil : Texts.GivesAttributes [] [] []
  | cons {att : Attribute} {atts : List Attribute} {args args' : List VaArg} {ts texts : List CharPtr}
      (h : T.GivesAttribute att args ts) (hrest : Texts.GivesAttributes atts args' texts) :
      Texts.GivesAttributes (att :: atts) (args ++ args') (ts ++ texts)

end

/-- The end of the list in a `va_list`. -/
inductive EndsArgs : List VaArg → Prop where
  | null (rest : List VaArg) : EndsArgs (.null :: rest)
  | endofdata {s : CharPtr} (h : s.string.bytes = endofdata) (rest : List VaArg) : EndsArgs (.string s :: rest)

/-- The end of the list on a command line, and where `*iarg` is then. -/
inductive EndsTexts : List CharPtr → List CharPtr → Prop where
  | nil : EndsTexts [] []
  | option {s : CharPtr} (h : s.string.bytes.head? = some 0x2d) (rest : List CharPtr) :
      EndsTexts (s :: rest) (s :: rest)
  | endofdata {s : CharPtr} (h : s.string.bytes = endofdata) (rest : List CharPtr) : EndsTexts (s :: rest) rest

section

variable {lib : Libc} {T : Texts lib}

/-! ## Values -/

variable {type : BaseType}

theorem little_promote {v : Scalar type} {t : List UInt8} (h : T.text type v = some t) :
    little lib type (T.promote type v) = v := by
  have hsigned : ∀ {type : BaseType} (v : Scalar type),
      (intBytes (ConvType.base (bigType type)).size (leInt v.bytes)).take (ConvType.base type).size = v.bytes := by
    intro type v
    rw [intBytes_take (size_le_bigType type)]
    conv_rhs => rw [← intBytes_leInt v.bytes, v.size]
  have hunsigned : ∀ {type : BaseType} (v : Scalar type),
      (leBytes (ConvType.base (bigType type)).size (leNat v.bytes)).take (ConvType.base type).size = v.bytes := by
    intro type v
    rw [leBytes_take (size_le_bigType type)]
    conv_rhs => rw [← leBytes_leNat v.bytes, v.size]
  cases type with
  | float => exact T.castFloat_passed h
  | string => cases h
  | wstring => cases h
  | char | short | int | long | longlong | wchar =>
    have hbytes := hsigned v
    obtain ⟨bytes, size⟩ := v
    exact (Scalar.mk.injEq ..).mpr hbytes
  | uchar | ushort | uint | ulong | ulonglong | address | double | ldouble =>
    have hbytes := hunsigned v
    obtain ⟨bytes, size⟩ := v
    exact (Scalar.mk.injEq ..).mpr hbytes

theorem copyArg_scalar (lib : Libc) (h : type.isScalar = true) (v : Scalar (bigType type))
    (st : Packing) :
    copyArg lib type (.scalar (bigType type) v) st = some (memcpyex st (little lib type v).object) := by
  cases type <;> first | rfl | cases h

theorem Texts.Shows.text_eq {v : Scalar type} {t : CharPtr} (h : T.Shows v.bytes type t) :
    T.text type v = some t.string.bytes := by
  obtain ⟨w, hbytes, htext⟩ := h
  obtain ⟨bytes, size⟩ := v
  obtain ⟨bytes', size'⟩ := w
  cases hbytes
  exact htext

theorem copyArgs_forall {vs : List VaArg} {ps : List Piece}
    (h : List.Forall₂ (fun v (p : Piece) => ∀ st, copyArg lib type v st = some (p.exec st)) vs ps)
    (args : List VaArg) (st : Packing) :
    copyArgs lib type vs.length (vs ++ args) st = some (args, ps.foldl Piece.exec st) := by
  induction h generalizing st with
  | nil => rfl
  | cons hp _ ih =>
    rw [List.length_cons, List.cons_append, copyArgs, hp, Option.bind_some]
    exact ih _

variable {e : Elements} {ts texts rest behind : List CharPtr}

theorem Texts.OfElements.copied (h : T.OfElements e.type e ts) :
    List.Forall₂ (fun v (p : Piece) => ∀ st, copyArg lib e.type v st = some (p.exec st)) (T.vaArgs e) e.each := by
  cases e with
  | scalars type values =>
    cases h with
    | scalars hscalar h =>
      rw [Texts.vaArgs, Elements.each, List.forall₂_map_left_iff, List.forall₂_map_right_iff, List.forall₂_same]
      intro v hv st
      obtain ⟨t, -, hshows⟩ := exists_right_of_mem h hv
      change copyArg lib type (.scalar (bigType type) (T.promote type v)) st = _
      rw [copyArg_scalar lib hscalar, little_promote hshows.text_eq]
      rfl
  | strings ss =>
    rw [Texts.vaArgs, Elements.each, List.forall₂_map_left_iff, List.forall₂_map_right_iff, List.forall₂_same]
    exact fun s _ st => rfl
  | wstrings ss =>
    rw [Texts.vaArgs, Elements.each, List.forall₂_map_left_iff, List.forall₂_map_right_iff, List.forall₂_same]
    exact fun s _ st => rfl

theorem copyArgs_elements (h : T.OfElements e.type e ts) (args : List VaArg) (st : Packing) :
    copyArgs lib e.type e.length (T.vaArgs e ++ args) st = some (args, e.each.foldl Piece.exec st) := by
  have hcopied := h.copied
  have hlen : (T.vaArgs e).length = e.length := hcopied.length_eq.trans e.length_each
  rw [← hlen]
  exact copyArgs_forall hcopied args st

theorem copyArray_elements (h : T.OfElements e.type e ts) (st : Packing) :
    copyArray e.type e.length e st = some (e.each.foldl Piece.exec st) := by
  unfold copyArray
  rw [if_neg (lt_irrefl _)]
  cases e with
  | strings ss =>
    rw [Elements.each, List.foldl_map]
    change some ((ss.take ss.length).foldl packString st) = _
    rw [List.take_length]
    rfl
  | wstrings ss =>
    rw [Elements.each, List.foldl_map]
    change some ((ss.take ss.length).foldl packWstring st) = _
    rw [List.take_length]
    rfl
  | scalars type values =>
    cases h with
    | scalars hscalar h =>
      rw [Elements.each, List.foldl_map]
      change _ = some (values.foldl (fun st v => memcpyex st v.object) st)
      conv_rhs => rw [← List.take_length (l := values)]
      cases type <;> first | rfl | cases hscalar

/-! ## Types -/

theorem getTypeByName_some {name : List UInt8} (h : getTypeByName name = some type) :
    name ∈ typeNames.map (·.2) := by
  unfold getTypeByName at h
  obtain ⟨row, hrow, -⟩ := Option.map_eq_some_iff.1 h
  have hname := List.find?_some hrow
  rw [beq_iff_eq] at hname
  rw [← hname]
  exact List.mem_map_of_mem (List.mem_of_find?_eq_some hrow)

theorem getTypeByName_minus {name : List UInt8} (h : getTypeByName name = some type) :
    name.head? ≠ some 0x2d :=
  (show ∀ name ∈ typeNames.map (·.2), name.head? ≠ some 0x2d by decide) name (getTypeByName_some h)

theorem parseAttType_some {attType : List UInt8} {ti : AttTypeInfo} (h : parseAttType attType = some ti) :
    attType.head? ≠ some 0x2d ∧ attType ≠ endofdata := by
  constructor
  · intro hminus
    obtain ⟨rest, rfl⟩ : ∃ rest, attType = 0x2d :: rest := by
      cases attType with
      | nil => cases hminus
      | cons c rest =>
        cases hminus
        exact ⟨rest, rfl⟩
    unfold parseAttType at h
    rw [if_neg (by simp [CString.isDigit])] at h
    dsimp only at h
    split_ifs at h
    · obtain ⟨type, htype, -⟩ := Option.map_eq_some_iff.1 h
      exact getTypeByName_minus htype rfl
    · obtain ⟨type, htype, -⟩ := Option.map_eq_some_iff.1 h
      exact getTypeByName_minus htype rfl
  · intro hend
    rw [hend] at h
    cases h

/-! ## The loops -/

def attributePieces (atts : List Attribute) : List Piece := atts.flatMap fun att => att.values.each

theorem toNat_dimension {n : Nat} (h : n < 2 ^ 31) : (leInt (Scalar.ofInt .int n).bytes).toNat = n := by
  have hbytes : (Scalar.ofInt .int n).bytes = intBytes 4 n :=
    congrArg (intBytes · (n : Int)) (show (ConvType.base .int).size = 4 from rfl)
  have hread : leInt (intBytes 4 n) = n := leInt_intBytes (by omega)
  rw [hbytes, hread, Int.toNat_natCast]

theorem copyAttrTurns_array {attType : CharPtr} {ti : AttTypeInfo} (hparse : parseAttType attType.string.bytes = some ti)
    (harray : ti.atArray = true) (n : Nat) (dim : Scalar .int) (array : Elements) (rest : List VaArg) (st : Packing) :
    copyAttrTurns lib (n + 1) (.string attType :: .scalar .int dim :: .pointer array :: rest) st =
      match copyArray ti.atType (leInt dim.bytes).toNat array st with
      | none => .noArg
      | some st => copyAttrTurns lib n rest st := by
  rw [copyAttrTurns, if_neg (parseAttType_some hparse).2, hparse]
  dsimp only
  rw [harray]
  exact (if_pos rfl).trans rfl

variable {args last : List VaArg}

theorem copyAttrTurns_attribute {att : Attribute} (h : T.GivesAttribute att args ts) (n : Nat)
    (rest : List VaArg) (st : Packing) :
    copyAttrTurns lib (n + 1) (args ++ rest) st = copyAttrTurns lib n rest (att.values.each.foldl Piece.exec st) := by
  cases h with
  | list hparse harray htype hlen hvalues =>
    rw [← htype] at hvalues
    have hcopy := copyArgs_elements hvalues rest st
    rw [hlen, htype] at hcopy
    rw [List.cons_append, copyAttrTurns, if_neg (parseAttType_some hparse).2, hparse]
    dsimp only
    rw [harray, if_neg Bool.false_ne_true, hcopy]
  | array hparse harray htype hlt hdim hvalues =>
    rw [← htype] at hvalues
    have hcopy := copyArray_elements hvalues st
    rw [htype] at hcopy
    refine (copyAttrTurns_array hparse harray n _ att.values rest st).trans ?_
    rw [toNat_dimension hlt, hcopy]

theorem cmdArgsTurns_attribute {att : Attribute} (h : T.GivesAttribute att args ts) (n : Nat)
    (rest : List CharPtr) (st : Packing) :
    cmdArgsTurns lib (n + 1) (ts ++ rest) st = cmdArgsTurns lib n rest (att.values.each.foldl Piece.exec st) := by
  cases h with
  | list hparse harray htype hlen hvalues =>
    have hdecode := hvalues.decodes_all
    rw [hlen] at hdecode
    rw [List.cons_append, cmdArgsTurns, if_neg (parseAttType_some hparse).1, if_neg (parseAttType_some hparse).2, hparse]
    dsimp only
    rw [harray, if_neg Bool.false_ne_true, hdecode]
  | array hparse harray htype hlt hdim hvalues =>
    have hdecode := hvalues.decodes_all
    have hdimension : decodeUint (CString.decimal att.values.length) 4 = .ok (UInt64.ofNat att.values.length) :=
      decodeUint_decimal (by decide) (by omega)
    have hnat : (UInt64.ofNat att.values.length).toNat = att.values.length :=
      UInt64.toNat_ofNat_of_lt' (hlt.trans (by decide))
    have hint : (UInt64.ofNat att.values.length).toUInt32.toInt32.toInt = att.values.length := by
      rw [toInt_narrow (by rw [hnat]; exact hlt), hnat]
    rw [List.cons_append, List.cons_append, cmdArgsTurns, if_neg (parseAttType_some hparse).1,
      if_neg (parseAttType_some hparse).2, hparse]
    dsimp only
    rw [harray, if_pos rfl, hdim, hdimension]
    dsimp only
    rw [hint, Int.toNat_natCast, hdecode]

variable {atts : List Attribute}

theorem copyAttrTurns_attributes (h : T.GivesAttributes atts args texts) {n : Nat}
    (hn : (args ++ last).length ≤ n) (hlast : EndsArgs last) (st : Packing) :
    copyAttrTurns lib n (args ++ last) st = .done ((attributePieces atts).foldl Piece.exec st) := by
  induction h generalizing n st with
  | nil =>
    cases hlast with
    | null rest => cases n <;> rfl
    | endofdata h rest =>
      obtain ⟨n, rfl⟩ : ∃ m, n = m + 1 := ⟨n - 1, by simp at hn; omega⟩
      rw [List.nil_append, copyAttrTurns, if_pos h]
      rfl
  | @cons att atts args args' ts texts h _ ih =>
    have hpos : 0 < args.length := by cases h <;> simp
    rw [List.append_assoc, List.length_append] at hn
    obtain ⟨n, rfl⟩ : ∃ m, n = m + 1 := ⟨n - 1, by omega⟩
    rw [List.append_assoc, copyAttrTurns_attribute h, ih (by omega), ← List.foldl_append]
    rfl

theorem cmdArgsTurns_attributes (h : T.GivesAttributes atts args texts) {n : Nat}
    (hn : (texts ++ rest).length ≤ n) (hrest : EndsTexts rest behind) (st : Packing) :
    cmdArgsTurns lib n (texts ++ rest) st = .finish behind ((attributePieces atts).foldl Piece.exec st) := by
  induction h generalizing n st with
  | nil =>
    cases hrest with
    | nil => cases n <;> rfl
    | option h rest =>
      obtain ⟨n, rfl⟩ : ∃ m, n = m + 1 := ⟨n - 1, by simp at hn; omega⟩
      rw [List.nil_append, cmdArgsTurns, if_pos h]
      rfl
    | endofdata h rest =>
      obtain ⟨n, rfl⟩ : ∃ m, n = m + 1 := ⟨n - 1, by simp at hn; omega⟩
      rw [List.nil_append, cmdArgsTurns, if_neg (by rw [h]; decide), if_pos h]
      rfl
  | @cons att atts args args' ts texts h _ ih =>
    have hpos : 0 < ts.length := by cases h <;> simp
    rw [List.append_assoc, List.length_append] at hn
    obtain ⟨n, rfl⟩ : ∃ m, n = m + 1 := ⟨n - 1, by omega⟩
    rw [List.append_assoc, cmdArgsTurns_attribute h, ih (by omega), ← List.foldl_append]
    rfl

theorem attributes_agree (h : T.GivesAttributes atts args texts) (hlast : EndsArgs last)
    (hrest : EndsTexts rest behind) :
    ∃ st, copyAttrData lib (args ++ last) = .done st ∧ evlPackCmdArgs lib (texts ++ rest) = .finish behind st :=
  ⟨_, copyAttrTurns_attributes h le_rfl hlast .empty, cmdArgsTurns_attributes h le_rfl hrest .empty⟩

end

/-! ## Both -/

/-- What is packed from a command line is what a program packs: for a format
and its arguments, but where only the one is built, and for every list of
attributes. -/
theorem packers_agree_iff {lib : Libc} (T : Texts lib) :
    (∀ (format : CharPtr) (args : List Arg) (texts rest : List CharPtr) (argv : Argv),
      argv.strings = texts ++ rest → T.Gives format args texts →
      ((evlPackCmdArgsPerFormat lib format argv.strings).record = (evlPackFormatAndArgs format args .empty).record ↔
        ¬ BuiltAlone format args)) ∧
    (∀ (atts : List Attribute) (args last : List VaArg) (texts rest behind : List CharPtr),
      T.GivesAttributes atts args texts → EndsArgs last → EndsTexts rest behind →
      ∃ st, copyAttrData lib (args ++ last) = .done st ∧ evlPackCmdArgs lib (texts ++ rest) = .finish behind st) := by
  constructor
  · intro format args texts rest argv hargv hgives
    exact format_records_agree_iff T format argv hargv hgives
  · intro atts args last texts rest behind hgives hlast hrest
    exact attributes_agree hgives hlast hrest

def oneAndAHalf : List UInt8 := message "1.5"

def floatOneAndAHalf : Scalar .float := ⟨[0, 0, 0xc0, 0x3f], rfl⟩

def doubleOneAndAHalf : Scalar .double := ⟨[0, 0, 0, 0, 0, 0, 0xf8, 0x3f], rfl⟩

def plainLibc : Libc where
  sscanf t := if t = oneAndAHalf then (1, floatOneAndAHalf, false) else (0, someScalar .float, false)
  strtod t := if t = oneAndAHalf then ⟨doubleOneAndAHalf, [], false⟩ else ⟨someScalar .double, t, false⟩
  strtold t := ⟨someScalar .ldouble, t, false⟩
  mbstowcs _ := emptyWstring
  castFloat _ := floatOneAndAHalf

theorem plain_text {type : BaseType} {v w : Scalar type} {t : List UInt8}
    (h : (if v = w then some oneAndAHalf else none) = some t) : v = w ∧ t = oneAndAHalf := by
  split at h
  · next hv =>
    cases h
    exact ⟨hv, rfl⟩
  · cases h

def plainTexts : Texts plainLibc where
  float v := if v = floatOneAndAHalf then some oneAndAHalf else none
  double v := if v = doubleOneAndAHalf then some oneAndAHalf else none
  ldouble _ := none
  wide _ := none
  passed _ := doubleOneAndAHalf
  sscanf_float h := by
    obtain ⟨rfl, rfl⟩ := plain_text h
    rfl
  strtod_double h := by
    obtain ⟨rfl, rfl⟩ := plain_text h
    rfl
  strtold_ldouble h := by cases h
  mbstowcs_wide h := by cases h
  castFloat_passed h := by
    obtain ⟨rfl, rfl⟩ := plain_text h
    rfl
  length_wide h := by cases h

def percentFU : CharPtr := ⟨⟨[0x25, 0x66, 0x20, 0x25, 0x75], by decide⟩, by decide⟩

def textOneAndAHalf : CharPtr := ⟨⟨oneAndAHalf, by decide⟩, by decide⟩

def textSeven : CharPtr := ⟨⟨[0x37], by decide⟩, by decide⟩

def textFloat : CharPtr := ⟨⟨message "float", by decide⟩, by decide⟩

theorem gives_percentFU :
    plainTexts.Gives percentFU [.scalar .double doubleOneAndAHalf, .scalar .int ⟨[7, 0, 0, 0], rfl⟩]
      [textOneAndAHalf, textSeven] := by
  intro parsedFmt hparse
  cases hparse
  have hf : plainTexts.Given ⟨[], 0, 0, [], 0x66, 1, false⟩ (.scalar .double doubleOneAndAHalf) [textOneAndAHalf] :=
    .scalar ⟨rfl, rfl, rfl⟩ rfl ⟨_, rfl, rfl⟩
  have hu : plainTexts.Given ⟨[], 0, 0, [], 0x75, 1, false⟩ (.scalar .int ⟨[7, 0, 0, 0], rfl⟩) [textSeven] :=
    .scalar ⟨rfl, rfl, rfl⟩ rfl ⟨⟨[7, 0, 0, 0], rfl⟩, rfl, rfl⟩
  exact .cons hf (.cons hu .nil)

def textUcharArray : CharPtr := ⟨⟨message "uchar[]", by decide⟩, by decide⟩

def textTwo : CharPtr := ⟨⟨[0x32], by decide⟩, by decide⟩

def textTwoHundred : CharPtr := ⟨⟨[0x32, 0x30, 0x30], by decide⟩, by decide⟩

def floatAttribute : Attribute := ⟨textFloat, .scalars .float [floatOneAndAHalf]⟩

def ucharAttribute : Attribute := ⟨textUcharArray, .scalars .uchar [⟨[200], rfl⟩, ⟨[7], rfl⟩]⟩

theorem gives_attributes : plainTexts.GivesAttributes [floatAttribute, ucharAttribute]
      [.string textFloat, .scalar .double doubleOneAndAHalf, .string textUcharArray, .scalar .int ⟨[2, 0, 0, 0], rfl⟩,
        .pointer (.scalars .uchar [⟨[200], rfl⟩, ⟨[7], rfl⟩])]
      [textFloat, textOneAndAHalf, textUcharArray, textTwo, textTwoHundred, textSeven] := by
  have hfloat : plainTexts.GivesAttribute floatAttribute [.string textFloat, .scalar .double doubleOneAndAHalf]
      [textFloat, textOneAndAHalf] :=
    @Texts.GivesAttribute.list _ plainTexts floatAttribute ⟨.float, 1, false⟩ [textOneAndAHalf] rfl rfl rfl rfl
      (.scalars rfl (.cons ⟨_, rfl, rfl⟩ .nil))
  have huchar : plainTexts.GivesAttribute ucharAttribute
      [.string textUcharArray, .scalar .int ⟨[2, 0, 0, 0], rfl⟩, .pointer (.scalars .uchar [⟨[200], rfl⟩, ⟨[7], rfl⟩])]
      [textUcharArray, textTwo, textTwoHundred, textSeven] :=
    @Texts.GivesAttribute.array _ plainTexts ucharAttribute ⟨.uchar, 0, true⟩ textTwo [textTwoHundred, textSeven]
      rfl rfl rfl (by decide) rfl (.scalars rfl (.cons ⟨_, rfl, rfl⟩ (.cons ⟨_, rfl, rfl⟩ .nil)))
  exact .cons hfloat (.cons huchar .nil)

/-- The program logs "%f %u" and the values 1.5 and 7, the command line
has them as texts; and so for a `float` and for two characters. -/
theorem packers_agree_plain :
    (evlPackCmdArgsPerFormat plainLibc percentFU [textOneAndAHalf, textSeven]).record =
        (evlPackFormatAndArgs percentFU [.scalar .double doubleOneAndAHalf, .scalar .int ⟨[7, 0, 0, 0], rfl⟩]
          .empty).record ∧
      ∃ st, copyAttrData plainLibc
          [.string textFloat, .scalar .double doubleOneAndAHalf, .string textUcharArray,
            .scalar .int ⟨[2, 0, 0, 0], rfl⟩, .pointer (.scalars .uchar [⟨[200], rfl⟩, ⟨[7], rfl⟩]), .null] = .done st ∧
        evlPackCmdArgs plainLibc [textFloat, textOneAndAHalf, textUcharArray, textTwo, textTwoHundred, textSeven] =
          .finish [] st := by
  obtain ⟨hformat, hattributes⟩ := packers_agree_iff plainTexts
  constructor
  · refine (hformat percentFU _ [textOneAndAHalf, textSeven] [] ⟨[textOneAndAHalf, textSeven], by decide⟩ rfl
      gives_percentFU).2 ?_
    intro hbuilt
    obtain ⟨parsedFmt, hparse, -, hfate, -⟩ := hbuilt
    cases hparse
    exact hfate (by decide)
  · have h := hattributes _ _ [.null] _ [] [] gives_attributes (.null []) .nil
    rw [List.append_nil] at h
    simp only [List.cons_append, List.nil_append] at h
    exact h

def arrayLc : CharPtr := ⟨⟨[0x25, 0x5b, 0x4c, 0x63], by decide⟩, by decide⟩

def textZero : CharPtr := ⟨⟨[0x30], by decide⟩, by decide⟩

theorem comma_noNul : 0 ∉ [(0x2c : UInt8)] := by decide

theorem comma_size_lt : [(0x2c : UInt8)].length + 1 < 2 ^ 62 := by decide

def textComma : CharPtr := ⟨⟨[0x2c], comma_noNul⟩, comma_size_lt⟩

def noElements : Arg := .array ⟨.scalars .int [], textComma, by decide⟩

/-- For "%[Lc" and no elements a record is built from the command line, and at
the values the assertion fails. -/
theorem emptyArray_not_agree : plainTexts.Gives arrayLc [noElements] [textZero, textComma] ∧
      (evlPackCmdArgsPerFormat plainLibc arrayLc [textZero, textComma]).record ≠
        (evlPackFormatAndArgs arrayLc [noElements] .empty).record := by
  constructor
  · intro parsedFmt hparse
    cases hparse
    have hgiven : plainTexts.Given ⟨[0x5b], 0, 0, [0x4c], 0x63, 3, true⟩ noElements [textZero, textComma] :=
      .untypedArray rfl (by intro type h; cases h) rfl rfl
    exact .cons hgiven .nil
  · have hcrash : (evlPackFormatAndArgs arrayLc [noElements] .empty).record = none := rfl
    have hbuilt : (evlPackCmdArgsPerFormat plainLibc arrayLc [textZero, textComma]).record.isSome = true := rfl
    rw [hcrash]
    intro h
    rw [h] at hbuilt
    cases hbuilt

end Evlog.Printf
