/-
Evlog.Template.IntLiterals — integer constants in the source of a template
(tmpllex.l, tmplgram.y, template.c).

The lexer stores the value of an integer in `ttlval.ival`, an `int`, and the
grammar takes it from `ulval`, an `unsigned long`: the upper half of that is
what the token before has left there. From here it goes through the types of
the grammar's nonterminals and through casts to the type of an attribute.

The machine is an x86_64: `ival` is the lower half of `ulval`. A conversion
to an integer type that the value does not fit takes it modulo 2^N.
-/
import Evlog.Lib.CString
import Evlog.Template.Types

namespace Evlog.Template

open Evlog.Lib.CString (isDigit isOctDigit isXDigit rowValue)

/-! ## The lexer -/

/-- The three rules for integers. -/
inductive Radix where
  | hex
  | octal
  | decimal
  deriving DecidableEq, Repr

def Radix.base : Radix → Nat
  | .hex => 16
  | .octal => 8
  | .decimal => 10

def Radix.isDigit : Radix → UInt8 → Bool
  | .hex => isXDigit
  | .octal => isOctDigit
  | .decimal => Evlog.Lib.CString.isDigit

def Radix.Takes : Radix → List UInt8 → Prop
  | .hex, yytext => ∃ x ds, yytext = 0x30 :: x :: ds ∧ (x = 0x78 ∨ x = 0x58) ∧ ds ≠ [] ∧ ∀ d ∈ ds, isXDigit d = true
  | .octal, yytext => ∃ ds, yytext = 0x30 :: ds ∧ ∀ d ∈ ds, isOctDigit d = true
  | .decimal, yytext => ∃ d ds, yytext = d :: ds ∧ d ≠ 0x30 ∧ ∀ d ∈ yytext, Evlog.Lib.CString.isDigit d = true

structure IntLiteral where
  radix : Radix
  yytext : List UInt8
  taken : radix.Takes yytext

def IntLiteral.value (lit : IntLiteral) : Nat :=
  match lit.radix with
  | .hex => rowValue 16 (lit.yytext.drop 2)
  | _ => rowValue lit.radix.base lit.yytext

/-- A number, or `ULONG_MAX` if it is above. -/
def orUlongMax (n : Nat) : UInt64 := if n < 2 ^ 64 then UInt64.ofNat n else 0xffffffffffffffff

/-- `strtoul`, of a text without blanks and sign. -/
def strtoul (s : List UInt8) (radix : Radix) : UInt64 :=
  let s := if radix = .hex ∧ (s.take 2 = [0x30, 0x78] ∨ s.take 2 = [0x30, 0x58]) then s.drop 2 else s
  orUlongMax (rowValue radix.base (s.takeWhile radix.isDigit))

/-- `ttlval`, as its two halves. -/
structure YyStype where
  lower : UInt32
  upper : UInt32
  deriving DecidableEq, Repr

/-- Members of the size of an `int`: `ival`, `cval`, `wcval`. -/
def YyStype.setInt (ttlval : YyStype) (v : UInt32) : YyStype := { ttlval with lower := v }

/-- Members of the size of a `long`: `sval`, `wsval`, `dval`. -/
def YyStype.setLong (_ : YyStype) (v : UInt64) : YyStype := ⟨v.toUInt32, (v >>> 32).toUInt32⟩

def YyStype.ulval (ttlval : YyStype) : UInt64 := UInt64.ofNat (ttlval.upper.toNat * 2 ^ 32 + ttlval.lower.toNat)

/-- A token, with what the lexer stores: types, integers, characters, pointers
to names and strings, and the bits of a `double`. -/
inductive Token where
  | typename (ival : UInt32)
  | integer (lit : IntLiteral)
  | char (cval : UInt32)
  | wchar (wcval : UInt32)
  | text (sval : UInt64)
  | wstring (wsval : UInt64)
  | double (dval : UInt64)
  | other

def Token.store (ttlval : YyStype) : Token → YyStype
  | .typename ival => ttlval.setInt ival
  | .integer lit => ttlval.setInt (strtoul lit.yytext lit.radix).toUInt32
  | .char cval => ttlval.setInt cval
  | .wchar wcval => ttlval.setInt wcval
  | .text sval => ttlval.setLong sval
  | .wstring wsval => ttlval.setLong wsval
  | .double dval => ttlval.setLong dval
  | .other => ttlval

/-- `ttlval` behind some tokens. -/
def lexed (tokens : List Token) : YyStype := tokens.foldl Token.store ⟨0, 0⟩

/-! ## The grammar -/

/-- `integerConstant`, an `unsigned int`. -/
def integerConstant (v : YyStype) : UInt32 := v.ulval.toUInt32

/-- `signedIntegerConstant`, a `long`. -/
def signedIntegerConstant (minus : Bool) (v : YyStype) : Int64 :=
  if minus then (-v.ulval).toInt64 else v.ulval.toInt64

/-- `tmpl_type_and_value_t`, of an integer. -/
inductive TypeAndValue where
  | ulong (v : UInt64)
  | long (v : Int64)
  deriving DecidableEq

def scalarConstant (minus : Bool) (v : YyStype) : TypeAndValue :=
  if minus then .long (-v.ulval).toInt64 else .ulong v.ulval

/-- What becomes of a literal. -/
inductive Fate where
  | rejected
  | taken (n : Int)
  deriving DecidableEq, Repr

/-- `facilityInt`. No `unsigned int` is above `UINT_MAX`. -/
def facilityInt (c : UInt32) : Fate :=
  if 0xffffffff < c then .rejected
  else if c = 0xffffffff then .rejected
  else .taken c.toNat

def eventTypeInt (c : Int64) : Fate :=
  if c = -1 then .rejected else .taken c.toInt32.toInt

/-- `dimensionSpec` and `bitField`: `td_dimension`. -/
def tdDimension (c : UInt32) : Option Int32 := if 0x7fffffff < c then none else some c.toInt32

/-! ## The semantic checks -/

/-- `validateAttDimension` and `validateAttInitializer`, of an array; a const
array has so many initializers. -/
def validateAttDimension (nVals : Option Nat) (dim : Int32) : Fate :=
  if dim ≤ 0 then .rejected
  else if ∃ n ∈ nVals, dim.toInt ≠ n then .rejected
  else .taken dim.toInt

/-- `validateAttType` and `validateAttBitField`, of a bit-field. -/
def validateAttBitField (type : BaseType) (named : Bool) (nBits : Int32) : Fate :=
  if type.isInteger = false then .rejected
  else if 8 * (archTypeInfo .noArch type).size < nBits.toInt then .rejected
  else if nBits = 0 ∧ named = true then .rejected
  else .taken nBits.toInt

def castTo : BaseType → Int → Int
  | .char => fun n => (Int8.ofInt n).toInt
  | .uchar => fun n => (UInt8.ofInt n).toNat
  | .short => fun n => (Int16.ofInt n).toInt
  | .ushort => fun n => (UInt16.ofInt n).toNat
  | .int | .wchar => fun n => (Int32.ofInt n).toInt
  | .uint => fun n => (UInt32.ofInt n).toNat
  | .long | .longlong => fun n => (Int64.ofInt n).toInt
  | .ulong | .ulonglong | .address => fun n => (UInt64.ofInt n).toNat
  | _ => id

/-- `initConstScalar` and `initScalarValue`. The first takes the value of an
attribute or of a struct's member, the second that of an array's element. Of
the attribute's own type it is copied. -/
def initScalarValue (attType : BaseType) : TypeAndValue → Int
  | .ulong v => if attType = .ulong then v.toNat else castTo attType v.toNat
  | .long v => if attType = .long then v.toInt else castTo attType v.toInt

/-- What a literal is for. A const attribute can be a bit-field if it is a
struct's member. -/
inductive Use where
  | facility
  | eventType
  | dimension (nVals : Option Nat)
  | bitField (type : BaseType) (named : Bool)
  | initializer (type : BaseType) (hint : type.isInteger = true) (bits : Option Nat)

/-- A literal behind some tokens, and a sign if there is one. Where the grammar
has no sign that is an error. -/
def fate (before : List Token) (minus : Bool) (lit : IntLiteral) (use : Use) : Fate :=
  let v := lexed (before ++ [.integer lit])
  match use with
  | .facility => if minus then .rejected else facilityInt (integerConstant v)
  | .eventType => eventTypeInt (signedIntegerConstant minus v)
  | .dimension nVals =>
    if minus then .rejected
    else match tdDimension (integerConstant v) with
      | none => .rejected
      | some dim => validateAttDimension nVals dim
  | .bitField type named =>
    if minus then .rejected
    else match tdDimension (integerConstant v) with
      | none => .rejected
      | some nBits => validateAttBitField type named nBits
  | .initializer type _ _ => .taken (initScalarValue type (scalarConstant minus v))

/-! ## What should become of it -/

def HoldsBits (signed : Bool) (bits : Nat) (n : Int) : Prop :=
  if signed = true then -2 ^ bits ≤ 2 * n ∧ 2 * n < 2 ^ bits else 0 ≤ n ∧ n < 2 ^ bits

def Use.Holds : Use → Int → Prop
  | .facility, n => HoldsBits false 32 n
  | .eventType, n => HoldsBits true 32 n
  | .dimension _, n | .bitField _ _, n => HoldsBits false 31 n
  | .initializer type _ bits, n =>
    HoldsBits type.isSigned (8 * (archTypeInfo .noArch type).size) n ∧ ∀ b ∈ bits, HoldsBits type.isSigned b n

def IntLiteral.signed (minus : Bool) (lit : IntLiteral) : Int := if minus then -lit.value else lit.value

/-- A literal is rejected, or it fits and is taken for the number it is. -/
def Right (before : List Token) (minus : Bool) (lit : IntLiteral) (use : Use) : Prop :=
  fate before minus lit use = .rejected ∨
    fate before minus lit use = .taken (lit.signed minus) ∧ use.Holds (lit.signed minus)

/-- The 32 bits that the lexer keeps of a number. One from 2^64 on is `ULONG_MAX`. -/
def keptBits (n : Nat) : Nat := min n (2 ^ 64 - 1) % 2 ^ 32

/-- The literals that nothing goes wrong with. What the tokens before have
left in the upper half of `ttlval` is only looked at by `event_type` and for
types of 64 bits. -/
def Safe (before : List Token) (minus : Bool) (lit : IntLiteral) : Use → Prop
  | .facility => minus = true ∨ lit.value < 2 ^ 32 ∨ keptBits lit.value = 2 ^ 32 - 1
  | .eventType =>
    HoldsBits true 32 (lit.signed minus) ∨
      minus = false ∧ (lexed before).upper = 0xffffffff ∧ keptBits lit.value = 2 ^ 32 - 1 ∨
      minus = true ∧ (lexed before).upper = 0 ∧ keptBits lit.value = 1
  | .dimension nVals =>
    minus = true ∨ lit.value < 2 ^ 31 ∨ keptBits lit.value = 0 ∨ 2 ^ 31 ≤ keptBits lit.value ∨
      ∃ n ∈ nVals, n ≠ keptBits lit.value
  | .bitField type named =>
    minus = true ∨ lit.value < 2 ^ 31 ∨ 2 ^ 31 ≤ keptBits lit.value ∨ type.isInteger = false ∨
      8 * (archTypeInfo .noArch type).size < keptBits lit.value ∨ keptBits lit.value = 0 ∧ named = true
  | .initializer type hint bits =>
    (Use.initializer type hint bits).Holds (lit.signed minus) ∧
      ((archTypeInfo .noArch type).size = 8 → lit.value / 2 ^ 32 = (lexed before).upper.toNat)

/-! ## What the lexer stores -/

theorem orUlongMax_toNat (n : Nat) : (orUlongMax n).toNat = min n (2 ^ 64 - 1) := by
  rw [orUlongMax]
  split
  · rename_i hlt
    rw [UInt64.toNat_ofNat_of_lt' hlt]
    omega
  · show 2 ^ 64 - 1 = _
    omega

/-- `strtoul` is right up to `ULONG_MAX`. -/
theorem strtoul_toNat (lit : IntLiteral) :
    (strtoul lit.yytext lit.radix).toNat = min lit.value (2 ^ 64 - 1) := by
  have hall : ∀ (radix : Radix) (ds : List UInt8), (∀ d ∈ ds, radix.isDigit d = true) →
      ds.takeWhile radix.isDigit = ds := fun _ _ hds => List.takeWhile_eq_self_iff.2 hds
  obtain ⟨radix, yytext, taken⟩ := lit
  rw [strtoul, orUlongMax_toNat]
  cases radix with
  | hex =>
    obtain ⟨x, ds, rfl, hx, -, hds⟩ := taken
    have hskip : List.take 2 (0x30 :: x :: ds) = [0x30, 0x78] ∨ List.take 2 (0x30 :: x :: ds) = [0x30, 0x58] := by
      simpa using hx
    rw [if_pos ⟨rfl, hskip⟩, List.drop_succ_cons, List.drop_succ_cons, List.drop_zero, hall .hex ds hds]
    rfl
  | octal =>
    obtain ⟨ds, rfl, hds⟩ := taken
    have hds' : ∀ d ∈ 0x30 :: ds, Radix.octal.isDigit d = true := by
      intro d hd
      rcases List.mem_cons.1 hd with rfl | hd
      · decide
      · exact hds d hd
    rw [if_neg (by simp), hall .octal _ hds']
    rfl
  | decimal =>
    obtain ⟨d, ds, rfl, -, hds⟩ := taken
    rw [if_neg (by simp), hall .decimal _ hds]
    rfl

theorem keptBits_lt (n : Nat) : keptBits n < 2 ^ 32 := Nat.mod_lt _ (by decide)

theorem keptBits_of_lt {n : Nat} (hn : n < 2 ^ 32) : keptBits n = n := by
  rw [keptBits]
  omega

theorem lexed_integer (before : List Token) (lit : IntLiteral) :
    (lexed (before ++ [.integer lit])).upper = (lexed before).upper ∧
      (lexed (before ++ [.integer lit])).lower.toNat = keptBits lit.value := by
  rw [lexed, List.foldl_append]
  refine ⟨rfl, ?_⟩
  show (strtoul lit.yytext lit.radix).toUInt32.toNat = _
  rw [UInt64.toNat_toUInt32, strtoul_toNat, keptBits]

theorem ulval_toNat (v : YyStype) : v.ulval.toNat = v.upper.toNat * 2 ^ 32 + v.lower.toNat := by
  have hlower := v.lower.toNat_lt
  have hupper := v.upper.toNat_lt
  have hsize : UInt64.size = 2 ^ 64 := rfl
  exact UInt64.toNat_ofNat_of_lt' (by omega)

/-- The `unsigned int` of the grammar is the lower half. -/
theorem integerConstant_toNat (v : YyStype) : (integerConstant v).toNat = v.lower.toNat := by
  have hlower := v.lower.toNat_lt
  rw [integerConstant, UInt64.toNat_toUInt32, ulval_toNat]
  omega

/-- What a sign makes of the value of `ulval`. -/
def negatedIf (minus : Bool) (n : Nat) : Int := if minus then -n else n

theorem toInt_toInt64 (v : UInt64) : v.toInt64.toInt = (v.toNat : Int).bmod (2 ^ 64) :=
  BitVec.toInt_eq_toNat_bmod v.toBitVec

theorem toInt_toInt64_neg (v : UInt64) : (-v).toInt64.toInt = (-(v.toNat : Int)).bmod (2 ^ 64) := by
  show (-v.toBitVec).toInt = _
  rw [BitVec.toInt_neg, BitVec.toInt_eq_toNat_bmod, Int.bmod_neg_bmod]
  rfl

/-- The `long` of the grammar. -/
theorem signedIntegerConstant_toInt (minus : Bool) (v : YyStype) :
    (signedIntegerConstant minus v).toInt = (negatedIf minus v.ulval.toNat).bmod (2 ^ 64) := by
  cases minus with
  | false => rw [signedIntegerConstant, if_neg (by simp), toInt_toInt64, negatedIf, if_neg (by simp)]
  | true => rw [signedIntegerConstant, if_pos rfl, toInt_toInt64_neg, negatedIf, if_pos rfl]

/-! ## Casts -/

theorem bmod_eq_iff_holdsBits {w : Nat} (hw : 0 < w) (x n : Int) :
    x.bmod (2 ^ w) = n ↔ HoldsBits true w n ∧ (2 ^ w : Int) ∣ n - x := by
  obtain ⟨k, rfl⟩ : ∃ k, w = k + 1 := ⟨w - 1, by omega⟩
  have hcast : ((2 ^ (k + 1) : Nat) : Int) = 2 ^ (k + 1) := by push_cast; rfl
  have hlow : -((2 : Int) ^ (k + 1) / 2) ≤ n ↔ -2 ^ (k + 1) ≤ 2 * n := by
    rw [pow_succ]
    omega
  have hhigh : n < ((2 : Int) ^ (k + 1) + 1) / 2 ↔ 2 * n < 2 ^ (k + 1) := by
    rw [pow_succ]
    omega
  rw [Int.bmod_eq_iff (Nat.two_pow_pos _), hcast, hlow, hhigh, HoldsBits, if_pos rfl, and_assoc]

theorem emod_eq_iff_holdsBits (w : Nat) (x n : Int) :
    x % 2 ^ w = n ↔ HoldsBits false w n ∧ (2 ^ w : Int) ∣ n - x := by
  have hpos : (0 : Int) < 2 ^ w := by positivity
  rw [HoldsBits, if_neg (by simp)]
  constructor
  · rintro rfl
    exact ⟨⟨Int.emod_nonneg _ hpos.ne', Int.emod_lt_of_pos _ hpos⟩, Int.dvd_emod_sub_self⟩
  · rintro ⟨⟨h0, hlt⟩, hdvd⟩
    have hmod := (Int.emod_emod_of_dvd n (dvd_refl _)).symm.trans (Int.emod_emod_of_dvd n (dvd_refl ((2 : Int) ^ w)))
    have heq : x % 2 ^ w = n % 2 ^ w := (Int.emod_eq_emod_iff_emod_sub_eq_zero.2
      (Int.emod_eq_zero_of_dvd ((dvd_neg.2 hdvd).trans (by rw [neg_sub]))))
    rw [heq, Int.emod_eq_of_lt h0 hlt]

theorem ofInt_toNat_of_size {w : Nat} (x : Int) (n : Nat) (hn : n = (x % 2 ^ w).toNat % 2 ^ w) :
    (n : Int) = x % 2 ^ w := by
  have hpos : (0 : Int) < 2 ^ w := by positivity
  have h0 := Int.emod_nonneg x hpos.ne'
  have hlt := Int.emod_lt_of_pos x hpos
  rw [hn, Int.natCast_emod, Int.toNat_of_nonneg h0]
  push_cast
  exact Int.emod_eq_of_lt h0 hlt

variable {type : BaseType}

theorem castTo_eq (hint : type.isInteger = true) (x : Int) :
    castTo type x = if type.isSigned = true then x.bmod (2 ^ (8 * (archTypeInfo .noArch type).size))
      else x % 2 ^ (8 * (archTypeInfo .noArch type).size) := by
  cases type with
  | char => exact Int8.toInt_ofInt
  | short => exact Int16.toInt_ofInt
  | int | wchar => exact Int32.toInt_ofInt
  | long | longlong => exact Int64.toInt_ofInt
  | uchar => exact ofInt_toNat_of_size x _ (UInt8.toNat_ofNat')
  | ushort => exact ofInt_toNat_of_size x _ (UInt16.toNat_ofNat')
  | uint => exact ofInt_toNat_of_size x _ (UInt32.toNat_ofNat')
  | ulong | ulonglong | address => exact ofInt_toNat_of_size x _ (UInt64.toNat_ofNat')
  | _ => simp [BaseType.isInteger] at hint

/-- A cast is right exactly if the type holds the number and it has the same
bits. -/
theorem castTo_eq_iff (hint : type.isInteger = true) (x n : Int) :
    castTo type x = n ↔ HoldsBits type.isSigned (8 * (archTypeInfo .noArch type).size) n ∧
      (2 ^ (8 * (archTypeInfo .noArch type).size) : Int) ∣ n - x := by
  have hsize : 0 < 8 * (archTypeInfo .noArch type).size := by cases type <;> decide
  rw [castTo_eq hint]
  cases type.isSigned with
  | true => rw [if_pos rfl, bmod_eq_iff_holdsBits hsize]
  | false => rw [if_neg (by simp), emod_eq_iff_holdsBits]

theorem dvd_sub_bmod_iff {w : Nat} (hw : w ≤ 64) (n x : Int) :
    (2 ^ w : Int) ∣ n - x.bmod (2 ^ 64) ↔ (2 ^ w : Int) ∣ n - x := by
  have hdvd : (2 ^ w : Int) ∣ x - x.bmod (2 ^ 64) := (pow_dvd_pow 2 hw).trans Int.dvd_self_sub_bmod
  have hsplit : n - x.bmod (2 ^ 64) = (n - x) + (x - x.bmod (2 ^ 64)) := by ring
  rw [hsplit, dvd_add_left hdvd]

/-- What an attribute gets is the value of `ulval`, negated if there is a sign,
as one of its type. Copying a value of this type does the same as a cast. -/
theorem initScalarValue_eq_iff (hint : type.isInteger = true) (minus : Bool) (v : YyStype) (n : Int) :
    initScalarValue type (scalarConstant minus v) = n ↔
      HoldsBits type.isSigned (8 * (archTypeInfo .noArch type).size) n ∧
        (2 ^ (8 * (archTypeInfo .noArch type).size) : Int) ∣ n - negatedIf minus v.ulval.toNat := by
  have hsize : 8 * (archTypeInfo .noArch type).size ≤ 64 := by cases type <;> first | decide | cases hint
  cases minus with
  | false =>
    have hcast : initScalarValue type (scalarConstant false v) = castTo type v.ulval.toNat := by
      rw [scalarConstant, if_neg (by simp), initScalarValue]
      split
      · rename_i htype
        have hsize64 : 8 * (archTypeInfo .noArch .ulong).size = 64 := rfl
        have hlt : (v.ulval.toNat : Int) < 2 ^ 64 := by exact_mod_cast v.ulval.toNat_lt
        rw [htype, castTo_eq rfl, if_neg (by decide), hsize64, Int.emod_eq_of_lt (Int.natCast_nonneg _) hlt]
      · rfl
    rw [hcast, castTo_eq_iff hint, negatedIf, if_neg (by simp)]
  | true =>
    have hcast : initScalarValue type (scalarConstant true v) =
        castTo type ((-(v.ulval.toNat : Int)).bmod (2 ^ 64)) := by
      rw [scalarConstant, if_pos rfl, initScalarValue, toInt_toInt64_neg]
      split
      · rename_i htype
        have hsize64 : 8 * (archTypeInfo .noArch .long).size = 64 := rfl
        rw [htype, castTo_eq rfl, if_pos (by decide), hsize64, Int.bmod_bmod]
      · rfl
    rw [hcast, castTo_eq_iff hint, dvd_sub_bmod_iff hsize, negatedIf, if_pos rfl]

/-! ## Each use -/

theorem dvd_signed_sub_iff (minus : Bool) (lit : IntLiteral) (m : Int) (u : Nat) :
    m ∣ lit.signed minus - negatedIf minus u ↔ m ∣ lit.value - u := by
  cases minus with
  | false => rfl
  | true =>
    show m ∣ -(lit.value : Int) - -(u : Int) ↔ _
    rw [← dvd_neg]
    have hneg : -(-(lit.value : Int) - -(u : Int)) = lit.value - u := by ring
    rw [hneg]

/-- The value of `ulval` when the literal has been read. -/
theorem lexed_ulval (before : List Token) (lit : IntLiteral) :
    (lexed (before ++ [.integer lit])).ulval.toNat =
      (lexed before).upper.toNat * 2 ^ 32 + keptBits lit.value := by
  rw [ulval_toNat, (lexed_integer before lit).1, (lexed_integer before lit).2]

/-- A literal that is not rejected is right if the number taken is its own and
fits. -/
theorem right_of_taken {before : List Token} {minus : Bool} {lit : IntLiteral} {use : Use} {n : Int}
    (htaken : fate before minus lit use = .taken n) :
    Right before minus lit use ↔ n = lit.signed minus ∧ use.Holds (lit.signed minus) := by
  rw [Right, htaken, Fate.taken.injEq]
  simp

theorem integerConstant_lexed (before : List Token) (lit : IntLiteral) :
    (integerConstant (lexed (before ++ [.integer lit]))).toNat = keptBits lit.value := by
  rw [integerConstant_toNat, (lexed_integer before lit).2]

theorem holds_unsigned_iff {bits : Nat} (lit : IntLiteral) :
    HoldsBits false bits (lit.signed false) ↔ lit.value < 2 ^ bits := by
  rw [HoldsBits, if_neg (by simp), IntLiteral.signed, if_neg (by simp)]
  constructor
  · rintro ⟨-, hlt⟩
    exact_mod_cast hlt
  · intro hlt
    exact ⟨Int.natCast_nonneg _, by exact_mod_cast hlt⟩

theorem facilityInt_eq (c : UInt32) :
    facilityInt c = if c.toNat = 2 ^ 32 - 1 then .rejected else .taken c.toNat := by
  have hval : (0xffffffff : UInt32).toNat = 2 ^ 32 - 1 := by decide
  have hmax : ¬ 0xffffffff < c := by
    have hlt := c.toNat_lt
    rw [UInt32.lt_iff_toNat_lt, hval]
    omega
  have heq : c = 0xffffffff ↔ c.toNat = 2 ^ 32 - 1 := by rw [← UInt32.toNat_inj, hval]
  rw [facilityInt, if_neg hmax]
  simp only [heq]

theorem value_lt_of_holdsBits {signed minus : Bool} {bits : Nat} {lit : IntLiteral}
    (hholds : HoldsBits signed bits (lit.signed minus)) : lit.value < 2 ^ bits := by
  have hpos : (0 : Int) < 2 ^ bits := by positivity
  suffices h : (lit.value : Int) < 2 ^ bits by exact_mod_cast h
  rw [HoldsBits] at hholds
  cases minus with
  | false =>
    have hvalue : lit.signed false = lit.value := rfl
    split at hholds <;> omega
  | true =>
    have hvalue : lit.signed true = -lit.value := rfl
    split at hholds <;> omega

theorem right_facility_iff (before : List Token) (minus : Bool) (lit : IntLiteral) :
    Right before minus lit .facility ↔ Safe before minus lit .facility := by
  cases minus with
  | true => exact iff_of_true (.inl rfl) (.inl rfl)
  | false =>
    have hfate : fate before false lit .facility =
        facilityInt (integerConstant (lexed (before ++ [.integer lit]))) := by
      simp only [fate, Bool.false_eq_true, if_false]
    rw [facilityInt_eq, integerConstant_lexed] at hfate
    have hlt := keptBits_lt lit.value
    by_cases hall : keptBits lit.value = 2 ^ 32 - 1
    · rw [if_pos hall] at hfate
      exact iff_of_true (.inl hfate) (.inr (.inr hall))
    · rw [if_neg hall] at hfate
      rw [right_of_taken hfate, Use.Holds, holds_unsigned_iff, IntLiteral.signed, if_neg (by simp), Safe]
      constructor
      · rintro ⟨-, h⟩
        exact .inr (.inl h)
      · rintro (h | h | h)
        · cases h
        · exact ⟨by rw [keptBits_of_lt h], h⟩
        · exact absurd h hall

theorem negated_ulval_eq_neg_one_iff (minus : Bool) {u : Nat} (hu : u < 2 ^ 64) :
    (negatedIf minus u).bmod (2 ^ 64) = -1 ↔ minus = false ∧ u = 2 ^ 64 - 1 ∨ minus = true ∧ u = 1 := by
  rw [bmod_eq_iff_holdsBits (by decide), HoldsBits, if_pos rfl]
  cases minus with
  | false =>
    have hu' : negatedIf false u = u := rfl
    rw [hu']
    simp only [true_and, Bool.false_eq_true, false_and, or_false]
    omega
  | true =>
    have hu' : negatedIf true u = -u := rfl
    rw [hu']
    simp only [true_and, Bool.true_eq_false, false_and, false_or]
    omega

/-- What `event_type` takes is a `long` first, which must not be -1, and then
an `int`. -/
theorem eventTypeInt_eq (c : Int64) :
    eventTypeInt c = if c.toInt = -1 then .rejected else .taken (c.toInt.bmod (2 ^ 32)) := by
  have hval : (-1 : Int64).toInt = -1 := by decide
  have heq : c = -1 ↔ c.toInt = -1 := by rw [← Int64.toInt_inj, hval]
  rw [eventTypeInt, Int64.toInt_toInt32]
  simp only [heq]

theorem right_eventType_iff (before : List Token) (minus : Bool) (lit : IntLiteral) :
    Right before minus lit .eventType ↔ Safe before minus lit .eventType := by
  have hfate : fate before minus lit .eventType =
      eventTypeInt (signedIntegerConstant minus (lexed (before ++ [.integer lit]))) := rfl
  have hupper := (lexed before).upper.toNat_lt
  have hupperMax : (lexed before).upper = 0xffffffff ↔ (lexed before).upper.toNat = 2 ^ 32 - 1 := by
    rw [← UInt32.toNat_inj]
    exact Iff.rfl
  have hupperZero : (lexed before).upper = 0 ↔ (lexed before).upper.toNat = 0 := by
    rw [← UInt32.toNat_inj]
    exact Iff.rfl
  have hkept := keptBits_lt lit.value
  have hu : (lexed before).upper.toNat * 2 ^ 32 + keptBits lit.value < 2 ^ 64 := by omega
  have hreserved := negated_ulval_eq_neg_one_iff minus hu
  rw [eventTypeInt_eq, signedIntegerConstant_toInt, lexed_ulval] at hfate
  rw [Safe, hupperMax, hupperZero]
  split at hfate
  · rename_i hc
    refine iff_of_true (.inl hfate) (.inr ?_)
    rcases hreserved.1 hc with ⟨hminus, h⟩ | ⟨hminus, h⟩
    · exact .inl ⟨hminus, by omega, by omega⟩
    · exact .inr ⟨hminus, by omega, by omega⟩
  · rename_i hc
    have hnot := mt hreserved.2 hc
    rw [right_of_taken hfate, bmod_eq_iff_holdsBits (by decide), dvd_sub_bmod_iff (by decide), dvd_signed_sub_iff,
      Use.Holds]
    constructor
    · rintro ⟨-, hholds⟩
      exact .inl hholds
    · rintro (hholds | ⟨hminus, hmax, hone⟩ | ⟨hminus, hzero, hone⟩)
      · refine ⟨⟨hholds, ?_⟩, hholds⟩
        rw [keptBits_of_lt (value_lt_of_holdsBits hholds)]
        omega
      · exact absurd (.inl ⟨hminus, by omega⟩) hnot
      · exact absurd (.inr ⟨hminus, by omega⟩) hnot

/-- A dimension is what is kept of the number, if no bit is lost. -/
theorem tdDimension_eq (c : UInt32) : (2 ^ 31 ≤ c.toNat → tdDimension c = none) ∧
      (c.toNat < 2 ^ 31 → ∃ dim, tdDimension c = some dim ∧ dim.toInt = c.toNat) := by
  have hval : (0x7fffffff : UInt32).toNat = 2 ^ 31 - 1 := by decide
  have hlt : 0x7fffffff < c ↔ 2 ^ 31 ≤ c.toNat := by
    rw [UInt32.lt_iff_toNat_lt, hval]
    omega
  refine ⟨fun h => if_pos (hlt.2 h), fun h => ⟨c.toInt32, if_neg (mt hlt.1 (by omega)), ?_⟩⟩
  show c.toBitVec.toInt = c.toBitVec.toNat
  have hbit : 2 * c.toBitVec.toNat < 2 ^ 32 := by
    show 2 * c.toNat < 2 ^ 32
    omega
  exact BitVec.toInt_eq_toNat_of_lt hbit

/-- A use that takes what is kept, up to `INT_MAX`, if the semantic checks say
so. -/
theorem right_kept_iff {before : List Token} {lit : IntLiteral} {use : Use} {check : Int32 → Fate}
    {ok : Nat → Prop} (hfate : fate before false lit use =
      match tdDimension (integerConstant (lexed (before ++ [.integer lit]))) with
      | none => .rejected
      | some dim => check dim)
    (hholds : use.Holds (lit.signed false) ↔ lit.value < 2 ^ 31)
    (hok : ∀ (dim : Int32) (n : Nat), dim.toInt = n → ok n → check dim = .taken n)
    (hnot : ∀ (dim : Int32) (n : Nat), dim.toInt = n → ¬ok n → check dim = .rejected) :
    Right before false lit use ↔
      lit.value < 2 ^ 31 ∨ 2 ^ 31 ≤ keptBits lit.value ∨ ¬ok (keptBits lit.value) := by
  have hc := integerConstant_lexed before lit
  obtain ⟨hnone, hsome⟩ := tdDimension_eq (integerConstant (lexed (before ++ [.integer lit])))
  rw [hc] at hnone hsome
  rcases Nat.lt_or_ge (keptBits lit.value) (2 ^ 31) with hlt | hge
  · obtain ⟨dim, hdim, hint⟩ := hsome hlt
    rw [hdim] at hfate
    by_cases h : ok (keptBits lit.value)
    · have htaken := hfate.trans (hok dim _ hint h)
      rw [right_of_taken htaken, hholds, IntLiteral.signed, if_neg (by simp)]
      constructor
      · rintro ⟨-, hvalue⟩
        exact .inl hvalue
      · rintro (hvalue | hge | hbad)
        · exact ⟨by rw [keptBits_of_lt (by omega)], hvalue⟩
        · omega
        · exact absurd h hbad
    · exact iff_of_true (.inl (hfate.trans (hnot dim _ hint h))) (.inr (.inr h))
  · rw [hnone hge] at hfate
    exact iff_of_true (.inl hfate) (.inr (.inl hge))

theorem right_dimension_iff (before : List Token) (minus : Bool) (lit : IntLiteral) (nVals : Option Nat) :
    Right before minus lit (.dimension nVals) ↔ Safe before minus lit (.dimension nVals) := by
  cases minus with
  | true => exact iff_of_true (.inl rfl) (.inl rfl)
  | false =>
    have hfate : fate before false lit (.dimension nVals) =
        match tdDimension (integerConstant (lexed (before ++ [.integer lit]))) with
        | none => .rejected
        | some dim => validateAttDimension nVals dim := by
      simp only [fate, Bool.false_eq_true, if_false]
    have hnot : ∀ n, ¬(n ≠ 0 ∧ ∀ k ∈ nVals, k = n) ↔ n = 0 ∨ ∃ k ∈ nVals, k ≠ n := by
      intro n
      rw [not_and_or, not_not]
      push Not
      rfl
    rw [@right_kept_iff _ _ _ _ (fun n => n ≠ 0 ∧ ∀ k ∈ nVals, k = n) hfate (holds_unsigned_iff lit), hnot, Safe]
    · simp only [Bool.false_eq_true, false_or, @or_left_comm (2 ^ 31 ≤ keptBits lit.value)]
    · rintro dim n hint ⟨hzero, hall⟩
      have hpos : ¬dim ≤ 0 := by
        rw [Int32.le_iff_toInt_le, hint]
        exact mt Int.natCast_nonpos_iff.1 hzero
      have hsame : ¬∃ k ∈ nVals, dim.toInt ≠ k := by
        rintro ⟨k, hk, hne⟩
        rw [hint, hall k hk] at hne
        exact hne rfl
      rw [validateAttDimension, if_neg hpos, if_neg hsame, hint]
    · intro dim n hint hbad
      rw [validateAttDimension]
      split
      · rfl
      · rename_i hpos
        rcases (hnot n).1 hbad with rfl | ⟨k, hk, hne⟩
        · rw [Int32.le_iff_toInt_le, hint] at hpos
          exact absurd (le_refl _) hpos
        · refine if_pos ⟨k, hk, ?_⟩
          rw [hint]
          exact_mod_cast hne.symm

theorem right_bitField_iff (before : List Token) (minus : Bool) (lit : IntLiteral) (type : BaseType) (named : Bool) :
    Right before minus lit (.bitField type named) ↔ Safe before minus lit (.bitField type named) := by
  cases minus with
  | true => exact iff_of_true (.inl rfl) (.inl rfl)
  | false =>
    have hfate : fate before false lit (.bitField type named) =
        match tdDimension (integerConstant (lexed (before ++ [.integer lit]))) with
        | none => .rejected
        | some nBits => validateAttBitField type named nBits := by
      simp only [fate, Bool.false_eq_true, if_false]
    have hnot : ∀ n, ¬(type.isInteger = true ∧ n ≤ 8 * (archTypeInfo .noArch type).size ∧ ¬(n = 0 ∧ named = true)) ↔
        type.isInteger = false ∨ 8 * (archTypeInfo .noArch type).size < n ∨ n = 0 ∧ named = true := by
      intro n
      rw [not_and_or, not_and_or, not_not, Nat.not_le, Bool.not_eq_true]
    rw [@right_kept_iff _ _ _ _ (fun n => type.isInteger = true ∧ n ≤ 8 * (archTypeInfo .noArch type).size ∧
      ¬(n = 0 ∧ named = true)) hfate (holds_unsigned_iff lit), hnot, Safe]
    · simp only [Bool.false_eq_true, false_or]
    · rintro nBits n hint ⟨hinteger, hle, hname⟩
      have hfits : ¬8 * (archTypeInfo .noArch type).size < nBits.toInt := by
        rw [hint]
        omega
      have hzero : nBits = 0 ↔ n = 0 := by
        rw [← Int32.toInt_inj, hint]
        exact Int.natCast_eq_zero
      rw [validateAttBitField, if_neg (by simp [hinteger]), if_neg hfits, if_neg (by rwa [hzero]), hint]
    · intro nBits n hint hbad
      have hzero : nBits = 0 ↔ n = 0 := by
        rw [← Int32.toInt_inj, hint]
        exact Int.natCast_eq_zero
      rw [validateAttBitField]
      rcases (hnot n).1 hbad with hinteger | hlarge | hname
      · exact if_pos hinteger
      · split
        · rfl
        · refine if_pos ?_
          rw [hint]
          exact_mod_cast hlarge
      · split
        · rfl
        split
        · rfl
        exact if_pos (by rwa [hzero])

theorem size_of_isInteger (hint : type.isInteger = true) :
    (archTypeInfo .noArch type).size = 8 ∨ (archTypeInfo .noArch type).size ≤ 4 := by
  cases type <;> first | decide | cases hint

/-- A number that the type holds has lost nothing, except in the upper half of
a type of 64 bits, which is what the token before has left. -/
theorem right_initializer_iff (before : List Token) (minus : Bool) (lit : IntLiteral) (type : BaseType)
    (hint : type.isInteger = true) (bits : Option Nat) :
    Right before minus lit (.initializer type hint bits) ↔ Safe before minus lit (.initializer type hint bits) := by
  have hfate : fate before minus lit (.initializer type hint bits) =
      .taken (initScalarValue type (scalarConstant minus (lexed (before ++ [.integer lit])))) := rfl
  have hupper := (lexed before).upper.toNat_lt
  rw [right_of_taken hfate, initScalarValue_eq_iff hint, dvd_signed_sub_iff, lexed_ulval, Safe]
  generalize (lexed before).upper.toNat = upper at hupper
  have hdvd : ∀ hholds : HoldsBits type.isSigned (8 * (archTypeInfo .noArch type).size) (lit.signed minus),
      ((2 ^ (8 * (archTypeInfo .noArch type).size) : Int) ∣ lit.value - (upper * 2 ^ 32 + keptBits lit.value : Nat) ↔
        ((archTypeInfo .noArch type).size = 8 → lit.value / 2 ^ 32 = upper)) := by
    intro hholds
    have hlt := value_lt_of_holdsBits hholds
    rcases size_of_isInteger hint with hsize | hsize
    · rw [hsize] at hlt ⊢
      rw [keptBits]
      omega
    · have hpow : 2 ^ (8 * (archTypeInfo .noArch type).size) ≤ 2 ^ 32 := Nat.pow_le_pow_right (by decide) (by omega)
      have hlost : (lit.value : Int) - (upper * 2 ^ 32 + keptBits lit.value : Nat) = 2 ^ 32 * -upper := by
        rw [keptBits_of_lt (hlt.trans_le hpow)]
        push_cast
        ring
      refine iff_of_true ?_ (by omega)
      rw [hlost]
      exact Dvd.dvd.mul_right (pow_dvd_pow 2 (by omega)) _
  constructor
  · rintro ⟨⟨hholds, h⟩, huse⟩
    exact ⟨huse, (hdvd hholds).1 h⟩
  · rintro ⟨huse, h⟩
    exact ⟨⟨huse.1, (hdvd huse.1).2 h⟩, huse⟩

/-- A literal is rejected or taken for the number it is, which fits, exactly
if it is one of the safe ones. -/
theorem literal_right_iff (before : List Token) (minus : Bool) (lit : IntLiteral) (use : Use) :
    Right before minus lit use ↔ Safe before minus lit use := by
  cases use with
  | facility => exact right_facility_iff before minus lit
  | eventType => exact right_eventType_iff before minus lit
  | dimension nVals => exact right_dimension_iff before minus lit nVals
  | bitField type named => exact right_bitField_iff before minus lit type named
  | initializer type hint bits => exact right_initializer_iff before minus lit type hint bits

theorem takes_large : Radix.Takes .decimal [0x34, 0x32, 0x39, 0x34, 0x39, 0x36, 0x37, 0x32, 0x39, 0x37] :=
  ⟨0x34, _, rfl, by decide, List.all_eq_true.1 rfl⟩

theorem takes_five : Radix.Takes .decimal [0x35] := ⟨0x35, [], rfl, by decide, List.all_eq_true.1 rfl⟩

theorem long_isInteger : BaseType.long.isInteger = true := rfl

/-- 4294967297 is the facility 1, and a `long` that is initialized with 5 behind
its name gets half of the pointer to the name. -/
theorem literals_changed : ¬Right [] false ⟨.decimal, _, takes_large⟩ .facility ∧
      ¬Right [.text 0x5555555592a0] false ⟨.decimal, _, takes_five⟩ (.initializer .long long_isInteger none) := by
  have hlarge : IntLiteral.value ⟨.decimal, _, takes_large⟩ = 4294967297 := by decide
  have hfive : IntLiteral.value ⟨.decimal, _, takes_five⟩ = 5 := by decide
  have hkept : keptBits 4294967297 = 1 := by decide
  have hupper : (lexed [.text 0x5555555592a0]).upper.toNat = 0x5555 := by decide
  constructor
  · rw [right_facility_iff, Safe, hlarge, hkept]
    rintro (hminus | hlt | hmax)
    · cases hminus
    · omega
    · omega
  · rw [right_initializer_iff, Safe, hfive, hupper]
    rintro ⟨-, hsame⟩
    exact absurd (hsame rfl) (by decide)

end Evlog.Template
