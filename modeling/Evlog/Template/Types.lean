/-
Evlog.Template.Types — the types of attributes, on every architecture.

A record comes with the architecture it was logged on, and that decides
how large its values are, where they stand in an aligned template, and what
is done to them before they are looked at. The machine that looks is an
x86_64: this is what the rows without an architecture were compiled with.

A value of an integer type is kept as the integer it is. Of a floating
point value only the bytes are kept that it is made of, and what machine
they are from.
-/
import Evlog.Lib.ByteCodec

namespace Evlog.Template

open Evlog.Lib

/-! ## Sizes and alignments -/

/-- `LOGREC_NO_ARCH` and the `LOGREC_ARCH` constants. -/
inductive Arch where
  | noArch
  | i386
  | ia64
  | s390
  | s390x
  | ppc
  | ppc64
  | x86_64
  | armBe
  | armLe
  deriving DecidableEq, Repr

/-- `tmpl_base_type_t`, less structs and what no attribute of a record is. -/
inductive BaseType where
  | char
  | uchar
  | short
  | ushort
  | int
  | uint
  | long
  | ulong
  | longlong
  | ulonglong
  | float
  | double
  | ldouble
  | string
  | wchar
  | wstring
  | address
  deriving DecidableEq, Repr

/-- `tmpl_arch_type_info_t`. -/
structure TypeInfo where
  size : Nat
  align : Nat
  deriving DecidableEq, Repr

/-- The size of a `long` and of a pointer. -/
def Arch.wordSize : Arch → Nat
  | .i386 | .s390 | .ppc => 4
  | _ => 8

/-- `_evlTmplArchTypeInfo`. -/
def archTypeInfo (arch : Arch) : BaseType → TypeInfo
  | .char | .uchar => ⟨1, 1⟩
  | .short | .ushort => ⟨2, 2⟩
  | .int | .uint => ⟨4, 4⟩
  | .long | .ulong => ⟨arch.wordSize, arch.wordSize⟩
  | .longlong | .ulonglong | .double => if arch = .i386 then ⟨8, 4⟩ else ⟨8, 8⟩
  | .float => ⟨4, 4⟩
  | .ldouble =>
    match arch with
    | .noArch | .ia64 | .x86_64 => ⟨16, 16⟩
    | .i386 => ⟨12, 4⟩
    | _ => ⟨8, 8⟩
  | .string => ⟨arch.wordSize, 0⟩
  | .wchar => ⟨4, 4⟩
  | .wstring => ⟨arch.wordSize, 0⟩
  | .address => ⟨arch.wordSize, arch.wordSize⟩

/-- `ti_isInteger`. -/
def BaseType.isInteger : BaseType → Bool
  | .char | .uchar | .short | .ushort | .int | .uint | .long | .ulong | .longlong | .ulonglong
  | .wchar | .address => true
  | _ => false

def BaseType.isSigned : BaseType → Bool
  | .char | .short | .int | .long | .longlong | .wchar => true
  | _ => false

def BaseType.isScalar : BaseType → Bool
  | .string | .wstring => false
  | _ => true

/-! ## Conversion -/

/-- `conv_t`, as far as it is found in the column of an x86_64. -/
inductive Conv where
  | noConv
  | bs3264
  | bs6464
  | le3264
  deriving DecidableEq, Repr

/-- `conv_info[arch][LOCAL_ARCH]`. -/
def convInfo : Arch → Conv
  | .noArch | .ia64 | .x86_64 => .noConv
  | .i386 | .armLe => .le3264
  | .s390 | .ppc | .armBe => .bs3264
  | .s390x | .ppc64 => .bs6464

def Conv.swaps : Conv → Bool
  | .bs3264 | .bs6464 => true
  | _ => false

/-- `__conv_scalar` on a `long` or an address. What it has to fill up, it
fills up with zeros. -/
def convLong (conv : Conv) (bs : List UInt8) : List UInt8 :=
  match conv with
  | .noConv => bs
  | .bs3264 => (bs.reverse ++ List.replicate 8 0).take 8
  | .bs6464 => bs.reverse
  | .le3264 => (bs ++ List.replicate 8 0).take 8

/-- `__conv_scalar` on a value of an integer type. -/
def convScalar (arch : Arch) (ty : BaseType) (bs : List UInt8) : List UInt8 :=
  match ty with
  | .long | .ulong | .address => convLong (convInfo arch) bs
  | _ => if (convInfo arch).swaps then bs.reverse else bs

/-- What is in one of the scalar members of `tmpl_value_t`. -/
inductive Scalar where
  | int (n : Int)
  | float (arch : Arch) (bs : List UInt8)
  deriving DecidableEq, Repr

def scalarValue (arch : Arch) (ty : BaseType) (bs : List UInt8) : Scalar :=
  if ty.isInteger then
    let bs := convScalar arch ty bs
    .int (if ty.isSigned then leInt bs else leNat bs)
  else .float arch bs

end Evlog.Template
