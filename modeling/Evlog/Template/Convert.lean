/-
Evlog.Template.Convert — the conversion of values between any two machines.

What `Evlog.Template.Types` says of an x86_64 is one column of a table:
`conv_info` has an entry for every architecture a record can come from and
every one the viewer can run on. Here is the table as a whole, and the
conversion as it is done in memory: on a buffer whose first bytes are the
value of the record, and whose others are whatever was in it before.

The first row of the table of sizes is compiled for the machine at hand.
It is the row of that machine here. What is done with the bytes of a `long
double` is a parameter: no integer depends on it.
-/
import Evlog.Template.Types
import Evlog.Lib.IntBytes
import Evlog.Lib.OpenFile

namespace Evlog.Template.Convert

open Evlog.Lib

/-- `conv_t`. -/
inductive Conv where
  | noConv
  | bs3232
  | bs3264
  | bs6432
  | bs6464
  | le3264
  | le6432
  | be3264
  | be6432
  deriving DecidableEq, Repr

/-- `conv_info`, by the architecture of the record and the local one. The
two columns of the ARMs stand in the order the source has them: the first
of them is headed `ARM_LE`, and read with `LOGREC_ARCH_ARM_BE`. -/
def convInfo : Arch → Arch → Conv
  | .noArch, _ | _, .noArch => .noConv
  | .i386, loc =>
    match loc with
    | .noArch | .i386 | .armBe => .noConv
    | .ia64 | .x86_64 => .le3264
    | .s390 | .ppc | .armLe => .bs3232
    | .s390x | .ppc64 => .bs3264
  | .ia64, loc =>
    match loc with
    | .noArch | .ia64 | .x86_64 => .noConv
    | .i386 | .armBe => .le6432
    | .s390 | .ppc | .armLe => .bs6432
    | .s390x | .ppc64 => .bs6464
  | .s390, loc | .ppc, loc | .armBe, loc =>
    match loc with
    | .noArch | .s390 | .ppc | .armLe => .noConv
    | .i386 | .armBe => .bs3232
    | .ia64 | .x86_64 => .bs3264
    | .s390x | .ppc64 => .be3264
  | .s390x, loc | .ppc64, loc =>
    match loc with
    | .noArch | .s390x | .ppc64 => .noConv
    | .i386 | .armBe => .bs6432
    | .ia64 | .x86_64 => .bs6464
    | .s390 | .ppc | .armLe => .be6432
  | .x86_64, loc =>
    match loc with
    | .noArch | .ia64 | .x86_64 => .noConv
    | .i386 | .armBe => .le6432
    | .s390 | .ppc => .bs6432
    | .s390x | .ppc64 => .bs6464
    | .armLe => .be6432
  | .armLe, loc =>
    match loc with
    | .noArch | .i386 | .armBe => .noConv
    | .ia64 | .x86_64 => .le3264
    | .s390 | .ppc | .armLe => .bs3232
    | .s390x | .ppc64 => .bs3264

/-- The loop of `byteswap`: the bytes at `i` and `j` change places, until the
two meet. -/
def byteswapLoop (d : List UInt8) (i j : Nat) : List UInt8 :=
  if i < j then byteswapLoop ((d.set i (d.getD j 0)).set j (d.getD i 0)) (i + 1) (j - 1) else d
termination_by j - i

def byteswap (data : List UInt8) (nbytes : Nat) : List UInt8 := byteswapLoop data 0 (nbytes - 1)

/-- `conv_type` is one of those that swap. -/
def Conv.swaps : Conv → Bool
  | .bs3232 | .bs3264 | .bs6432 | .bs6464 => true
  | _ => false

/-- `tmp`: two longs of zeros, with the value copied over them. -/
def tmpOf (loc : Arch) (data : List UInt8) (srcSize : Nat) : List UInt8 :=
  overlay (List.replicate (2 * loc.wordSize) 0) 0 (data.take srcSize)

def convSwapLong (loc logArch : Arch) (ty : BaseType) (data : List UInt8) (conv : Conv) :
    List UInt8 :=
  let srcSize := (archTypeInfo logArch ty).size
  let destSize := (archTypeInfo loc ty).size
  match conv with
  | .bs3232 | .bs6464 => byteswap data destSize
  | .bs3264 | .bs6432 =>
    let tmp := byteswap (tmpOf loc data srcSize) srcSize
    let cleared := overlay data 0 (List.replicate srcSize 0)
    if logArch = .ia64 ∨ logArch = .x86_64 then
      -- the second of the two longs
      overlay cleared 0 ((tmp.drop loc.wordSize).take destSize)
    else overlay cleared 0 (tmp.take destSize)
  | _ => data

section

variable (convSwapLdouble : Arch → List UInt8 → List UInt8)

/-- `__conv_scalar`. -/
def convScalarAs (loc logArch : Arch) (ty : BaseType) (data : List UInt8) (conv : Conv) :
    List UInt8 :=
  let srcSize := (archTypeInfo logArch ty).size
  let destSize := (archTypeInfo loc ty).size
  if conv = .noConv then data
  else if conv.swaps then
    match ty with
    | .ulong | .long | .address => convSwapLong loc logArch ty data conv
    | .ldouble => convSwapLdouble logArch data
    | _ => byteswap data srcSize
  else
    match ty with
    | .ulong | .long | .address =>
      let tmp := tmpOf loc data srcSize
      let cleared := overlay data 0 (List.replicate srcSize 0)
      match conv with
      | .le3264 | .le6432 => overlay cleared 0 (tmp.take destSize)
      | .be3264 => overlay cleared loc.wordSize (tmp.take destSize)
      | .be6432 => overlay cleared 0 ((tmp.drop loc.wordSize).take destSize)
      | _ => cleared
    | _ => data

/-- The loop of `__conv_scalar_array`. One buffer serves all the elements. -/
def convArrayLoop (loc logArch : Arch) (ty : BaseType) (conv : Conv) (elSize : Nat) :
    Nat → List UInt8 → List UInt8 → List UInt8
  | 0, _, _ => []
  | nel + 1, buf, data =>
    let buf := convScalarAs convSwapLdouble loc logArch ty (overlay buf 0 (data.take elSize)) conv
    buf.take (archTypeInfo loc ty).size
      ++ convArrayLoop loc logArch ty conv elSize nel buf (data.drop elSize)

/-- `_evl_conv_scalar`, on a machine whose `LOCAL_ARCH` is `loc`. -/
def evlConvScalar (loc arch : Arch) (ty : BaseType) (data : List UInt8) : List UInt8 :=
  match arch with
  | .noArch => data
  | _ => convScalarAs convSwapLdouble loc arch ty data (convInfo arch loc)

/-- `_evl_conv_scalar_array`: what the elements of the array are afterwards.
`buf` is what its buffer held before. -/
def evlConvScalarArray (loc arch : Arch) (ty : BaseType) (buf data : List UInt8)
    (nel elSize : Nat) : List UInt8 :=
  match arch with
  | .noArch => data
  | _ => convArrayLoop convSwapLdouble loc arch ty (convInfo arch loc) elSize nel buf data

end

end Evlog.Template.Convert
