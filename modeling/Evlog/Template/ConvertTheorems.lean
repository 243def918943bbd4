/-
Evlog.Template.ConvertTheorems — when a converted integer is the one that
was logged.

`encode arch ty v` is the integer `v` as a machine of the architecture has
it in memory, `Fit` the kinds of conditions under which a conversion
arrives at it, and `fit` the condition for each pair of architectures. It
is the one of the widths and byte orders, but for the columns and the rows
of the ARMs, which are taken for each other and for machines of 32 bits.
The conversion to a `long` of more bytes fills it up with zeros, and so is
right for no negative number; on a machine that stores the high byte first
the bytes do not even arrive where they belong.
-/
import Evlog.Template.Convert

namespace Evlog.Template.Convert

open Evlog.Lib

/-! ## Integers in memory -/

def bigEndian : Arch → Bool
  | .s390 | .s390x | .ppc | .ppc64 | .armBe => true
  | _ => false

/-- Bytes, least significant first, in the order of the architecture. -/
def inOrder (arch : Arch) (bs : List UInt8) : List UInt8 :=
  if bigEndian arch then bs.reverse else bs

/-- The encoding of `v` as a value of the type. -/
def encode (arch : Arch) (ty : BaseType) (v : Int) : List UInt8 :=
  inOrder arch (intBytes (archTypeInfo arch ty).size v)

/-- The type can be unsigned. Of a `char` and of a `wchar_t` it is the
machine that says whether they have a sign. -/
def mayBeUnsigned : BaseType → Bool
  | .short | .int | .long | .longlong => false
  | _ => true

/-- `v` is a value of the type on the architecture. -/
def Representable (arch : Arch) (ty : BaseType) (v : Int) : Prop :=
  let w := (archTypeInfo arch ty).size
  (if ty.isSigned then -(256 ^ w / 2) ≤ v else 0 ≤ v)
    ∧ (if mayBeUnsigned ty then v < 256 ^ w else v < 256 ^ w / 2)

variable {ty : BaseType} {v : Int}

theorem Representable.inBytes {arch : Arch} (h : Representable arch ty v) :
    InBytes (archTypeInfo arch ty).size v := by
  obtain ⟨hlo, hhi⟩ := h
  have hpos : (0 : Int) < 256 ^ (archTypeInfo arch ty).size := by positivity
  constructor
  · split at hlo <;> omega
  · split at hhi <;> omega

theorem length_encode (arch : Arch) (ty : BaseType) (v : Int) :
    (encode arch ty v).length = (archTypeInfo arch ty).size := by
  rw [encode, inOrder]
  split <;> simp

/-! ## What the code of the conversion does to the bytes -/

theorem byteswapLoop_getElem? (d : List UInt8) (i j k : Nat) (hj : j < d.length) :
    (byteswapLoop d i j)[k]? = if i ≤ k ∧ k ≤ j then d[i + j - k]? else d[k]? := by
  fun_induction byteswapLoop d i j with
  | case1 d i j hij ih =>
    rw [ih (by simp; omega)]
    simp only [List.getElem?_set, List.length_set, List.getD_eq_getElem?_getD]
    grind
  | case2 d i j hij => grind

theorem byteswap_append (bs rest : List UInt8) :
    byteswap (bs ++ rest) bs.length = bs.reverse ++ rest := by
  rcases bs.eq_nil_or_concat with rfl | ⟨bs, b, rfl⟩
  · rw [byteswap, List.length_nil, byteswapLoop, if_neg (by omega)]
    rfl
  · refine List.ext_getElem? fun k => ?_
    rw [byteswap, byteswapLoop_getElem? _ _ _ _ (by simp)]
    grind

variable {data bs e junk : List UInt8}

theorem byteswap_eq {n : Nat} (h : n ≤ data.length) :
    byteswap data n = (data.take n).reverse ++ data.drop n := by
  have hlen : (data.take n).length = n := by
    rw [List.length_take]
    omega
  have happ := byteswap_append (data.take n) (data.drop n)
  rwa [List.take_append_drop, hlen] at happ

theorem overlay_zero_append {old : List UInt8} (h : old.length = bs.length) (rest : List UInt8) :
    overlay (old ++ rest) 0 bs = bs ++ rest := by
  rw [overlay, Nat.zero_add, ← h, List.drop_left' rfl]
  simp

/-- Only integers of these types have a size that is not the same everywhere. -/
def isWord : BaseType → Bool
  | .long | .ulong | .address => true
  | _ => false

theorem size_of_isWord (h : isWord ty) (arch : Arch) :
    (archTypeInfo arch ty).size = arch.wordSize := by
  cases ty <;> first | rfl | exact Bool.noConfusion h

theorem size_of_not_isWord (hint : ty.isInteger) (h : ¬ isWord ty) (arch loc : Arch) :
    (archTypeInfo arch ty).size = (archTypeInfo loc ty).size := by
  cases ty <;> first
    | rfl
    | exact absurd rfl h
    | exact Bool.noConfusion hint
    | (simp only [archTypeInfo]; split <;> split <;> rfl)

theorem size_le (hint : ty.isInteger) (arch : Arch) : (archTypeInfo arch ty).size ≤ 8 := by
  cases ty <;> simp [archTypeInfo, BaseType.isInteger] at hint ⊢
  all_goals first
    | (split <;> simp)
    | (cases arch <;> simp [Arch.wordSize])

/-- What a word is afterwards: `e` are its bytes, `junk` is what was behind
them in the buffer. -/
def moved (conv : Conv) (second : Bool) (word : Nat) (e junk : List UInt8) : List UInt8 :=
  let zeros : List UInt8 := List.replicate (2 * word - e.length) 0
  match conv with
  | .noConv => (e ++ junk).take word
  | .bs3232 | .bs6464 => ((e ++ junk).take word).reverse
  | .bs3264 | .bs6432 =>
    (((e.reverse ++ zeros).drop (if second then word else 0))).take word
  | .le3264 | .le6432 => (e ++ zeros).take word
  | .be3264 => (List.replicate e.length 0 ++ junk).take word
  | .be6432 => ((e ++ zeros).drop word).take word

theorem wordSize_cases (arch : Arch) : arch.wordSize = 4 ∨ arch.wordSize = 8 := by
  cases arch <;> simp [Arch.wordSize]

variable {loc src : Arch}

theorem tmpOf_eq (he : e.length = src.wordSize) (junk : List UInt8) :
    tmpOf loc (e ++ junk) src.wordSize
      = e ++ List.replicate (2 * loc.wordSize - e.length) 0 := by
  have hle : e.length ≤ 2 * loc.wordSize := by
    rcases wordSize_cases src with h | h <;> rcases wordSize_cases loc with h' | h' <;> omega
  rw [tmpOf, List.take_left' he]
  have hsplit : List.replicate (2 * loc.wordSize) (0 : UInt8)
      = List.replicate e.length 0 ++ List.replicate (2 * loc.wordSize - e.length) 0 := by
    rw [List.replicate_append_replicate, Nat.add_sub_cancel' hle]
  rw [hsplit, overlay_zero_append (by simp)]

theorem take_overlay_zero {buf : List UInt8} {n : Nat} (hn : bs.length = n) :
    (overlay buf 0 bs).take n = bs := by
  rw [overlay, List.take_zero, List.nil_append, List.take_left' hn]

theorem convScalarAs_word (ldbl : Arch → List UInt8 → List UInt8) (hty : isWord ty) (loc src : Arch)
    (data : List UInt8) (conv : Conv) :
    convScalarAs ldbl loc src ty data conv =
      let tmp := tmpOf loc data src.wordSize
      let cleared := overlay data 0 (List.replicate src.wordSize 0)
      match conv with
      | .noConv => data
      | .bs3232 | .bs6464 => byteswap data loc.wordSize
      | .bs3264 | .bs6432 =>
        if src = .ia64 ∨ src = .x86_64 then
          overlay cleared 0 (((byteswap tmp src.wordSize).drop loc.wordSize).take loc.wordSize)
        else overlay cleared 0 ((byteswap tmp src.wordSize).take loc.wordSize)
      | .le3264 | .le6432 => overlay cleared 0 (tmp.take loc.wordSize)
      | .be3264 => overlay cleared loc.wordSize (tmp.take loc.wordSize)
      | .be6432 => overlay cleared 0 ((tmp.drop loc.wordSize).take loc.wordSize) := by
  cases ty <;> first | exact Bool.noConfusion hty | (cases conv <;> rfl)

theorem take_convScalarAs (ldbl : Arch → List UInt8 → List UInt8) (hty : isWord ty)
    (he : e.length = src.wordSize) (hjunk : 16 ≤ e.length + junk.length) (conv : Conv) :
    (convScalarAs ldbl loc src ty (e ++ junk) conv).take loc.wordSize
      = moved conv (src = .ia64 ∨ src = .x86_64) loc.wordSize e junk := by
  have hword := wordSize_cases loc
  have hsrc := wordSize_cases src
  have hbuf : loc.wordSize ≤ (e ++ junk).length := by
    rw [List.length_append]
    omega
  have htmp : (tmpOf loc (e ++ junk) src.wordSize)
      = e ++ List.replicate (2 * loc.wordSize - e.length) 0 := tmpOf_eq he junk
  have hswap : byteswap (tmpOf loc (e ++ junk) src.wordSize) src.wordSize
      = e.reverse ++ List.replicate (2 * loc.wordSize - e.length) 0 := by
    rw [htmp, ← he, byteswap_append]
  rw [convScalarAs_word ldbl hty]
  cases conv with
  | noConv => rfl
  | bs3232 | bs6464 =>
    show (byteswap (e ++ junk) loc.wordSize).take loc.wordSize = _
    rw [byteswap_eq hbuf, List.take_left' (by rw [List.length_reverse, List.length_take]; omega)]
    rfl
  | bs3264 | bs6432 =>
    simp only [hswap, moved, decide_eq_true_eq]
    split
    · rw [take_overlay_zero (by simp; omega)]
    · rw [take_overlay_zero (by simp; omega), List.drop_zero]
  | le3264 | le6432 =>
    simp only [htmp, moved]
    rw [take_overlay_zero (by simp; omega)]
  | be3264 =>
    -- it lands behind the word that is read
    have hclear : overlay (e ++ junk) 0 (List.replicate src.wordSize 0)
        = List.replicate e.length 0 ++ junk := by
      rw [← he, overlay_zero_append (by simp)]
    simp only [htmp, moved, hclear]
    rw [take_overlay (by simp; omega) (le_refl _)]
  | be6432 =>
    simp only [htmp, moved]
    rw [take_overlay_zero (by simp; omega)]

/-! ## When it is right -/

/-- The kinds of conditions on a value, and on what was behind it in the
buffer, under which it arrives. -/
inductive Fit where
  | always
  | nonneg
  | zero
  /-- All its bytes are the same as its sign. -/
  | blank
  /-- Its bytes are the same in either order. -/
  | palindrome
  /-- It is not negative, and its own four bytes were in the buffer before. -/
  | already
  /-- As `palindrome`, where the buffer held the missing bytes before. -/
  | palindromeFilled
  /-- As `blank`, where the buffer held the missing bytes before. -/
  | blankFilled
  deriving DecidableEq, Repr

/-- The condition holds of `v` in `w` bytes, with the four bytes `behind`
behind it in the buffer. -/
def Fit.Holds (f : Fit) (w : Nat) (v : Int) (behind : List UInt8) : Prop :=
  match f with
  | .always => True
  | .nonneg => 0 ≤ v
  | .zero => v = 0
  | .blank => v = 0 ∨ v = -1
  | .palindrome => (intBytes w v).reverse = intBytes w v
  | .already => 0 ≤ v ∧ behind = (intBytes w v).reverse
  | .palindromeFilled =>
    (intBytes w v).reverse = intBytes w v ∧ behind = List.replicate 4 (fillByte v)
  | .blankFilled => (v = 0 ∨ v = -1) ∧ behind = List.replicate 4 (fillByte v)

/-- What there is to know of an architecture: the size of its words and
their byte order; the ARMs are kinds of their own. -/
inductive Kind where
  | le32
  | le64
  | be32
  | be64
  | armBe
  | armLe
  deriving DecidableEq, Repr

def kind : Arch → Kind
  | .i386 => .le32
  | .noArch | .ia64 | .x86_64 => .le64
  | .s390 | .ppc => .be32
  | .s390x | .ppc64 => .be64
  | .armBe => .armBe
  | .armLe => .armLe

/-- The condition for a word, by the kinds of the two machines. -/
def wordFit : Kind → Kind → Fit
  | .le32, .le64 | .be32, .le64 => .nonneg
  | .le32, .be64 => .zero
  | .be32, .be64 => .already
  | .le32, .armBe | .le32, .armLe => .blankFilled
  | .be32, .armBe | .be32, .armLe => .palindromeFilled
  | .le64, .armBe | .be64, .armBe => .palindrome
  | .le64, .armLe | .be64, .armLe => .zero
  | .armBe, .le32 | .armBe, .be32 => .blank
  | .armBe, .be64 => .zero
  | .armBe, .armBe | .armBe, .armLe | .armLe, .armBe | .armLe, .armLe => .palindrome
  | _, _ => .always

def fit (src loc : Arch) (ty : BaseType) : Fit :=
  if isWord ty then wordFit (kind src) (kind loc)
  else if (convInfo src loc).swaps = (bigEndian src != bigEndian loc) then .always
  else .palindrome

theorem exists_four (h : bs.length = 4) : ∃ a b c d, bs = [a, b, c, d] := by
  match bs, h with
  | [a, b, c, d], _ => exact ⟨a, b, c, d, rfl⟩

/-- From one machine with words of four bytes to another. -/
theorem moved_44 (hs : src.wordSize = 4) (hl : loc.wordSize = 4) (v : Int) (junk : List UInt8) :
    moved (convInfo src loc) (src = .ia64 ∨ src = .x86_64) 4 (inOrder src (intBytes 4 v)) junk
        = inOrder loc (intBytes 4 v)
      ↔ (wordFit (kind src) (kind loc)).Holds 4 v (junk.take 4) := by
  obtain ⟨a, b, c, d, h4⟩ := exists_four (intBytes_length 4 v)
  rw [h4]
  cases src <;> first | exact absurd hs (by decide) | skip
  all_goals cases loc <;> first | exact absurd hl (by decide) | skip
  all_goals simp [convInfo, moved, inOrder, bigEndian, kind, wordFit, Fit.Holds]

/-- The conditions on a value of four bytes, by its bytes. -/
theorem Fit.holds_four (hv : InBytes 4 v) (f : Fit) (behind : List UInt8) : f.Holds 4 v behind ↔
      match f with
      | .always => True
      | .nonneg => fillByte v = 0
      | .zero => intBytes 4 v = List.replicate 4 0
      | .blank => intBytes 4 v = List.replicate 4 (fillByte v)
      | .palindrome => (intBytes 4 v).reverse = intBytes 4 v
      | .already => fillByte v = 0 ∧ behind = (intBytes 4 v).reverse
      | .palindromeFilled =>
        (intBytes 4 v).reverse = intBytes 4 v ∧ behind = List.replicate 4 (fillByte v)
      | .blankFilled =>
        intBytes 4 v = List.replicate 4 (fillByte v)
          ∧ behind = List.replicate 4 (fillByte v) := by
  rw [intBytes_eq_zeros_iff hv, intBytes_eq_fill_iff hv, fillByte_eq_zero_iff]
  cases f <;> rfl

theorem moved_48 (hs : src.wordSize = 4) (hl : loc.wordSize = 8) (hloc : loc ≠ .noArch)
    (hv : InBytes 4 v) (hjunk : 4 ≤ junk.length) :
    moved (convInfo src loc) (src = .ia64 ∨ src = .x86_64) 8 (inOrder src (intBytes 4 v)) junk
        = inOrder loc (intBytes 8 v)
      ↔ (wordFit (kind src) (kind loc)).Holds 4 v (junk.take 4) := by
  obtain ⟨a, b, c, d, h4⟩ := exists_four (intBytes_length 4 v)
  obtain ⟨i, j, k, l, hj4⟩ := exists_four (List.length_take_of_le hjunk)
  have hsplit : [i, j, k, l] ++ junk.drop 4 = junk := by rw [← hj4, List.take_append_drop]
  have hzero : [a, b, c, d] = List.replicate 4 0 → fillByte v = 0 := by
    intro h
    rw [← h4, intBytes_eq_zeros_iff hv] at h
    exact fillByte_eq_zero_iff.mpr h.ge
  rw [Fit.holds_four hv, intBytes_add hv 4, h4, hj4, ← hsplit]
  generalize fillByte v = f at hzero ⊢
  generalize junk.drop 4 = rest
  clear hv hjunk h4 hj4 hsplit
  cases src <;> first | exact absurd hs (by decide) | skip
  all_goals cases loc <;> first | exact absurd hl (by decide) | exact absurd rfl hloc | skip
  all_goals simp [convInfo, moved, inOrder, bigEndian, kind, wordFit]
  all_goals grind

theorem moved_84 (hs : src.wordSize = 8) (hl : loc.wordSize = 4) (hsrc : src ≠ .noArch)
    (hv : InBytes 4 v) (junk : List UInt8) :
    moved (convInfo src loc) (src = .ia64 ∨ src = .x86_64) 4 (inOrder src (intBytes 8 v)) junk
        = inOrder loc (intBytes 4 v)
      ↔ (wordFit (kind src) (kind loc)).Holds 8 v (junk.take 4) := by
  have hblank := intBytes_eq_fill_iff hv
  obtain ⟨a, b, c, d, h4⟩ := exists_four (intBytes_length 4 v)
  rw [intBytes_add hv 4, h4]
  rw [h4] at hblank
  cases src <;> first | exact absurd hs (by decide) | exact absurd rfl hsrc | skip
  all_goals cases loc <;> first | exact absurd hl (by decide) | skip
  all_goals simp [convInfo, moved, inOrder, bigEndian, kind, wordFit, Fit.Holds, ← hblank]
  all_goals grind

theorem moved_88 (hs : src.wordSize = 8) (hl : loc.wordSize = 8) (hsrc : src ≠ .noArch)
    (hloc : loc ≠ .noArch) (hv : InBytes 8 v) (junk : List UInt8) :
    moved (convInfo src loc) (src = .ia64 ∨ src = .x86_64) 8 (inOrder src (intBytes 8 v)) junk
        = inOrder loc (intBytes 8 v)
      ↔ (wordFit (kind src) (kind loc)).Holds 8 v (junk.take 4) := by
  have hzero := intBytes_eq_zeros_iff hv
  have hlen := intBytes_length 8 v
  generalize h8 : intBytes 8 v = bs at hzero hlen ⊢
  obtain ⟨a, b, c, d, e, f, g, h, rfl⟩ : ∃ a b c d e f g h, bs = [a, b, c, d, e, f, g, h] := by
    match bs, hlen with
    | [a, b, c, d, e, f, g, h], _ => exact ⟨a, b, c, d, e, f, g, h, rfl⟩
  cases src <;> first | exact absurd hs (by decide) | exact absurd rfl hsrc | skip
  all_goals cases loc <;> first | exact absurd hl (by decide) | exact absurd rfl hloc | skip
  all_goals simp [convInfo, moved, inOrder, bigEndian, kind, wordFit, Fit.Holds, ← hzero, h8]
  all_goals grind

theorem moved_iff (hsrc : src ≠ .noArch) (hloc : loc ≠ .noArch) (hs : InBytes src.wordSize v)
    (hl : InBytes loc.wordSize v) (hjunk : 16 ≤ src.wordSize + junk.length) :
    moved (convInfo src loc) (src = .ia64 ∨ src = .x86_64) loc.wordSize
        (inOrder src (intBytes src.wordSize v)) junk
        = inOrder loc (intBytes loc.wordSize v)
      ↔ (wordFit (kind src) (kind loc)).Holds src.wordSize v (junk.take 4) := by
  rcases wordSize_cases src with h | h <;> rcases wordSize_cases loc with h' | h' <;>
    rw [h] at hs hjunk ⊢ <;> rw [h'] at hl ⊢
  · exact moved_44 h h' v junk
  · exact moved_48 h h' hloc hs (by omega)
  · exact moved_84 h h' hsrc hl junk
  · exact moved_88 h h' hsrc hloc hs junk

theorem convScalarAs_fixed (ldbl : Arch → List UInt8 → List UInt8) (hint : ty.isInteger)
    (hty : ¬ isWord ty) (loc src : Arch) (data : List UInt8) (conv : Conv) :
    convScalarAs ldbl loc src ty data conv =
      if conv.swaps then byteswap data (archTypeInfo src ty).size else data := by
  cases ty <;> first
    | exact absurd rfl hty
    | exact Bool.noConfusion hint
    | (cases conv <;> rfl)

/-- Bytes in two orders are the same when the orders are, or when they are the
same in either. -/
theorem inOrder_swapped (src loc : Arch) (swap : Bool) (bs : List UInt8) :
    (if swap then (inOrder src bs).reverse else inOrder src bs) = inOrder loc bs
      ↔ swap = (bigEndian src != bigEndian loc) ∨ bs.reverse = bs := by
  simp only [inOrder]
  cases swap <;> cases bigEndian src <;> cases bigEndian loc <;> simp [eq_comm]

/-- A value of an integer type arrives when its condition holds. -/
theorem take_convScalarAs_iff (ldbl : Arch → List UInt8 → List UInt8) (hsrc : src ≠ .noArch)
    (hloc : loc ≠ .noArch) (hint : ty.isInteger) (hs : Representable src ty v)
    (hl : Representable loc ty v) (hjunk : 16 ≤ (archTypeInfo src ty).size + junk.length) :
    (convScalarAs ldbl loc src ty (encode src ty v ++ junk) (convInfo src loc)).take
        (archTypeInfo loc ty).size = encode loc ty v
      ↔ (fit src loc ty).Holds (archTypeInfo src ty).size v (junk.take 4) := by
  have hlen := length_encode src ty v
  by_cases hty : isWord ty
  · have hs' := hs.inBytes
    have hl' := hl.inBytes
    simp only [fit, if_pos hty, encode, size_of_isWord hty] at hs' hl' hlen hjunk ⊢
    rw [take_convScalarAs ldbl hty hlen (by rw [hlen]; exact hjunk)]
    exact moved_iff hsrc hloc hs' hl' hjunk
  · have hsize := size_of_not_isWord hint hty loc src
    have hmoved : (convScalarAs ldbl loc src ty (encode src ty v ++ junk) (convInfo src loc)).take
        (archTypeInfo src ty).size
          = if (convInfo src loc).swaps then (encode src ty v).reverse else encode src ty v := by
      rw [convScalarAs_fixed ldbl hint hty]
      split
      · rw [← hlen, byteswap_append, List.take_left' List.length_reverse]
      · rw [List.take_left' hlen]
    rw [hsize, hmoved, encode, encode, hsize, inOrder_swapped, fit, if_neg hty]
    split
    · simpa [Fit.Holds] using Or.inl ‹_›
    · simp only [Fit.Holds, or_iff_right ‹_›]

/-! ## Arrays -/

/-- What is behind the next element when `v` was converted: the four bytes
that were behind `v`, unless the whole eight were swapped. -/
def behindNext (src loc : Arch) (ty : BaseType) (v : Int) (behind : List UInt8) : List UInt8 :=
  if isWord ty ∧ kind src = .be32 ∧ kind loc = .armBe then intBytes 4 v else behind

/-- The condition of every element holds, with what is behind it. -/
def ArrayFits (src loc : Arch) (ty : BaseType) : List Int → List UInt8 → Prop
  | [], _ => True
  | v :: vs, behind =>
    (fit src loc ty).Holds (archTypeInfo src ty).size v behind
      ∧ ArrayFits src loc ty vs (behindNext src loc ty v behind)

def Fit.looksBehind : Fit → Bool
  | .already | .palindromeFilled | .blankFilled => true
  | _ => false

theorem Fit.holds_congr {f : Fit} {as : List UInt8} (h : f.looksBehind → as = bs) (w : Nat)
    (v : Int) : f.Holds w v as ↔ f.Holds w v bs := by
  cases f <;> first | rfl | rw [h rfl]

theorem length_convScalarAs (ldbl : Arch → List UInt8 → List UInt8) (hint : ty.isInteger)
    (hdata : 16 ≤ data.length) (conv : Conv) :
    (convScalarAs ldbl loc src ty data conv).length = data.length := by
  have hsrc := wordSize_cases src
  have hloc := wordSize_cases loc
  have hswap : ∀ n ≤ 16, (byteswap data n).length = data.length := by
    intro n hn
    rw [byteswap_eq (by omega)]
    simp
    omega
  by_cases hty : isWord ty
  · have hclear : (overlay data 0 (List.replicate src.wordSize 0)).length = data.length :=
      overlay_length (by simp; omega)
    rw [convScalarAs_word ldbl hty]
    cases conv with
    | noConv => rfl
    | bs3232 | bs6464 => exact hswap _ (by omega)
    | bs3264 | bs6432 =>
      dsimp only
      split <;> rw [overlay_length (by rw [hclear, List.length_take]; omega), hclear]
    | le3264 | le6432 | be3264 | be6432 =>
      dsimp only
      rw [overlay_length (by rw [hclear, List.length_take]; omega), hclear]
  · rw [convScalarAs_fixed ldbl hint hty]
    split
    · exact hswap _ ((size_le hint src).trans (by decide))
    · rfl

/-- The second four bytes of the buffer after a word of four bytes. -/
theorem behind_convScalarAs (ldbl : Arch → List UInt8 → List UInt8) (hty : isWord ty)
    (hs : src.wordSize = 4) (hl : loc.wordSize = 8) (he : e.length = 4) (hjunk : 12 ≤ junk.length)
    {conv : Conv} (hconv : conv = .noConv ∨ conv = .be3264 ∨ conv = .bs3232) :
    ((convScalarAs ldbl loc src ty (e ++ junk) conv).drop 4).take 4
      = if conv = .bs3232 then e.reverse else junk.take 4 := by
  rw [convScalarAs_word ldbl hty, hs, hl]
  rcases hconv with rfl | rfl | rfl
  · rw [if_neg (by decide), ← he, List.drop_left' rfl]
  · have hclear : overlay (e ++ junk) 0 (List.replicate 4 0) = List.replicate 4 0 ++ junk :=
      overlay_zero_append (by simp [he]) junk
    have hkept : ((List.replicate 4 0 ++ junk).take 8) = List.replicate 4 0 ++ junk.take 4 := by
      rw [List.take_append]
      simp
    dsimp only
    rw [if_neg (by decide), hclear, overlay, hkept, List.append_assoc, List.append_assoc,
      List.drop_left' (by simp), List.take_left' (by rw [List.length_take]; omega)]
  · have hfour : (e ++ junk).take 8 = e ++ junk.take 4 := by
      rw [List.take_append, he, List.take_of_length_le (by omega)]
    dsimp only
    rw [if_pos rfl, byteswap_eq (by rw [List.length_append]; omega), hfour, List.reverse_append,
      List.append_assoc, List.drop_left' (by rw [List.length_reverse, List.length_take]; omega),
      List.take_left' (by rw [List.length_reverse, he])]

/-- When an element arrives that was looked behind, it leaves behind it what is
expected. -/
theorem behind_of_holds (ldbl : Arch → List UInt8 → List UInt8)
    (hlooks : (fit src loc ty).looksBehind) (hjunk : 16 ≤ (archTypeInfo src ty).size + junk.length)
    (hs : Representable src ty v)
    (hholds : (fit src loc ty).Holds (archTypeInfo src ty).size v (junk.take 4)) :
    ((convScalarAs ldbl loc src ty (encode src ty v ++ junk) (convInfo src loc)).drop
        (archTypeInfo src ty).size).take 4
      = behindNext src loc ty v (junk.take 4) := by
  have hv := hs.inBytes
  by_cases hty : isWord ty
  · have hlen := length_encode src ty v
    simp only [fit, size_of_isWord hty, behindNext, hty, true_and, encode, if_true]
      at hlooks hjunk hv hholds hlen ⊢
    have hshort : src.wordSize = 4 ∧ loc.wordSize = 8 ∧ (convInfo src loc = .noConv
        ∨ convInfo src loc = .be3264 ∨ convInfo src loc = .bs3232) := by
      revert hlooks
      cases src <;> cases loc <;> decide
    obtain ⟨hs4, hl8, hconv⟩ := hshort
    rw [hs4] at hv hholds hlen hjunk ⊢
    rw [behind_convScalarAs ldbl hty hs4 hl8 hlen (by omega) hconv]
    split
    · -- all eight bytes are swapped
      have hblank := intBytes_eq_fill_iff hv
      clear hlen hs hjunk
      revert hholds
      cases src <;> cases loc <;>
        first | exact absurd ‹_› (by decide) | exact absurd hlooks (by decide) | skip
      · rintro ⟨hone, hjunk⟩
        show (intBytes 4 v).reverse = _
        rw [hblank.mpr hone, hjunk]
        rfl
      · exact fun _ => List.reverse_reverse _
      · exact fun _ => List.reverse_reverse _
    · rw [if_neg]
      revert hlooks
      rename_i hne
      revert hne
      cases src <;> cases loc <;> decide
  · rw [fit, if_neg hty] at hlooks
    split at hlooks <;> exact Bool.noConfusion hlooks

/-- The loop over the elements: every element arrives when its condition holds,
with what the elements before it have left in the buffer. -/
theorem convArrayLoop_iff (ldbl : Arch → List UInt8 → List UInt8) (hsrc : src ≠ .noArch)
    (hloc : loc ≠ .noArch) (hint : ty.isInteger) (rest : List UInt8) (vs : List Int)
    (buf behind : List UInt8) (hbuf : 16 ≤ buf.length)
    (hvs : ∀ v ∈ vs, Representable src ty v ∧ Representable loc ty v)
    (hbehind : (fit src loc ty).looksBehind →
      (buf.drop (archTypeInfo src ty).size).take 4 = behind) :
    convArrayLoop ldbl loc src ty (convInfo src loc) (archTypeInfo src ty).size vs.length buf
        (vs.flatMap (encode src ty) ++ rest)
        = vs.flatMap (encode loc ty)
      ↔ ArrayFits src loc ty vs behind := by
  induction vs generalizing buf behind with
  | nil => exact ⟨fun _ => trivial, fun _ => rfl⟩
  | cons v vs ih =>
    obtain ⟨hs, hl⟩ := hvs v List.mem_cons_self
    have hlen := length_encode src ty v
    have hshort := size_le hint src
    -- the element over the front of the buffer
    have hdata : (encode src ty v ++ (vs.flatMap (encode src ty) ++ rest)).take
        (archTypeInfo src ty).size = encode src ty v := List.take_left' hlen
    have hrest : (encode src ty v ++ (vs.flatMap (encode src ty) ++ rest)).drop
        (archTypeInfo src ty).size = vs.flatMap (encode src ty) ++ rest := List.drop_left' hlen
    have hover : overlay buf 0 (encode src ty v)
        = encode src ty v ++ buf.drop (archTypeInfo src ty).size := by
      rw [overlay, hlen, List.take_zero, List.nil_append, Nat.zero_add]
    have hjunk : 16 ≤ (archTypeInfo src ty).size
        + (buf.drop (archTypeInfo src ty).size).length := by
      rw [List.length_drop]
      omega
    have hfirst := take_convScalarAs_iff ldbl hsrc hloc hint hs hl hjunk
    rw [Fit.holds_congr hbehind] at hfirst
    have hbuf' : 16 ≤ (convScalarAs ldbl loc src ty
        (encode src ty v ++ buf.drop (archTypeInfo src ty).size) (convInfo src loc)).length := by
      rw [length_convScalarAs ldbl hint (by rw [List.length_append, hlen]; exact hjunk),
        List.length_append, hlen]
      exact hjunk
    have hnext (hholds : (fit src loc ty).Holds (archTypeInfo src ty).size v behind) :=
      ih _ (behindNext src loc ty v behind) hbuf'
        (fun u hu => hvs u (List.mem_cons_of_mem _ hu)) fun hlooks => by
          rw [behind_of_holds ldbl hlooks hjunk hs ((Fit.holds_congr hbehind _ _).mpr hholds),
            hbehind hlooks]
    simp only [List.flatMap_cons, List.length_cons, List.append_assoc, convArrayLoop, hdata,
      hrest, hover, ArrayFits]
    constructor
    · intro heq
      obtain ⟨hhead, htail⟩ := List.append_inj heq (by
        rw [length_encode, List.length_take]
        exact Nat.min_eq_left ((size_le hint loc).trans ((by decide : 8 ≤ 16).trans hbuf')))
      have hholds := hfirst.mp hhead
      exact ⟨hholds, (hnext hholds).mp htail⟩
    · rintro ⟨hholds, hall⟩
      rw [hfirst.mpr hholds, (hnext hholds).mpr hall]

/-! ## The two conversions -/

theorem evlConvScalar_eq (ldbl : Arch → List UInt8 → List UInt8) (hsrc : src ≠ .noArch) (loc : Arch)
    (ty : BaseType) (data : List UInt8) :
    evlConvScalar ldbl loc src ty data
      = convScalarAs ldbl loc src ty data (convInfo src loc) := by
  cases src <;> first | exact absurd rfl hsrc | rfl

theorem evlConvScalarArray_eq (ldbl : Arch → List UInt8 → List UInt8) (hsrc : src ≠ .noArch)
    (loc : Arch) (ty : BaseType) (buf data : List UInt8) (nel elSize : Nat) :
    evlConvScalarArray ldbl loc src ty buf data nel elSize
      = convArrayLoop ldbl loc src ty (convInfo src loc) elSize nel buf data := by
  cases src <;> first | exact absurd rfl hsrc | rfl

/-- A converted integer is the one that was logged exactly when the condition of
the two architectures holds of it, and so are the elements of an array. -/
theorem evlConvScalar_preserves_iff (ldbl : Arch → List UInt8 → List UInt8) {src loc : Arch}
    (hsrc : src ≠ .noArch) (hloc : loc ≠ .noArch) {ty : BaseType} (hint : ty.isInteger) :
    (∀ (v : Int) (junk : List UInt8), Representable src ty v → Representable loc ty v →
      16 ≤ (archTypeInfo src ty).size + junk.length →
      ((evlConvScalar ldbl loc src ty (encode src ty v ++ junk)).take (archTypeInfo loc ty).size
          = encode loc ty v
        ↔ (fit src loc ty).Holds (archTypeInfo src ty).size v (junk.take 4)))
    ∧ ∀ (vs : List Int) (buf rest : List UInt8),
      (∀ v ∈ vs, Representable src ty v ∧ Representable loc ty v) → 16 ≤ buf.length →
      (evlConvScalarArray ldbl loc src ty buf (vs.flatMap (encode src ty) ++ rest) vs.length
            (archTypeInfo src ty).size
          = vs.flatMap (encode loc ty)
        ↔ ArrayFits src loc ty vs ((buf.drop (archTypeInfo src ty).size).take 4)) := by
  constructor
  · intro v junk hs hl hjunk
    rw [evlConvScalar_eq ldbl hsrc]
    exact take_convScalarAs_iff ldbl hsrc hloc hint hs hl hjunk
  · intro vs buf rest hvs hbuf
    rw [evlConvScalarArray_eq ldbl hsrc]
    exact convArrayLoop_iff ldbl hsrc hloc hint rest vs buf _ hbuf hvs fun _ => rfl

/-- A positive `long` of an i386 arrives on an x86_64. -/
theorem evlConvScalar_preserves_five : (evlConvScalar (fun _ bs => bs) .x86_64 .i386 .long
        (encode .i386 .long 5 ++ List.replicate 28 0)).take 8 = encode .x86_64 .long 5
      ∧ evlConvScalarArray (fun _ bs => bs) .x86_64 .i386 .long (List.replicate 16 0)
          ([5, 7].flatMap (encode .i386 .long)) 2 4 = [5, 7].flatMap (encode .x86_64 .long) := by
  obtain ⟨hscalar, harray⟩ := @evlConvScalar_preserves_iff (fun _ bs => bs) .i386 .x86_64
    (by decide) (by decide) .long rfl
  constructor
  · refine (hscalar 5 (List.replicate 28 0) ?_ ?_ (by decide)).mpr (by decide : (0 : Int) ≤ 5)
    · simp [Representable, archTypeInfo, Arch.wordSize, BaseType.isSigned, mayBeUnsigned]
    · simp [Representable, archTypeInfo, Arch.wordSize, BaseType.isSigned, mayBeUnsigned]
  · have h := (harray [5, 7] (List.replicate 16 0) [] ?_ (by decide)).mpr ?_
    · rwa [List.append_nil] at h
    · simp [Representable, archTypeInfo, Arch.wordSize, BaseType.isSigned, mayBeUnsigned]
    · exact ⟨(by decide : (0 : Int) ≤ 5), (by decide : (0 : Int) ≤ 7), trivial⟩

/-- The `long` `-1` of an i386 is `4294967295` on an x86_64. -/
theorem evlConvScalar_not_negative :
    (Representable .i386 .long (-1) ∧ Representable .x86_64 .long (-1))
      ∧ (evlConvScalar (fun _ bs => bs) .x86_64 .i386 .long
          (encode .i386 .long (-1) ++ List.replicate 28 0)).take 8
        = encode .x86_64 .long 4294967295
      ∧ encode .x86_64 .long 4294967295 ≠ encode .x86_64 .long (-1) := by
  refine ⟨⟨?_, ?_⟩, by decide, by decide⟩
  · simp [Representable, archTypeInfo, Arch.wordSize, BaseType.isSigned, mayBeUnsigned]
  · simp [Representable, archTypeInfo, Arch.wordSize, BaseType.isSigned, mayBeUnsigned]

/-- What `Evlog.Template.Types` says of an x86_64 is the column of the table. -/
theorem take_evlConvScalar_x86_64 (ldbl : Arch → List UInt8 → List UInt8) (hint : ty.isInteger)
    (hbs : bs.length = (archTypeInfo src ty).size) (hjunk : 16 ≤ bs.length + junk.length) :
    (evlConvScalar ldbl .x86_64 src ty (bs ++ junk)).take (archTypeInfo .x86_64 ty).size
      = convScalar src ty bs := by
  by_cases hsrc : src = .noArch
  · subst hsrc
    have hnone : convScalar .noArch ty bs = bs := by cases ty <;> rfl
    have hsize : (archTypeInfo .noArch ty).size = (archTypeInfo .x86_64 ty).size := by
      cases ty <;> rfl
    rw [hnone, ← hsize, ← hbs]
    exact List.take_left' rfl
  rw [evlConvScalar_eq ldbl hsrc]
  by_cases hty : isWord ty
  · have hcode : convScalar src ty bs = convLong (Template.convInfo src) bs := by
      cases ty <;> first | rfl | exact Bool.noConfusion hty
    rw [size_of_isWord hty] at hbs ⊢
    rw [take_convScalarAs ldbl hty hbs hjunk, hcode]
    have hword : Arch.wordSize .x86_64 = 8 := rfl
    cases src <;> first | exact absurd rfl hsrc | skip
    all_goals
      have hlen : bs.length = _ := hbs
      simp only [Arch.wordSize] at hlen
      simp [moved, convLong, convInfo, Template.convInfo, hword, hlen, List.take_append]
  · have hswaps : (convInfo src .x86_64).swaps = (Template.convInfo src).swaps := by
      cases src <;> rfl
    have hcode : convScalar src ty bs
        = if (Template.convInfo src).swaps then bs.reverse else bs := by
      cases ty <;> first | rfl | exact absurd rfl hty
    rw [convScalarAs_fixed ldbl hint hty, size_of_not_isWord hint hty .x86_64 src, hcode, hswaps,
      ← hbs]
    split
    · rw [byteswap_append, List.take_left' List.length_reverse]
    · exact List.take_left' rfl

end Evlog.Template.Convert
