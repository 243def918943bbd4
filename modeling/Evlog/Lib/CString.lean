/-
Evlog.Lib.CString — strings as C has them, and the calls that read them.

A `CString` is the bytes before the terminating NUL, so none of them is a
NUL. `strtok`, `strtoul`, `strcmp` and `fgets` are those of the C library,
the first three on strings and the last one on a file of any kind of
element; `decimal` is what `%u` prints.

Three facts carry a proof about a text file of separated fields: a field
that is followed by its separator is the next token
(`strtok_append`), a number that was printed is read back
(`strtoul_printed`), and pieces that each look like a line are the lines
of the file they make up (`fgetsAll_flatten`).
-/
import Mathlib.Tactic
import Mathlib.Data.List.TakeWhile

namespace Evlog.Lib

/-- The bytes of a string, without the NUL that ends it. -/
structure CString where
  bytes : List UInt8
  noNul : 0 ∉ bytes
  deriving DecidableEq, Repr

namespace CString

theorem noNul_nil : (0 : UInt8) ∉ ([] : List UInt8) := List.not_mem_nil

variable {s t : CString}

@[ext] theorem ext (h : s.bytes = t.bytes) : s = t := by
  cases s
  cases t
  simpa using h

def ofBuf (b : List UInt8) : CString :=
  ⟨b.takeWhile (· != 0), fun h => by simpa using List.mem_takeWhile_imp h⟩

def part (s : CString) (l : List UInt8) (h : l ⊆ s.bytes) : CString :=
  ⟨l, fun hnul => s.noNul (h hnul)⟩

/-- `strcat`, where there is room. -/
def append (s t : CString) : CString := ⟨s.bytes ++ t.bytes, by simp [s.noNul, t.noNul]⟩

@[simp] theorem append_bytes (s t : CString) : (s.append t).bytes = s.bytes ++ t.bytes := rfl

theorem ofBuf_bytes (s : CString) : (ofBuf s.bytes).bytes = s.bytes := by
  refine List.takeWhile_eq_self_iff.2 ?_
  intro b hb
  have hb0 : b ≠ 0 := fun h0 => s.noNul (h0 ▸ hb)
  simpa using hb0

/-! ## `strtok` -/

def token (delims l : List UInt8) : List UInt8 := (l.dropWhile (· ∈ delims)).takeWhile (· ∉ delims)

/-- What follows the token, less the separator that ends it. -/
def behind (delims l : List UInt8) : List UInt8 :=
  ((l.dropWhile (· ∈ delims)).dropWhile (· ∉ delims)).tail

theorem token_subset (delims l : List UInt8) : token delims l ⊆ l :=
  ((List.takeWhile_sublist _).trans (List.dropWhile_sublist _)).subset

theorem behind_subset (delims l : List UInt8) : behind delims l ⊆ l :=
  ((List.tail_sublist _).trans ((List.dropWhile_sublist _).trans (List.dropWhile_sublist _))).subset

/-- A call of `strtok`: the token and what the next call goes on with, or
`none` when only separators are left. -/
def strtok (delims : List UInt8) (s : CString) : Option (CString × CString) :=
  if token delims s.bytes = [] then none
  else some (s.part _ (token_subset delims s.bytes), s.part _ (behind_subset delims s.bytes))

section Strtok

variable {delims l : List UInt8} {s tok rest : CString} {d : UInt8}

theorem strtok_of_nil (h : s.bytes = []) : strtok delims s = none := by
  simp [strtok, h, token]

/-- A field is the next token when the string ends with it, or any separator
follows. -/
theorem strtok_append {r : List UInt8} (hne : tok.bytes ≠ []) (htok : ∀ b ∈ tok.bytes, b ∉ delims)
    (hr : ∀ b ∈ r.head?, b ∈ delims) (hs : s.bytes = tok.bytes ++ r) :
    ∃ rest : CString, rest.bytes = r.tail ∧ strtok delims s = some (tok, rest) := by
  obtain ⟨b, l, hb⟩ := List.exists_cons_of_ne_nil hne
  have hbd : b ∉ delims := htok b (by simp [hb])
  have hdrop : s.bytes.dropWhile (· ∈ delims) = tok.bytes ++ r := by
    rw [hs, hb, List.cons_append, List.dropWhile_cons]
    simp [hbd]
  have hall : ∀ b ∈ tok.bytes, decide (b ∉ delims) = true := by simpa using htok
  have htoken : token delims s.bytes = tok.bytes := by
    rw [token, hdrop, List.takeWhile_append_of_pos hall]
    cases r with
    | nil => simp
    | cons d r => simp [hr d rfl]
  have hbehind : behind delims s.bytes = r.tail := by
    rw [behind, hdrop, List.dropWhile_append_of_pos hall]
    cases r with
    | nil => simp
    | cons d r => simp [hr d rfl]
  refine ⟨s.part _ (behind_subset delims s.bytes), hbehind, ?_⟩
  rw [strtok, if_neg (by rw [htoken]; exact hne)]
  simp only [Option.some.injEq, Prod.mk.injEq, and_true]
  exact CString.ext htoken

/-- A token stands behind separators, and one separator behind it is used
up, unless nothing is left. -/
theorem token_behind (delims l : List UInt8) :
    (∃ pre d, d ∈ delims ∧ l = pre ++ token delims l ++ d :: behind delims l) ∨
      behind delims l = [] := by
  cases hrest : (l.dropWhile (· ∈ delims)).dropWhile (· ∉ delims) with
  | nil =>
    right
    rw [behind, hrest, List.tail_nil]
  | cons d r =>
    left
    have hd : d ∈ delims := by
      have hhead := List.head?_dropWhile_not (· ∉ delims) (l.dropWhile (· ∈ delims))
      rw [hrest] at hhead
      simpa using hhead
    refine ⟨l.takeWhile (· ∈ delims), d, hd, ?_⟩
    rw [token, behind, hrest, List.tail_cons, ← hrest, List.append_assoc,
      List.takeWhile_append_dropWhile, List.takeWhile_append_dropWhile]

/-- What a token is: it has bytes and none is a separator; it stands in
the string with a separator behind it, unless the string ends there. -/
theorem strtok_eq_some (h : strtok delims s = some (tok, rest)) :
    tok.bytes ≠ [] ∧ (∀ b ∈ tok.bytes, b ∉ delims) ∧
      ((∃ pre d, d ∈ delims ∧ s.bytes = pre ++ tok.bytes ++ d :: rest.bytes) ∨
        rest.bytes = []) := by
  rw [strtok] at h
  split at h
  · cases h
  rename_i hne
  simp only [Option.some.injEq, Prod.mk.injEq] at h
  obtain ⟨rfl, rfl⟩ := h
  refine ⟨hne, ?_, token_behind delims s.bytes⟩
  intro b hb
  simpa using List.mem_takeWhile_imp hb

theorem strtok_count (h : strtok [d] s = some (tok, rest)) :
    rest.bytes = [] ∨ rest.bytes.count d + 1 ≤ s.bytes.count d := by
  obtain ⟨-, -, ⟨pre, d', hd', hs⟩ | hnil⟩ := strtok_eq_some h
  · right
    rw [List.mem_singleton.1 hd'] at hs
    rw [hs]
    simp only [List.count_append, List.count_cons_self]
    omega
  · exact .inl hnil

def tokensLoop (delims : List UInt8) : Nat → CString → List CString
  | 0, _ => []
  | n + 1, s =>
    match strtok delims s with
    | none => []
    | some (tok, rest) => tok :: tokensLoop delims n rest

/-- All the tokens of a string: `strtok` until it returns NULL. -/
def tokens (delims : List UInt8) (s : CString) : List CString := tokensLoop delims s.bytes.length s

end Strtok

/-! ## `%u` and `strtoul` -/

/-- What `%u` prints. -/
def decimal (n : Nat) : List UInt8 := (Nat.toDigits 10 n).map fun c => c.toNat.toUInt8

def isDigit (b : UInt8) : Bool := 48 ≤ b && b ≤ 57

def isSpace (b : UInt8) : Bool := b == 32 || (9 ≤ b && b ≤ 13)

/-- The value of a row of digits that follows one of value `n`. -/
def digitsValue (n : Nat) (ds : List UInt8) : Nat := ds.foldl (fun n d => 10 * n + (d.toNat - 48)) n

/-- `strtoul(s, &end, 10)`, with `none` when `end` comes back as `s`: there
is no digit where a number should start. -/
def strtoul (s : CString) : Option UInt64 :=
  let t := s.bytes.dropWhile isSpace
  let negative := t.head? = some 45
  let ds := (if negative ∨ t.head? = some 43 then t.tail else t).takeWhile isDigit
  if ds = [] then none
  else if digitsValue 0 ds < 2 ^ 64 then
    some (if negative then -UInt64.ofNat (digitsValue 0 ds) else .ofNat (digitsValue 0 ds))
  else some (.ofNat (2 ^ 64 - 1))

theorem digitsValue_append (n : Nat) (ds es : List UInt8) :
    digitsValue n (ds ++ es) = digitsValue (digitsValue n ds) es := by
  simp [digitsValue]

variable {n : Nat}

theorem decimal_of_lt (h : n < 10) : decimal n = [48 + n.toUInt8] := by
  rw [decimal, Nat.toDigits_of_lt_base h]
  interval_cases n <;> decide

theorem decimal_of_le (h : 10 ≤ n) : decimal n = decimal (n / 10) ++ [48 + (n % 10).toUInt8] := by
  have hlast := decimal_of_lt (Nat.mod_lt n (by decide : 0 < 10))
  rw [decimal, Nat.toDigits_of_lt_base (Nat.mod_lt n (by decide))] at hlast
  rw [decimal, Nat.toDigits_of_base_le (by decide) h, List.map_append, ← hlast]
  rfl

theorem decimal_ne_nil (n : Nat) : decimal n ≠ [] := by
  simp [decimal, Nat.toDigits_ne_nil]

theorem isDigit_of_mem_decimal {b : UInt8} (hb : b ∈ decimal n) : isDigit b = true := by
  induction n using Nat.strong_induction_on with
  | _ n ih =>
    by_cases hn : n < 10
    · rw [decimal_of_lt hn, List.mem_singleton] at hb
      subst hb
      interval_cases n <;> decide
    · rw [decimal_of_le (by omega), List.mem_append, List.mem_singleton] at hb
      rcases hb with hb | rfl
      · exact ih (n / 10) (by omega) hb
      · have hlt := Nat.mod_lt n (by decide : 0 < 10)
        generalize n % 10 = m at hlt
        interval_cases m <;> decide

theorem digitsValue_decimal (n : Nat) : digitsValue 0 (decimal n) = n := by
  induction n using Nat.strong_induction_on with
  | _ n ih =>
    have hdigit : ∀ m < 10, (48 + m.toUInt8).toNat - 48 = m := by decide
    by_cases hn : n < 10
    · rw [decimal_of_lt hn]
      simp only [digitsValue, List.foldl_cons, List.foldl_nil]
      rw [hdigit n hn]
      omega
    · rw [decimal_of_le (by omega), digitsValue_append, ih (n / 10) (by omega)]
      simp only [digitsValue, List.foldl_cons, List.foldl_nil]
      rw [hdigit (n % 10) (Nat.mod_lt n (by decide))]
      omega

theorem plain_of_isDigit {b : UInt8} (h : isDigit b = true) :
    isSpace b = false ∧ b ≠ 45 ∧ b ≠ 43 := by
  simp only [isDigit, isSpace, Bool.and_eq_true, decide_eq_true_eq, UInt8.le_iff_toNat_le] at *
  refine ⟨?_, ?_, ?_⟩
  · simp [← UInt8.toNat_inj] at *
    omega
  · rintro rfl
    simp at h
  · rintro rfl
    simp at h

theorem take_decimal {k : Nat} (hk : 0 < k) (h : k < (decimal n).length) :
    ∃ m, (decimal n).take k = decimal m ∧ m < n := by
  induction n using Nat.strong_induction_on with
  | _ n ih =>
    by_cases hn : n < 10
    · rw [decimal_of_lt hn, List.length_singleton] at h
      omega
    · have hle : 10 ≤ n := by omega
      rw [decimal_of_le hle, List.length_append, List.length_singleton] at h
      rw [decimal_of_le hle, List.take_append_of_le_length (by omega)]
      rcases Nat.lt_or_ge k (decimal (n / 10)).length with hlt | hge
      · obtain ⟨m, hm, hmn⟩ := ih (n / 10) (by omega) hlt
        exact ⟨m, hm, by omega⟩
      · exact ⟨n / 10, List.take_of_length_le hge, by omega⟩

/-- `%u` as a string. -/
def printed (n : Nat) : CString :=
  ⟨decimal n, fun h => by simpa [isDigit] using isDigit_of_mem_decimal h⟩

theorem strtoul_printed (hn : n < 2 ^ 64) : strtoul (printed n) = some (.ofNat n) := by
  have hall : ∀ b ∈ decimal n, isDigit b = true := fun b hb => isDigit_of_mem_decimal hb
  obtain ⟨b, l, hb⟩ := List.exists_cons_of_ne_nil (decimal_ne_nil n)
  have hdigit : isDigit b = true := hall b (by simp [hb])
  obtain ⟨hspace, hminus, hplus⟩ := plain_of_isDigit hdigit
  have hdrop : (decimal n).dropWhile isSpace = decimal n := by
    rw [hb, List.dropWhile_cons]
    simp [hspace]
  have htake : (decimal n).takeWhile isDigit = decimal n := List.takeWhile_eq_self_iff.2 hall
  have hhead : (decimal n).head? = some b := by rw [hb]; rfl
  simp only [strtoul, printed, hdrop, hhead, Option.some.injEq, hminus, hplus, or_self, if_false,
    htake, decimal_ne_nil, digitsValue_decimal, hn, if_true]

/-! ### `strtol` -/

def isXDigit (b : UInt8) : Bool := isDigit b || (97 ≤ b && b ≤ 102) || (65 ≤ b && b ≤ 70)

def isOctDigit (b : UInt8) : Bool := 48 ≤ b && b ≤ 55

def digitValue (b : UInt8) : Nat :=
  if isDigit b then b.toNat - 48 else if 97 ≤ b then b.toNat - 87 else b.toNat - 55

def rowValue (base : Nat) (ds : List UInt8) : Nat :=
  ds.foldl (fun n d => base * n + digitValue d) 0

/-- The base of a number that is written as in C, and its digits. -/
def literal (l : List UInt8) : Nat × List UInt8 :=
  if (l.take 2 = [48, 120] ∨ l.take 2 = [48, 88]) ∧ (l.drop 2).head?.any isXDigit then
    (16, (l.drop 2).takeWhile isXDigit)
  else if l.head? = some 48 then (8, l.takeWhile isOctDigit)
  else (10, l.takeWhile isDigit)

/-- `strtol(s, &end, 0)` on a string, with `none` when `end` comes back as
`s`. A number that is no `long` becomes the last one that is. -/
def strtol (l : List UInt8) : Option Int :=
  let t := l.dropWhile isSpace
  let negative := t.head? = some 45
  let (base, ds) := literal (if negative ∨ t.head? = some 43 then t.tail else t)
  if ds = [] then none
  else
    let value : Int := if negative then -rowValue base ds else rowValue base ds
    some (max (-2 ^ 63) (min (2 ^ 63 - 1) value))

theorem rowValue_decimal (n : Nat) : rowValue 10 (decimal n) = n := by
  have hrow : ∀ (ds : List UInt8) (m : Nat), (∀ d ∈ ds, isDigit d = true) →
      ds.foldl (fun n d => 10 * n + digitValue d) m = digitsValue m ds := by
    intro ds
    induction ds with
    | nil => exact fun _ _ => rfl
    | cons d ds ih =>
      intro m hds
      have hd : digitValue d = d.toNat - 48 := if_pos (hds d List.mem_cons_self)
      rw [List.foldl_cons, hd, ih _ fun e he => hds e (List.mem_cons_of_mem d he)]
      rfl
  rw [rowValue, hrow _ _ fun d hd => isDigit_of_mem_decimal hd, digitsValue_decimal]

theorem head_decimal (hn : 0 < n) : (decimal n).head? ≠ some 48 := by
  induction n using Nat.strong_induction_on with
  | _ n ih =>
    by_cases hlt : n < 10
    · rw [decimal_of_lt hlt]
      interval_cases n <;> decide
    · rw [decimal_of_le (by omega)]
      obtain ⟨b, l, hb⟩ := List.exists_cons_of_ne_nil (decimal_ne_nil (n / 10))
      have hrest := ih (n / 10) (by omega) (by omega)
      rw [hb] at hrest ⊢
      exact hrest

theorem takeWhile_digits {p : UInt8 → Bool} {ds rest : List UInt8} (hds : ∀ b ∈ ds, p b = true)
    (hrest : ∀ b ∈ rest.head?, p b = false) : (ds ++ rest).takeWhile p = ds := by
  rw [List.takeWhile_append_of_pos hds]
  cases rest with
  | nil => simp
  | cons b rest => simp [hrest b rfl]

/-- How a printed number looks to `strtol`: in base 8 if it is 0. -/
theorem literal_decimal (n : Nat) {rest : List UInt8}
    (hrest : ∀ b ∈ rest.head?, isDigit b = false ∧ b ≠ 120 ∧ b ≠ 88) :
    literal (decimal n ++ rest) = if n = 0 then (8, [48]) else (10, decimal n) := by
  by_cases hn : n = 0
  · subst hn
    have hoct : ∀ b ∈ rest.head?, isOctDigit b = false := by
      intro b hb
      have hdigit := (hrest b hb).1
      simp only [isDigit, isOctDigit, Bool.and_eq_false_iff, decide_eq_false_iff_not,
        UInt8.le_iff_toNat_le] at hdigit ⊢
      simp only [UInt8.reduceToNat] at hdigit ⊢
      omega
    have hhex : ¬ ((([48] ++ rest).take 2 = [48, 120] ∨ ([48] ++ rest).take 2 = [48, 88]) ∧
        (([48] ++ rest).drop 2).head?.any isXDigit) := by
      rintro ⟨hx | hx, -⟩
      · cases rest with
        | nil => simp at hx
        | cons b rest => exact (hrest b rfl).2.1 (by simpa using hx)
      · cases rest with
        | nil => simp at hx
        | cons b rest => exact (hrest b rfl).2.2 (by simpa using hx)
    have hzero : decimal 0 = [48] := rfl
    have hhead : ([48] ++ rest).head? = some 48 := rfl
    rw [hzero, literal, if_neg hhex, if_pos hhead, if_pos rfl, takeWhile_digits (List.forall_mem_singleton.2 rfl) hoct]
  · have hhead := head_decimal (Nat.pos_of_ne_zero hn)
    obtain ⟨b, l, hb⟩ := List.exists_cons_of_ne_nil (decimal_ne_nil n)
    have hb48 : b ≠ 48 := fun h => hhead (by rw [hb, h]; rfl)
    have hdigits := takeWhile_digits (fun d hd => isDigit_of_mem_decimal (n := n) hd)
      fun b hb => (hrest b hb).1
    rw [hb] at hdigits ⊢
    rw [literal, if_neg (by simp [hb48]), if_neg (by simp [hb48]), if_neg hn, hdigits]

def sign : List UInt8 → Bool × List UInt8
  | 0x2d :: l => (true, l)
  | 0x2b :: l => (false, l)
  | l => (false, l)

theorem sign_of_plain {b : UInt8} (hminus : b ≠ 0x2d) (hplus : b ≠ 0x2b) (l : List UInt8) :
    sign (b :: l) = (false, b :: l) := by
  unfold sign
  split
  · next heq => exact absurd (List.cons.inj heq).1 hminus
  · next heq => exact absurd (List.cons.inj heq).1 hplus
  · rfl

/-! ## `strcmp` -/

/-- What `strcmp` goes through: the first bytes that differ decide, and the
NUL is less than any other byte. -/
def compareBytes : List UInt8 → List UInt8 → Int
  | [], [] => 0
  | [], b :: _ => -(b.toNat : Int)
  | a :: _, [] => a.toNat
  | a :: as, b :: bs => if a = b then compareBytes as bs else (a.toNat : Int) - b.toNat

def strcmp (s t : CString) : Int := compareBytes s.bytes t.bytes

/-- The bytes as numbers. Strings are in the order of these lists. -/
def codes (s : CString) : List Nat := s.bytes.map UInt8.toNat

theorem compareBytes_neg (l m : List UInt8) : compareBytes m l = -compareBytes l m := by
  induction l generalizing m with
  | nil => cases m <;> simp [compareBytes]
  | cons a as ih =>
    cases m with
    | nil => rfl
    | cons b bs =>
      rw [compareBytes, compareBytes]
      by_cases h : a = b
      · rw [if_pos h, if_pos h.symm, ih]
      · rw [if_neg h, if_neg (Ne.symm h)]
        omega

theorem compareBytes_lt {l m : List UInt8} (hm : 0 ∉ m) :
    compareBytes l m < 0 ↔ l.map UInt8.toNat < m.map UInt8.toNat := by
  induction l generalizing m with
  | nil =>
    cases m with
    | nil => simp [compareBytes]
    | cons b bs =>
      have hb : b.toNat ≠ 0 := by
        intro h0
        have hzero : b = 0 := UInt8.toNat_inj.1 h0
        exact hm (hzero ▸ List.mem_cons_self)
      simp only [compareBytes, List.map_nil, List.map_cons, List.nil_lt_cons, iff_true]
      omega
  | cons a as ih =>
    cases m with
    | nil =>
      simp only [compareBytes, List.map_cons, List.map_nil, List.not_lt_nil, iff_false]
      omega
    | cons b bs =>
      simp only [compareBytes, List.map_cons, List.cons_lt_cons_iff]
      by_cases hab : a = b
      · rw [if_pos hab, ih fun h => hm (List.mem_cons_of_mem _ h), hab]
        simp
      · have hne : a.toNat ≠ b.toNat := fun h => hab (UInt8.toNat_inj.1 h)
        rw [if_neg hab]
        constructor
        · exact fun h => .inl (by omega)
        · rintro (h | ⟨h, -⟩)
          · omega
          · exact absurd h hne

theorem strcmp_pos : 0 < strcmp s t ↔ t.codes < s.codes := by
  rw [codes, codes, ← compareBytes_lt s.noNul, compareBytes_neg s.bytes t.bytes, strcmp]
  omega

theorem strcmp_le : strcmp s t ≤ 0 ↔ s.codes ≤ t.codes := by
  rw [← not_lt, strcmp_pos, not_lt]

theorem strcmp_eq : strcmp s t = 0 ↔ s = t := by
  have hlt : strcmp s t < 0 ↔ s.codes < t.codes := compareBytes_lt t.noNul
  have hpos := strcmp_pos (s := s) (t := t)
  have hinj : s.codes = t.codes ↔ s = t := by
    refine ⟨fun h => ?_, fun h => h ▸ rfl⟩
    exact ext (List.map_injective_iff.2 (fun a b => UInt8.toNat_inj.1) h)
  rw [← hinj]
  constructor
  · intro h
    exact le_antisymm (not_lt.1 fun hl => by have := hpos.2 hl; omega)
      (not_lt.1 fun hl => by have := hlt.2 hl; omega)
  · intro h
    have h1 : ¬strcmp s t < 0 := fun hl => absurd (hlt.1 hl) (h ▸ lt_irrefl _)
    have h2 : ¬0 < strcmp s t := fun hl => absurd (hpos.1 hl) (h ▸ lt_irrefl _)
    omega

end CString

/-! ## `fgets` -/

section Fgets

variable {α : Type} (nl : α → Bool)

/-- `fgets` with room for `n` elements: up to the first newline and with
it, or as much as there is room for. -/
def fgets : Nat → List α → List α × List α
  | 0, l => ([], l)
  | _, [] => ([], [])
  | n + 1, a :: l =>
    if nl a then ([a], l)
    else
      let r := fgets n l
      (a :: r.1, r.2)

/-- One `fgets` after the other, to the end of the file. No call returns
an empty line, so the length of the file bounds their number. -/
def fgetsAll (n : Nat) : Nat → List α → List (List α)
  | 0, _ => []
  | _, [] => []
  | fuel + 1, a :: l =>
    let r := fgets nl n (a :: l)
    r.1 :: fgetsAll n fuel r.2

variable {nl} {n : Nat}

/-- What `fgets` takes for one line: a newline stands at most at its end,
and one that has none fills the buffer. -/
structure LineLike (nl : α → Bool) (n : Nat) (p : List α) : Prop where
  ne_nil : p ≠ []
  inner : ∀ a ∈ p.dropLast, nl a = false
  fits : p.length ≤ n
  ends : p.length = n ∨ ∃ a ∈ p.getLast?, nl a = true

variable {p body l : List α}

theorem fgets_append (hp : LineLike nl n p) (rest : List α) :
    fgets nl n (p ++ rest) = (p, rest) := by
  obtain ⟨hne, hinner, hfits, hends⟩ := hp
  induction p generalizing n with
  | nil => exact absurd rfl hne
  | cons a p ih =>
    obtain ⟨n, rfl⟩ : ∃ m, n = m + 1 := ⟨n - 1, by simp at hfits; omega⟩
    cases p with
    | nil =>
      rcases hends with hlen | ⟨b, hb, hnl⟩
      · obtain rfl : n = 0 := by simpa using hlen.symm
        simp only [List.cons_append, List.nil_append, fgets]
        split <;> rfl
      · obtain rfl : a = b := by simpa using hb
        simp [fgets, hnl]
    | cons b p =>
      have ha : nl a = false := hinner a (by simp)
      have hrest := ih (n := n) (by simp) (fun c hc => hinner c (by simp [hc]))
        (by simpa using hfits) (by simpa using hends)
      simp only [List.cons_append] at hrest
      simp only [List.cons_append, fgets, ha, hrest]
      rfl

theorem fgetsAll_append (hp : LineLike nl n p) (rest : List α) (fuel : Nat) :
    fgetsAll nl n (fuel + 1) (p ++ rest) = p :: fgetsAll nl n fuel rest := by
  obtain ⟨a, l, hal⟩ := List.exists_cons_of_ne_nil hp.ne_nil
  have hget := fgets_append hp rest
  rw [hal, List.cons_append] at hget ⊢
  rw [fgetsAll, hget]

variable {ps : List (List α)} {fuel : Nat}

/-- Pieces that look like lines are the lines of the file. -/
theorem fgetsAll_flatten (hps : ∀ p ∈ ps, LineLike nl n p) (hfuel : ps.flatten.length ≤ fuel) :
    fgetsAll nl n fuel ps.flatten = ps := by
  induction ps generalizing fuel with
  | nil => cases fuel <;> simp [fgetsAll]
  | cons p ps ih =>
    have hp := hps p (by simp)
    have hpos := List.length_pos_iff.2 hp.ne_nil
    rw [List.flatten_cons, List.length_append] at hfuel
    obtain ⟨fuel, rfl⟩ : ∃ m, fuel = m + 1 := ⟨fuel - 1, by omega⟩
    rw [List.flatten_cons, fgetsAll_append hp,
      ih (fun q hq => hps q (List.mem_cons_of_mem p hq)) (by omega)]

/-- A line of which only as much is kept as the buffer holds. -/
theorem lineLike_take (hbody : ∀ a ∈ body, nl a = false) {c : α} (hc : nl c = true) (hn : 0 < n) :
    LineLike nl n ((body ++ [c]).take n) := by
  rcases Nat.lt_or_ge body.length n with hlt | hge
  · rw [List.take_of_length_le (by simp; omega)]
    refine ⟨by simp, by simpa using hbody, by simp; omega, .inr ⟨c, by simp, hc⟩⟩
  · rw [List.take_append_of_le_length hge]
    have hlen : (body.take n).length = n := by simp; omega
    refine ⟨?_, ?_, hlen.le, .inl hlen⟩
    · exact List.length_pos_iff.1 (by omega)
    · intro a ha
      exact hbody a (List.mem_of_mem_take (List.mem_of_mem_dropLast ha))

theorem fgets_inner (n : Nat) (l : List α) : ∀ a ∈ (fgets nl n l).1.dropLast, nl a = false := by
  induction n generalizing l with
  | zero => simp [fgets]
  | succ n ih =>
    cases l with
    | nil => simp [fgets]
    | cons b l =>
      intro a ha
      simp only [fgets] at ha
      split at ha
      · simp at ha
      · rename_i hb
        cases hr : (fgets nl n l).1 with
        | nil => simp [hr] at ha
        | cons c r =>
          rw [hr, List.dropLast_cons_cons, List.mem_cons, ← hr] at ha
          rcases ha with rfl | ha
          · simpa using hb
          · exact ih l a ha

theorem fgetsAll_inner (hp : p ∈ fgetsAll nl n fuel l) : ∀ a ∈ p.dropLast, nl a = false := by
  induction fuel generalizing l with
  | zero => simp [fgetsAll] at hp
  | succ fuel ih =>
    cases l with
    | nil => simp [fgetsAll] at hp
    | cons a l =>
      simp only [fgetsAll, List.mem_cons] at hp
      rcases hp with rfl | hp
      · exact fgets_inner n (a :: l)
      · exact ih hp

theorem fgets_append_eq (n : Nat) (l : List α) : (fgets nl n l).1 ++ (fgets nl n l).2 = l := by
  induction n generalizing l with
  | zero => simp [fgets]
  | succ n ih =>
    cases l with
    | nil => simp [fgets]
    | cons a l =>
      rw [fgets]
      split
      · rfl
      · rw [List.cons_append, ih]

theorem fgets_length_le (n : Nat) (l : List α) : (fgets nl n l).1.length ≤ n := by
  induction n generalizing l with
  | zero => simp [fgets]
  | succ n ih =>
    cases l with
    | nil => simp [fgets]
    | cons a l =>
      rw [fgets]
      split
      · simp
      · simpa using ih l

/-- Where something is left of the file, the line came to its end. -/
theorem fgets_ends (h : (fgets nl n l).2 ≠ []) :
    (fgets nl n l).1.length = n ∨ ∃ a ∈ (fgets nl n l).1.getLast?, nl a = true := by
  induction n generalizing l with
  | zero => exact .inl rfl
  | succ n ih =>
    cases l with
    | nil => exact absurd rfl h
    | cons a l =>
      rw [fgets] at h ⊢
      by_cases ha : nl a = true
      · rw [if_pos ha]
        exact .inr ⟨a, rfl, ha⟩
      · rw [if_neg ha] at h ⊢
        rcases ih h with hlen | ⟨b, hb, hnl⟩
        · exact .inl (congrArg Nat.succ hlen)
        · refine .inr ⟨b, ?_, hnl⟩
          have hne : (fgets nl n l).1 ≠ [] := List.ne_nil_of_mem (List.mem_of_getLast? hb)
          rw [List.getLast?_cons_of_ne_nil hne]
          exact hb

inductive FileLines (nl : α → Bool) (n : Nat) : List (List α) → Prop
  | nil : FileLines nl n []
  | last {p : List α} (ne_nil : p ≠ []) (inner : ∀ a ∈ p.dropLast, nl a = false)
      (fits : p.length ≤ n) : FileLines nl n [p]
  | cons {p : List α} {ps : List (List α)} (hp : LineLike nl n p) (hps : FileLines nl n ps) :
      FileLines nl n (p :: ps)

theorem fgetsAll_fileLines (hn : 0 < n) (hfuel : l.length ≤ fuel) :
    FileLines nl n (fgetsAll nl n fuel l) ∧ (fgetsAll nl n fuel l).flatten = l := by
  induction fuel generalizing l with
  | zero =>
    obtain rfl := List.eq_nil_of_length_eq_zero (Nat.le_zero.1 hfuel)
    exact ⟨.nil, rfl⟩
  | succ fuel ih =>
    cases l with
    | nil => exact ⟨.nil, rfl⟩
    | cons a l =>
      have happend := @fgets_append_eq _ nl n (a :: l)
      have hne : (fgets nl n (a :: l)).1 ≠ [] := by
        obtain ⟨m, rfl⟩ : ∃ m, n = m + 1 := ⟨n - 1, by omega⟩
        rw [fgets]
        split
        · simp
        · simp
      have hlen := congrArg List.length happend
      rw [List.length_append, List.length_cons] at hlen
      have hpos := List.length_pos_iff.2 hne
      rw [List.length_cons] at hfuel
      obtain ⟨hlines, hflatten⟩ := ih (l := (fgets nl n (a :: l)).2) (by omega)
      rw [fgetsAll, List.flatten_cons, hflatten]
      refine ⟨?_, happend⟩
      by_cases hrest : (fgets nl n (a :: l)).2 = []
      · rw [hrest]
        have hnil : fgetsAll nl n fuel ([] : List α) = [] := by cases fuel <;> rfl
        rw [hnil]
        exact .last hne (fgets_inner n _) (fgets_length_le n _)
      · exact .cons ⟨hne, fgets_inner n _, fgets_length_le n _, fgets_ends hrest⟩ hlines

/-- What has no newline but at its end is read in one go. -/
theorem fgets_self (hinner : ∀ a ∈ p.dropLast, nl a = false) (hfits : p.length ≤ n) :
    fgets nl n p = (p, []) := by
  induction n generalizing p with
  | zero =>
    obtain rfl := List.eq_nil_of_length_eq_zero (Nat.le_zero.1 hfits)
    rfl
  | succ n ih =>
    cases p with
    | nil => rfl
    | cons a p =>
      rw [fgets]
      cases p with
      | nil =>
        have hnil : fgets nl n ([] : List α) = ([], []) := by cases n <;> rfl
        rw [hnil]
        split
        · rfl
        · rfl
      | cons b p =>
        have ha : ¬ nl a = true := by simp [hinner a (by simp)]
        rw [if_neg ha, ih (fun c hc => hinner c (by simp [hc])) (by simpa using hfits)]

/-- And they are what is read from the file they make up. -/
theorem FileLines.fgetsAll_flatten (h : FileLines nl n ps) (hfuel : ps.flatten.length ≤ fuel) :
    fgetsAll nl n fuel ps.flatten = ps := by
  have hnil : ∀ fuel, fgetsAll nl n fuel ([] : List α) = [] := by
    intro fuel
    cases fuel <;> rfl
  induction h generalizing fuel with
  | nil => exact hnil fuel
  | @last p hne hinner hfits =>
    obtain ⟨a, l, rfl⟩ := List.exists_cons_of_ne_nil hne
    obtain ⟨fuel, rfl⟩ : ∃ m, fuel = m + 1 := ⟨fuel - 1, by simp at hfuel; omega⟩
    rw [List.flatten_singleton, fgetsAll, fgets_self hinner hfits, hnil]
  | @cons p ps hp _ ih =>
    have hpos := List.length_pos_iff.2 hp.ne_nil
    rw [List.flatten_cons, List.length_append] at hfuel
    obtain ⟨fuel, rfl⟩ : ∃ m, fuel = m + 1 := ⟨fuel - 1, by omega⟩
    rw [List.flatten_cons, fgetsAll_append hp, ih (by omega)]

/-- What is read behind a line does not depend on the room for it. -/
theorem fgetsAll_behind (hn : 0 < n) (hbody : ∀ a ∈ body, nl a = false) {c : α} (hc : nl c = true)
    (rest : List α) (hfuel : body.length + 1 + rest.length ≤ fuel) :
    ∃ fuel', rest.length ≤ fuel' ∧
      fgetsAll nl n fuel' rest ⊆ fgetsAll nl n fuel (body ++ c :: rest) := by
  induction h : body.length using Nat.strong_induction_on generalizing body fuel with
  | _ m ih =>
    subst h
    obtain ⟨fuel, rfl⟩ : ∃ k, fuel = k + 1 := ⟨fuel - 1, by omega⟩
    have hline : LineLike nl n ((body ++ [c]).take n) := lineLike_take hbody hc hn
    rcases Nat.lt_or_ge body.length n with hlt | hge
    · rw [List.take_of_length_le (by simp; omega)] at hline
      have hread := fgetsAll_append hline rest fuel
      rw [List.append_assoc, List.singleton_append] at hread
      exact ⟨fuel, by omega, by rw [hread]; exact List.subset_cons_self _ _⟩
    · rw [List.take_append_of_le_length hge] at hline
      have hread := fgetsAll_append hline (body.drop n ++ c :: rest) fuel
      rw [← List.append_assoc, List.take_append_drop] at hread
      have hdrop : (body.drop n).length = body.length - n := List.length_drop
      obtain ⟨fuel', hfuel', hsub⟩ := ih (body.drop n).length (by omega)
        (fun a ha => hbody a (List.mem_of_mem_drop ha)) (show (body.drop n).length + 1 + rest.length ≤ fuel by omega) rfl
      exact ⟨fuel', hfuel', fun p hp => by rw [hread]; exact List.mem_cons_of_mem _ (hsub hp)⟩

/-- A line that there is room for is read as it is, whatever becomes of the
others. -/
theorem FileLines.mem_fgetsAll {m : Nat} (h : FileLines nl m ps) (hm : ps.flatten.length < m)
    (hn : 0 < n) (hp : p ∈ ps) (hfits : p.length ≤ n) (hfuel : ps.flatten.length ≤ fuel) :
    p ∈ fgetsAll nl n fuel ps.flatten := by
  induction h generalizing fuel with
  | nil => cases hp
  | @last q hne hinner _ =>
    obtain rfl := List.mem_singleton.1 hp
    have hlast : FileLines nl n [p] := .last hne hinner hfits
    rw [hlast.fgetsAll_flatten hfuel]
    exact List.mem_singleton_self p
  | @cons q qs hq _ ih =>
    rw [List.flatten_cons, List.length_append] at hm hfuel
    rw [List.flatten_cons]
    obtain hlen | ⟨c, hlast, hc⟩ := hq.ends
    · omega
    have hsplit : q = q.dropLast ++ [c] := (List.dropLast_append_getLast? c hlast).symm
    rcases List.mem_cons.1 hp with rfl | hmem
    · obtain ⟨fuel, rfl⟩ : ∃ k, fuel = k + 1 :=
        ⟨fuel - 1, by have := List.length_pos_iff.2 hq.ne_nil; omega⟩
      have hline : LineLike nl n p := ⟨hq.ne_nil, hq.inner, hfits, .inr ⟨c, hlast, hc⟩⟩
      rw [fgetsAll_append hline]
      exact List.mem_cons_self
    · have hlen := congrArg List.length hsplit
      rw [List.length_append, List.length_singleton] at hlen
      obtain ⟨fuel', hfuel', hsub⟩ := fgetsAll_behind hn hq.inner hc qs.flatten
        (show q.dropLast.length + 1 + qs.flatten.length ≤ fuel by omega)
      rw [hsplit, List.append_assoc, List.singleton_append]
      exact hsub (ih (by omega) hmem hfuel')

end Fgets

end Evlog.Lib
