/-
Evlog.Evlogd.KernEvtTheorems — when the addresses of a kernel message are
expanded.

`expandMessage` is what is meant: every address that has a symbol is
replaced as long as the message still fits then. The scanner sees an address
only if it is not in the middle of something that looks like one, and a "["
that breaks that off is not looked at again; it takes "[<>]" for the address
0; it has one estimate for how much longer a message gets, and the same for
every address of it; and it goes on in the next message with what the last
one has begun.

`Clean` and `Met` say what a message must be like for none of that to
matter. Then a call sends what is meant, and `writebuf` is large enough
(`writeKernEvt_good`), and so does a daemon for one message after the other
(`kernel_messages_expanded`).
-/
import Evlog.Lib.CString
import Evlog.Evlogd.Config
import Evlog.Evlogd.KernEvt

namespace Evlog.Evlogd

open Evlog.Lib
open Evlog.Lib.CString (isXDigit rowValue)
open Evlog.Evlogd.Config (ascii)
open Evlog.Posix (PosixLogEntry posixLogString posixLogTruncate posixLogEntryMaxlen)

/-! ## What is meant -/

/-- The digits of the address that the text begins with, "[<", digits, ">]". -/
def addressAt : List UInt8 → Option (List UInt8)
  | 0x5b :: 0x3c :: r =>
    let ds := r.takeWhile isXDigit
    if ds ≠ [] ∧ (r.drop ds.length).take 2 = [0x3e, 0x5d] then some ds else none
  | _ => none

def IsAddress (ds : List UInt8) : Prop := ds ≠ [] ∧ rowValue 16 ds < 2 ^ 64

instance (ds : List UInt8) : Decidable (IsAddress ds) := inferInstanceAs (Decidable (_ ∧ _))

def symbolOf (table : SymbolTable) (ds : List UInt8) : Option Symbol :=
  if IsAddress ds then table (UInt64.ofNat (rowValue 16 ds)) else none

/-- With the symbol for the digits and their brackets a message of the size
still fits. -/
def Fits (size : Nat) (ds : List UInt8) (sym : Symbol) : Prop :=
  size + sym.text.length ≤ posixLogEntryMaxlen + (ds.length + 2)

instance (size : Nat) (ds : List UInt8) (sym : Symbol) : Decidable (Fits size ds sym) :=
  inferInstanceAs (Decidable (_ ≤ _))

def chosen (table : SymbolTable) (size : Nat) (ds : List UInt8) : Option Symbol :=
  (symbolOf table ds).filter fun sym => decide (Fits size ds sym)

/-- What is to be replaced where the text begins, and by what. -/
def replacedAt (table : SymbolTable) (size : Nat) (l : List UInt8) : Option (List UInt8 × Symbol) :=
  (addressAt l).bind fun ds => (chosen table size ds).map fun sym => (ds, sym)

def sizeWith (size : Nat) (ds : List UInt8) (sym : Symbol) : Nat := size + sym.text.length - (ds.length + 2)

/-- The rest of a message that has the size so far. The first `skip`
characters are those of an address that was replaced. -/
def expand (table : SymbolTable) : Nat → Nat → List UInt8 → List UInt8
  | _, _, [] => []
  | skip + 1, size, _ :: r => expand table skip size r
  | 0, size, c :: r =>
    match replacedAt table size (c :: r) with
    | some (ds, sym) => 0x5b :: sym.text ++ 0x5d :: expand table (ds.length + 3) (sizeWith size ds sym) r
    | none => c :: expand table 0 size r

def expandMessage (table : SymbolTable) (m : List UInt8) : List UInt8 := expand table 0 (m.length + 1) m

/-! ## What is begun -/

/-- What the scanner is in the middle of: "[", "[<" and digits, or ">" behind
them. -/
inductive Begun where
  | bracket
  | digits (ds : List UInt8)
  | closed (ds : List UInt8)
  deriving DecidableEq

namespace Begun

def state : Begun → ParseState
  | bracket => .symstart
  | digits _ => .symbol
  | closed _ => .symend

def text : Begun → List UInt8
  | bracket => [0x5b]
  | digits ds => 0x5b :: 0x3c :: ds
  | closed ds => 0x5b :: 0x3c :: (ds ++ [0x3e])

def next : Begun → UInt8 → Option Begun
  | bracket, c => if c = 0x3c then some (digits []) else none
  | digits ds, c =>
    if c = 0x3e then some (closed ds) else if isXDigit c then some (digits (ds ++ [c])) else none
  | closed _, _ => none

def Completes : Begun → UInt8 → Prop
  | closed _, c => c = 0x5d
  | _, _ => False

end Begun

/-! ## The condition -/

def Estimated (logSize : Nat) (sym : Symbol) : Prop :=
  logSize + sym.name.bytes.length + 10 ≤ posixLogEntryMaxlen

instance (logSize : Nat) (sym : Symbol) : Decidable (Estimated logSize sym) := inferInstanceAs (Decidable (_ ≤ _))

/-- It leaves what it takes for the digits of an address. -/
def Leaves (table : SymbolTable) (logSize : Nat) (ds : List UInt8) : Prop :=
  ∀ sym, table (strtoul16 ds) = some sym → ¬ Estimated logSize sym

/-- It is right about the digits: by its estimate the symbol of an address fits
if and only if it does, and what is no address is left. -/
structure Agrees (table : SymbolTable) (logSize size : Nat) (ds : List UInt8) : Prop where
  address : IsAddress ds → ∀ sym, symbolOf table ds = some sym → (Estimated logSize sym ↔ Fits size ds sym)
  other : ¬ IsAddress ds → Leaves table logSize ds

def sizeBehind (table : SymbolTable) (size : Nat) (ds : List UInt8) : Nat :=
  match chosen table size ds with
  | some sym => sizeWith size ds sym
  | none => size

/-- The rest of a message that has the size so far: characters, addresses that
the scanner is right about, and what looks like the beginning of one and is
not. No address that is to be replaced begins where that is broken off. -/
inductive Clean (table : SymbolTable) (logSize : Nat) : Nat → List UInt8 → Prop where
  | nil {size : Nat} : Clean table logSize size []
  | plain {size : Nat} {c : UInt8} {r : List UInt8} (hc : c ≠ 0x5b) (hr : Clean table logSize size r) :
      Clean table logSize size (c :: r)
  | unfinished {size : Nat} {l : List UInt8} {b : Begun} (hl : l.foldlM Begun.next .bracket = some b) :
      Clean table logSize size (0x5b :: l)
  | broken {size : Nat} {l : List UInt8} {b : Begun} {c : UInt8} {r : List UInt8}
      (hl : l.foldlM Begun.next .bracket = some b) (hnext : b.next c = none) (hopen : ¬ b.Completes c)
      (hhidden : replacedAt table size (c :: r) = none) (hr : Clean table logSize size r) :
      Clean table logSize size (0x5b :: (l ++ c :: r))
  | address {size : Nat} {l ds r : List UInt8} (hl : l.foldlM Begun.next .bracket = some (.closed ds))
      (hagrees : Agrees table logSize size ds) (hr : Clean table logSize (sizeBehind table size ds) r) :
      Clean table logSize size (0x5b :: (l ++ 0x5d :: r))

/-- A message for the scanner in a state. If that is in the middle of what an
earlier message has begun, it goes on with it to the end or breaks it off,
and there begins no address that is to be replaced; or of an address only the
"[" was in the earlier message and the scanner leaves it. -/
inductive Met (table : SymbolTable) : ParseState → List UInt8 → Prop where
  | fresh {m : List UInt8} (h : Clean table (m.length + 1) (m.length + 1) m) : Met table .text m
  | goesOn {b b' : Begun} {m : List UInt8} (h : m.foldlM Begun.next b = some b') : Met table b.state m
  | brokenOff {b b' : Begun} {l r : List UInt8} {c : UInt8} (hl : l.foldlM Begun.next b = some b')
      (hnext : b'.next c = none) (hopen : ¬ b'.Completes c)
      (hhidden : replacedAt table ((l ++ c :: r).length + 1) (c :: r) = none)
      (hr : Clean table ((l ++ c :: r).length + 1) ((l ++ c :: r).length + 1) r) : Met table b.state (l ++ c :: r)
  | left {l ds r : List UInt8} (hl : l.foldlM Begun.next .bracket = some (.closed ds))
      (hleaves : Leaves table ((l ++ 0x5d :: r).length + 1) ds)
      (hr : Clean table ((l ++ 0x5d :: r).length + 1) ((l ++ 0x5d :: r).length + 1) r) :
      Met table Begun.bracket.state (l ++ 0x5d :: r)

/-! ## The scanner -/

structure Copied (s s' : Scan) (l : List UInt8) : Prop where
  line : s'.line = s.line ++ l
  high : s'.high ≤ max s.high (s.line.length + l.length)
  expanded : s'.expanded = s.expanded

theorem copied_nil (s : Scan) : Copied s s [] := ⟨(List.append_nil _).symm, le_max_left _ _, rfl⟩

variable {s s' s'' : Scan} {l ds r : List UInt8}

theorem Copied.trans {l' : List UInt8} (h : Copied s s' l) (h' : Copied s' s'' l') :
    Copied s s'' (l ++ l') := by
  constructor
  · rw [h'.line, h.line, List.append_assoc]
  · have hhigh := h.high
    have hhigh' := h'.high
    rw [h.line, List.length_append] at hhigh'
    rw [List.length_append]
    omega
  · rw [h'.expanded, h.expanded]

theorem copied_put (s : Scan) (state : ParseState) (c : UInt8) : Copied s (s.put state c) [c] := ⟨rfl, le_rfl, rfl⟩

/-- The "<" of what is begun is at the offset, or comes there. -/
def Placed (s : Scan) (k : Nat) : Begun → Prop
  | .bracket => s.line.length = k
  | _ => s.symStart = some k

theorem isAddressDigit_eq (c : UInt8) : isAddressDigit c = isXDigit c := by
  rw [Bool.eq_iff_iff]
  simp only [isAddressDigit, isXDigit, CString.isDigit, Bool.not_eq_true', Bool.or_eq_true, Bool.and_eq_true,
    Bool.or_eq_false_iff, Bool.and_eq_false_iff, decide_eq_true_eq, decide_eq_false_iff_not,
    UInt8.le_iff_toNat_le, UInt8.lt_iff_toNat_lt, UInt8.reduceToNat]
  omega

theorem xDigit_plain {d : UInt8} (h : isXDigit d = true) :
    CString.isSpace d = false ∧ d ≠ 0x2d ∧ d ≠ 0x2b ∧ d ≠ 0x78 ∧ d ≠ 0x58 := by
  simp only [isXDigit, CString.isDigit, Bool.or_eq_true, Bool.and_eq_true, decide_eq_true_eq,
    UInt8.le_iff_toNat_le, UInt8.reduceToNat] at h
  refine ⟨?_, ?_, ?_, ?_, ?_⟩
  · simp only [CString.isSpace, Bool.or_eq_false_iff, Bool.and_eq_false_iff, beq_eq_false_iff_ne, ne_eq,
      decide_eq_false_iff_not, UInt8.le_iff_toNat_le, UInt8.ext_iff, UInt8.reduceToNat]
    omega
  all_goals
    rintro rfl
    simp at h

section

variable {table : SymbolTable} {logSize : Nat}

theorem step_next {s : Scan} {b b' : Begun} {c : UInt8} (hs : s.state = b.state) (h : b.next c = some b') :
    ∃ s', s.step table logSize c = some s' ∧ s'.state = b'.state ∧ Copied s s' [c] ∧
      ∀ k, Placed s k b → Placed s' k b' := by
  cases b with
  | bracket =>
    rw [Begun.next] at h
    split_ifs at h with hc
    cases h
    refine ⟨({ s with symStart := some s.line.length } : Scan).put .symbol c, ?_, rfl, ⟨rfl, le_rfl, rfl⟩, ?_⟩
    · rw [Scan.step, hs]
      exact if_pos hc
    · intro k hk
      exact congrArg some hk
  | digits ds =>
    rw [Begun.next] at h
    split_ifs at h with hc hx
    · cases h
      refine ⟨s.put .symend c, ?_, rfl, copied_put s _ c, fun k hk => hk⟩
      rw [Scan.step, hs]
      exact if_pos hc
    · cases h
      refine ⟨s.put .symbol c, ?_, rfl, copied_put s _ c, fun k hk => hk⟩
      rw [Scan.step, hs]
      change (if c = 0x3e then _ else if isAddressDigit c = false then _ else _) = _
      rw [if_neg hc, isAddressDigit_eq, hx, if_neg (by decide)]
  | closed ds => cases h

theorem step_broken {s : Scan} {b : Begun} {c : UInt8} (hs : s.state = b.state) (h : b.next c = none)
    (hopen : ¬ b.Completes c) :
    ∃ s', s.step table logSize c = some s' ∧ s'.state = .text ∧ Copied s s' [c] := by
  refine ⟨s.put .text c, ?_, rfl, copied_put s _ c⟩
  rw [Scan.step, hs]
  cases b with
  | bracket =>
    rw [Begun.next] at h
    split_ifs at h with hc
    exact if_neg hc
  | digits ds =>
    rw [Begun.next] at h
    split_ifs at h with hc hx
    change (if c = 0x3e then _ else if isAddressDigit c = false then _ else _) = _
    rw [if_neg hc, isAddressDigit_eq, if_pos (Bool.not_eq_true _ ▸ hx)]
  | closed ds => exact if_pos hopen

theorem run_next {l : List UInt8} {s : Scan} {b b' : Begun} (hs : s.state = b.state)
    (h : l.foldlM Begun.next b = some b') :
    ∃ s', l.foldlM (Scan.step table logSize) s = some s' ∧ s'.state = b'.state ∧ Copied s s' l ∧
      ∀ k, Placed s k b → Placed s' k b' := by
  induction l generalizing s b with
  | nil =>
    cases h
    exact ⟨s, rfl, hs, copied_nil s, fun k hk => hk⟩
  | cons c l ih =>
    rw [List.foldlM_cons] at h
    obtain ⟨b₁, hnext, hl⟩ := Option.bind_eq_some_iff.1 h
    obtain ⟨s₁, hstep, hs₁, hcopied, hplaced⟩ := step_next hs hnext
    obtain ⟨s', hrun, hs', hcopied', hplaced'⟩ := ih hs₁ hl
    refine ⟨s', ?_, hs', hcopied.trans hcopied', fun k hk => hplaced' k (hplaced k hk)⟩
    rw [List.foldlM_cons, hstep]
    exact hrun

theorem step_bracket {s : Scan} (hs : s.state = .text) :
    ∃ s', s.step table logSize 0x5b = some s' ∧ s'.state = Begun.bracket.state ∧ Copied s s' [0x5b] ∧
      Placed s' (s.line.length + 1) .bracket := by
  refine ⟨s.put .symstart 0x5b, ?_, rfl, copied_put s _ _, ?_⟩
  · rw [Scan.step, hs]
    rfl
  · exact List.length_append ..

theorem step_plain {s : Scan} (hs : s.state = .text) {c : UInt8} (hc : c ≠ 0x5b) :
    ∃ s', s.step table logSize c = some s' ∧ s'.state = .text ∧ Copied s s' [c] := by
  refine ⟨s.put .text c, ?_, rfl, copied_put s _ c⟩
  rw [Scan.step, hs]
  change some (s.put (if c = 0x5b then _ else _) c) = _
  rw [if_neg hc]

theorem run_plain {l : List UInt8} {s : Scan} (hs : s.state = .text) (hl : 0x5b ∉ l) :
    ∃ s', l.foldlM (Scan.step table logSize) s = some s' ∧ s'.state = .text ∧ Copied s s' l := by
  induction l generalizing s with
  | nil => exact ⟨s, rfl, hs, copied_nil s⟩
  | cons c l ih =>
    have hc : c ≠ 0x5b := by
      rintro rfl
      exact hl (List.mem_cons_self ..)
    obtain ⟨s₁, hstep, hs₁, hcopied⟩ := @step_plain table logSize s hs c hc
    obtain ⟨s', hrun, hs', hcopied'⟩ := ih hs₁ fun hmem => hl (List.mem_cons_of_mem _ hmem)
    refine ⟨s', ?_, hs', hcopied.trans hcopied'⟩
    rw [List.foldlM_cons, hstep]
    exact hrun

theorem run_begun {l : List UInt8} {s : Scan} {b : Begun} (hs : s.state = .text)
    (h : l.foldlM Begun.next .bracket = some b) :
    ∃ s', (0x5b :: l).foldlM (Scan.step table logSize) s = some s' ∧ s'.state = b.state ∧
      Copied s s' (0x5b :: l) ∧ Placed s' (s.line.length + 1) b := by
  obtain ⟨s₁, hstep, hs₁, hcopied, hplaced⟩ := @step_bracket table logSize s hs
  obtain ⟨s', hrun, hs', hcopied', hplaced'⟩ := @run_next table logSize l s₁ _ _ hs₁ h
  refine ⟨s', ?_, hs', hcopied.trans hcopied', hplaced' _ hplaced⟩
  rw [List.foldlM_cons, hstep]
  exact hrun

end

/-! ## The digits -/

/-- `strtoul` on what are digits only. -/
theorem strtoul16_of_digits (h : ∀ d ∈ ds, isXDigit d = true) :
    strtoul16 ds = if rowValue 16 ds < 2 ^ 64 then UInt64.ofNat (rowValue 16 ds) else 0xffffffffffffffff := by
  have hplain : ∀ d ∈ ds, CString.isSpace d = false ∧ d ≠ 0x2d ∧ d ≠ 0x2b ∧ d ≠ 0x78 ∧ d ≠ 0x58 := by
    intro d hd
    exact xDigit_plain (h d hd)
  have hspace : ds.dropWhile CString.isSpace = ds := by
    cases ds with
    | nil => rfl
    | cons d ds =>
      rw [List.dropWhile_cons, (hplain d (by simp)).1]
      rfl
  have hsign : CString.sign ds = (false, ds) := by
    cases ds with
    | nil => rfl
    | cons d ds =>
      obtain ⟨-, hminus, hplus, -⟩ := hplain d (by simp)
      exact CString.sign_of_plain hminus hplus ds
  have hprefix : ¬ (ds.take 2 = [0x30, 0x78] ∨ ds.take 2 = [0x30, 0x58]) := by
    rintro (hx | hx)
    · have hmem : (0x78 : UInt8) ∈ ds := List.mem_of_mem_take (i := 2) (by simp [hx])
      exact (hplain _ hmem).2.2.2.1 rfl
    · have hmem : (0x58 : UInt8) ∈ ds := List.mem_of_mem_take (i := 2) (by simp [hx])
      exact (hplain _ hmem).2.2.2.2 rfl
  have hdigits : ds.takeWhile isXDigit = ds := List.takeWhile_eq_self_iff.2 h
  simp only [strtoul16, hspace, hsign, hprefix, false_and, if_false, hdigits, Bool.false_eq_true]

namespace Begun

def Proper : Begun → Prop
  | bracket => True
  | digits ds => ∀ d ∈ ds, isXDigit d = true
  | closed ds => ∀ d ∈ ds, isXDigit d = true

variable {b b' : Begun}

theorem next_text {c : UInt8} (h : b.next c = some b') : b'.text = b.text ++ [c] := by
  cases b with
  | bracket =>
    rw [next] at h
    split_ifs at h with hc
    cases h
    rw [hc]
    rfl
  | digits ds =>
    rw [next] at h
    split_ifs at h with hc hx
    · cases h
      rw [hc]
      rfl
    · cases h
      rfl
  | closed ds => cases h

theorem next_proper {c : UInt8} (h : b.next c = some b') (hb : b.Proper) : b'.Proper := by
  cases b with
  | bracket =>
    rw [next] at h
    split_ifs at h
    cases h
    intro d hd
    cases hd
  | digits ds =>
    rw [next] at h
    split_ifs at h with hc hx
    · cases h
      exact hb
    · cases h
      intro d hd
      rcases List.mem_append.1 hd with hd | hd
      · exact hb d hd
      · rw [List.mem_singleton.1 hd, hx]
  | closed ds => cases h

theorem next_bracket (b : Begun) : b.next 0x5b = none := by
  cases b <;> rfl

variable {l : List UInt8}

theorem run_text (h : l.foldlM next b = some b') : b'.text = b.text ++ l := by
  induction l generalizing b with
  | nil =>
    cases h
    exact (List.append_nil _).symm
  | cons c l ih =>
    rw [List.foldlM_cons] at h
    obtain ⟨b₁, hnext, hl⟩ := Option.bind_eq_some_iff.1 h
    rw [ih hl, next_text hnext, List.append_assoc]
    rfl

theorem run_proper (h : l.foldlM next b = some b') (hb : b.Proper) : b'.Proper := by
  induction l generalizing b with
  | nil =>
    cases h
    exact hb
  | cons c l ih =>
    rw [List.foldlM_cons] at h
    obtain ⟨b₁, hnext, hl⟩ := Option.bind_eq_some_iff.1 h
    exact ih hl (next_proper hnext hb)

theorem run_no_bracket (h : l.foldlM next b = some b') : 0x5b ∉ l := by
  induction l generalizing b with
  | nil => exact List.not_mem_nil
  | cons c l ih =>
    rw [List.foldlM_cons] at h
    obtain ⟨b₁, hnext, hl⟩ := Option.bind_eq_some_iff.1 h
    intro hmem
    rcases List.mem_cons.1 hmem with rfl | hmem
    · rw [next_bracket] at hnext
      cases hnext
    · exact ih hl hmem

end Begun

/-! ## The addresses -/

/-- The characters behind some digits, of which the first is no digit. -/
theorem takeWhile_xDigits (hds : ∀ d ∈ ds, isXDigit d = true)
    (hr : ∀ c ∈ r.head?, isXDigit c = false) : (ds ++ r).takeWhile isXDigit = ds := by
  rw [List.takeWhile_append_of_pos hds]
  cases r with
  | nil => rw [List.takeWhile_nil, List.append_nil]
  | cons c r => rw [List.takeWhile_cons_of_neg (by simp [hr c rfl]), List.append_nil]

theorem addressAt_of_ne {c : UInt8} (hc : c ≠ 0x5b) (r : List UInt8) : addressAt (c :: r) = none := by
  rw [addressAt]
  rintro r' heq
  exact hc (List.cons.inj heq).1

theorem addressAt_closed (hds : ∀ d ∈ ds, isXDigit d = true) (r : List UInt8) :
    addressAt ((Begun.closed ds).text ++ 0x5d :: r) = if ds = [] then none else some ds := by
  have htext : (Begun.closed ds).text ++ 0x5d :: r = 0x5b :: 0x3c :: (ds ++ 0x3e :: 0x5d :: r) := by
    simp [Begun.text]
  have hrow : (ds ++ 0x3e :: 0x5d :: r).takeWhile isXDigit = ds := by
    apply takeWhile_xDigits hds
    rintro c hc
    cases hc
    rfl
  rw [htext, addressAt, hrow, List.drop_left]
  by_cases h : ds = [] <;> simp [h]

theorem addressAt_unfinished {b : Begun} (hb : b.Proper) : addressAt b.text = none := by
  cases b with
  | bracket => rfl
  | digits ds =>
    have hrow : ds.takeWhile isXDigit = ds := List.takeWhile_eq_self_iff.2 hb
    rw [Begun.text, addressAt, hrow]
    simp
  | closed ds =>
    have hrow : (ds ++ [0x3e]).takeWhile isXDigit = ds := by
      apply takeWhile_xDigits hb
      rintro c hc
      cases hc
      rfl
    rw [Begun.text, addressAt, hrow, List.drop_left]
    simp

theorem addressAt_broken {b : Begun} (hb : b.Proper) {c : UInt8} (hnext : b.next c = none)
    (hopen : ¬ b.Completes c) (r : List UInt8) : addressAt (b.text ++ c :: r) = none := by
  cases b with
  | bracket =>
    rw [Begun.next] at hnext
    split_ifs at hnext with hc
    rw [Begun.text, List.singleton_append, addressAt]
    rintro r' heq
    exact hc (List.cons.inj (List.cons.inj heq).2).1
  | digits ds =>
    rw [Begun.next] at hnext
    split_ifs at hnext with hc hx
    have hrow : (ds ++ c :: r).takeWhile isXDigit = ds := by
      apply takeWhile_xDigits hb
      rintro c' hc'
      cases hc'
      exact Bool.not_eq_true _ ▸ hx
    have htext : (Begun.digits ds).text ++ c :: r = 0x5b :: 0x3c :: (ds ++ c :: r) := rfl
    rw [htext, addressAt, hrow, List.drop_left]
    simp [hc]
  | closed ds =>
    have hrow : (ds ++ 0x3e :: c :: r).takeWhile isXDigit = ds := by
      apply takeWhile_xDigits hb
      rintro c' hc'
      cases hc'
      rfl
    have htext : (Begun.closed ds).text ++ c :: r = 0x5b :: 0x3c :: (ds ++ 0x3e :: c :: r) := by
      simp [Begun.text]
    have hc : c ≠ 0x5d := hopen
    rw [htext, addressAt, hrow, List.drop_left]
    simp [hc]

variable {size : Nat}

theorem replacedAt_of_none {table : SymbolTable} (h : addressAt l = none) :
    replacedAt table size l = none := by
  rw [replacedAt, h]
  rfl

/-! ## The message that is meant -/

section

variable {table : SymbolTable}

theorem expand_of_none {size : Nat} {c : UInt8} {r : List UInt8} (h : replacedAt table size (c :: r) = none) :
    expand table 0 size (c :: r) = c :: expand table 0 size r := by
  rw [expand, h]

theorem expand_skip (size : Nat) (l r : List UInt8) :
    expand table l.length size (l ++ r) = expand table 0 size r := by
  induction l with
  | nil => rfl
  | cons c l ih =>
    rw [List.length_cons, List.cons_append, expand]
    exact ih

theorem expand_append (size : Nat) {l : List UInt8} (hl : 0x5b ∉ l) (r : List UInt8) :
    expand table 0 size (l ++ r) = l ++ expand table 0 size r := by
  induction l with
  | nil => rfl
  | cons c l ih =>
    have hc : c ≠ 0x5b := by
      rintro rfl
      exact hl (List.mem_cons_self ..)
    rw [List.cons_append, expand_of_none (replacedAt_of_none (addressAt_of_ne hc _)),
      ih fun hmem => hl (List.mem_cons_of_mem _ hmem), List.cons_append]

theorem expand_eq_self (size : Nat) {l : List UInt8} (hl : 0x5b ∉ l) : expand table 0 size l = l := by
  have h := @expand_append table size l hl []
  rwa [List.append_nil, expand, List.append_nil] at h

theorem expand_begun (size : Nat) {l : List UInt8} {b : Begun} (hl : l.foldlM Begun.next .bracket = some b)
    {r : List UInt8} (h : addressAt (0x5b :: (l ++ r)) = none) :
    expand table 0 size (0x5b :: (l ++ r)) = 0x5b :: (l ++ expand table 0 size r) := by
  rw [expand_of_none (replacedAt_of_none h), expand_append size (Begun.run_no_bracket hl)]

theorem expand_symbol {size : Nat} {ds : List UInt8} {sym : Symbol} (hds : ∀ d ∈ ds, isXDigit d = true)
    (hne : ds ≠ []) (h : chosen table size ds = some sym) (r : List UInt8) :
    expand table 0 size ((Begun.closed ds).text ++ 0x5d :: r) =
      0x5b :: sym.text ++ 0x5d :: expand table 0 (sizeWith size ds sym) r := by
  have hreplaced : replacedAt table size ((Begun.closed ds).text ++ 0x5d :: r) = some (ds, sym) := by
    rw [replacedAt, addressAt_closed hds, if_neg hne, Option.bind_some, h, Option.map_some]
  have htext : (Begun.closed ds).text ++ 0x5d :: r = 0x5b :: ((0x3c :: (ds ++ [0x3e, 0x5d])) ++ r) := by
    simp [Begun.text]
  have hlength : ds.length + 3 = (0x3c :: (ds ++ [0x3e, 0x5d])).length := by simp
  rw [htext] at hreplaced ⊢
  rw [expand, hreplaced]
  change 0x5b :: sym.text ++ 0x5d :: expand table (ds.length + 3) _ _ = _
  rw [hlength, expand_skip]

theorem expand_left {size : Nat} {ds : List UInt8} (hds : ∀ d ∈ ds, isXDigit d = true)
    (h : chosen table size ds = none) (r : List UInt8) :
    expand table 0 size ((Begun.closed ds).text ++ 0x5d :: r) =
      (Begun.closed ds).text ++ 0x5d :: expand table 0 size r := by
  have hreplaced : replacedAt table size ((Begun.closed ds).text ++ 0x5d :: r) = none := by
    rw [replacedAt, addressAt_closed hds]
    split_ifs
    · rfl
    · rw [Option.bind_some, h, Option.map_none]
  have htext (r' : List UInt8) :
      (Begun.closed ds).text ++ 0x5d :: r' = 0x5b :: ((0x3c :: (ds ++ [0x3e, 0x5d])) ++ r') := by
    simp [Begun.text]
  have hbracket : 0x5b ∉ 0x3c :: (ds ++ [0x3e, 0x5d]) := by
    intro hmem
    simp only [List.mem_cons, List.mem_append, List.not_mem_nil, or_false] at hmem
    rcases hmem with hmem | hmem | hmem | hmem
    · cases hmem
    · exact absurd (hds _ hmem) (by decide)
    · cases hmem
    · cases hmem
  rw [htext] at hreplaced ⊢
  rw [htext, expand_of_none hreplaced, expand_append size hbracket]

theorem Symbol.zero_not_mem_text (sym : Symbol) : 0 ∉ sym.text := by
  intro hmem
  simp only [Symbol.text, List.mem_append, List.mem_cons] at hmem
  rcases hmem with (hmem | hmem | hmem) | hmem | hmem
  · exact sym.name.noNul hmem
  · cases hmem
  · exact CString.zero_not_mem_signedDecimal _ hmem
  · cases hmem
  · exact CString.zero_not_mem_signedDecimal _ hmem

theorem zero_not_mem_expand {l : List UInt8} (hl : 0 ∉ l) (skip size : Nat) : 0 ∉ expand table skip size l := by
  induction skip, size, l using expand.induct table with
  | case1 => exact List.not_mem_nil
  | case2 skip size c r ih =>
    rw [expand]
    exact ih fun hmem => hl (List.mem_cons_of_mem _ hmem)
  | case3 size c r ds sym hreplaced ih =>
    rw [expand, hreplaced]
    intro hmem
    simp only [List.cons_append, List.mem_cons, List.mem_append] at hmem
    rcases hmem with hmem | hmem | hmem | hmem
    · cases hmem
    · exact sym.zero_not_mem_text hmem
    · cases hmem
    · exact ih (fun hmem => hl (List.mem_cons_of_mem _ hmem)) hmem
  | case4 size c r hreplaced ih =>
    rw [expand_of_none hreplaced]
    intro hmem
    rcases List.mem_cons.1 hmem with hmem | hmem
    · exact hl (hmem ▸ List.mem_cons_self ..)
    · exact ih (fun hmem => hl (List.mem_cons_of_mem _ hmem)) hmem

end

/-! ## An address that is complete -/

section

variable {table : SymbolTable} {logSize size : Nat} {ds : List UInt8}

/-- What the scanner looks up, and if it thinks that it fits. -/
theorem Agrees.chosen_eq (h : Agrees table logSize size ds) (hds : ∀ d ∈ ds, isXDigit d = true) :
    chosen table size ds = (table (strtoul16 ds)).filter fun sym => decide (Estimated logSize sym) := by
  by_cases haddress : IsAddress ds
  · have hsymbol : symbolOf table ds = table (strtoul16 ds) := by
      rw [symbolOf, if_pos haddress, strtoul16_of_digits hds, if_pos haddress.2]
    rw [chosen, ← hsymbol]
    cases hsym : symbolOf table ds with
    | none => rfl
    | some sym =>
      have hestimate : decide (Fits size ds sym) = decide (Estimated logSize sym) :=
        decide_eq_decide.2 (h.address haddress sym hsym).symm
      rw [Option.filter_some, Option.filter_some, hestimate]
  · have hleaves := h.other haddress
    rw [chosen, symbolOf, if_neg haddress]
    cases htable : table (strtoul16 ds) with
    | none => rfl
    | some sym =>
      rw [Option.filter_some, if_neg (by simpa using hleaves sym htable)]
      rfl

theorem ne_nil_of_chosen {sym : Symbol} (h : chosen table size ds = some sym) : ds ≠ [] := by
  rintro rfl
  cases h

theorem Begun.length_closed (ds : List UInt8) : (Begun.closed ds).text.length = ds.length + 3 := by
  simp [Begun.text]

theorem digits_of_line (pre : List UInt8) (ds : List UInt8) :
    ((pre ++ 0x3c :: (ds ++ [0x3e])).drop (pre.length + 1)).dropLast = ds := by
  have htext : pre ++ 0x3c :: (ds ++ [0x3e]) = (pre ++ [0x3c]) ++ (ds ++ [0x3e]) := by simp
  have hlength : pre.length + 1 = (pre ++ [0x3c]).length := by simp
  rw [htext, hlength, List.drop_left, List.dropLast_concat]

theorem step_completed {s : Scan} {pre : List UInt8} (hs : s.state = .symend) (hplaced : s.symStart = some pre.length)
    (hline : s.line = pre ++ 0x3c :: (ds ++ [0x3e])) :
    s.step table logSize 0x5d =
      some (match (table (strtoul16 ds)).filter fun sym => decide (Estimated logSize sym) with
      | some sym => (s.print pre.length sym.text).put .text 0x5d
      | none => s.put .text 0x5d) := by
  rw [Scan.step, hs, hplaced]
  simp only [ne_eq, not_true_eq_false, if_false, hline, digits_of_line]
  cases table (strtoul16 ds) with
  | none => rfl
  | some sym =>
    rw [Option.filter_some]
    by_cases hestimate : Estimated logSize sym
    · have hlong : ¬ posixLogEntryMaxlen < logSize + sym.name.bytes.length + 10 := Nat.not_lt.2 hestimate
      simp only [hlong, hestimate, if_false, decide_true, if_true]
    · have hlong : posixLogEntryMaxlen < logSize + sym.name.bytes.length + 10 := Nat.not_le.1 hestimate
      simp only [hlong, hestimate, if_true, decide_false, Bool.false_eq_true, if_false]

theorem step_leaves {s : Scan} {pre : List UInt8} (hs : s.state = .symend) (hplaced : s.symStart = some pre.length)
    (hline : s.line = pre ++ 0x3c :: (ds ++ [0x3e])) (h : Leaves table logSize ds) :
    s.step table logSize 0x5d = some (s.put .text 0x5d) := by
  rw [step_completed hs hplaced hline]
  cases htable : table (strtoul16 ds) with
  | none => rfl
  | some sym =>
    rw [Option.filter_some, if_neg (by simpa using h sym htable)]

end

/-! ## A message -/

/-- The scanner has gone on to the end of a message, for which the text is
written, and all of it is in `writebuf`. -/
structure Written (s s' : Scan) (text l : List UInt8) : Prop where
  line : s'.line = s.line ++ text
  high : s'.high ≤ posixLogEntryMaxlen
  room : s'.line.length + 1 ≤ posixLogEntryMaxlen
  unexpanded : s'.expanded = false → s.expanded = false ∧ text = l

/-- A message of the size, some of which is behind `line` and the rest of which
is to come. -/
structure Room (s : Scan) (size : Nat) (l : List UInt8) : Prop where
  total : size = s.line.length + l.length + 1
  fits : size ≤ posixLogEntryMaxlen
  high : s.high ≤ posixLogEntryMaxlen

theorem Room.copied (h : Room s size (l ++ r)) (hcopied : Copied s s' l) : Room s' size r := by
  have hsize := h.total
  have hfits := h.fits
  have hhigh := h.high
  have hhigh' := hcopied.high
  rw [List.length_append] at hsize
  constructor
  · rw [hcopied.line, List.length_append]
    omega
  · exact hfits
  · omega

theorem Room.written (h : Room s size []) : Written s s [] [] := by
  have hsize := h.total
  have hfits := h.fits
  rw [List.length_nil] at hsize
  exact ⟨(List.append_nil _).symm, h.high, by omega, fun hexpanded => ⟨hexpanded, rfl⟩⟩

theorem Written.copied {text : List UInt8} (hcopied : Copied s s' l) (h : Written s' s'' text r) :
    Written s s'' (l ++ text) (l ++ r) := by
  constructor
  · rw [h.line, hcopied.line, List.append_assoc]
  · exact h.high
  · exact h.room
  · intro hexpanded
    obtain ⟨hs', htext⟩ := h.unexpanded hexpanded
    rw [hcopied.expanded] at hs'
    exact ⟨hs', congrArg _ htext⟩

/-- The scanner has put the symbol for what it took for an address of so many
digits. -/
structure Printed (s s' : Scan) (digits : Nat) (sym : Symbol) : Prop where
  state : s'.state = .text
  line : s'.line = s.line ++ 0x5b :: (sym.text ++ [0x5d])
  high : s'.high ≤ max s.high (s.line.length + max (digits + 3) (sym.text.length + 2))
  reached : s.line.length + (sym.text.length + 2) ≤ s'.high
  expanded : s'.expanded = true

theorem Printed.room {table : SymbolTable} {sym : Symbol} (h : Printed s s' ds.length sym)
    (hroom : Room s size ((Begun.closed ds).text ++ 0x5d :: r))
    (hsym : chosen table size ds = some sym) : Room s' (sizeWith size ds sym) r := by
  have hfits : size + sym.text.length ≤ posixLogEntryMaxlen + (ds.length + 2) := by
    have h := (Option.filter_eq_some_iff.1 hsym).2
    exact of_decide_eq_true h
  have hsize := hroom.total
  have hroomFits := hroom.fits
  have hhigh := hroom.high
  have hhigh' := h.high
  rw [List.length_append, Begun.length_closed, List.length_cons] at hsize
  constructor
  · simp only [h.line, List.length_append, List.length_cons, List.length_nil, sizeWith]
    omega
  · rw [sizeWith]
    omega
  · omega

section

variable {table : SymbolTable} {logSize : Nat}

/-- What it takes for an address is printed if it has a symbol that is thought
to fit, and else copied. -/
theorem run_address {s : Scan} {l ds : List UInt8} (hs : s.state = .text)
    (hl : l.foldlM Begun.next .bracket = some (.closed ds)) :
    ∃ s', (0x5b :: (l ++ [0x5d])).foldlM (Scan.step table logSize) s = some s' ∧
      match (table (strtoul16 ds)).filter fun sym => decide (Estimated logSize sym) with
      | some sym => Printed s s' ds.length sym
      | none => s'.state = .text ∧ Copied s s' (0x5b :: (l ++ [0x5d])) := by
  have htext : (Begun.closed ds).text = 0x5b :: l := Begun.run_text hl
  obtain ⟨s₁, hrun₁, hs₁, hcopied₁, hplaced⟩ := @run_begun table logSize l s _ hs hl
  have hline : s₁.line = (s.line ++ [0x5b]) ++ 0x3c :: (ds ++ [0x3e]) := by
    rw [hcopied₁.line, ← htext, Begun.text, List.append_assoc]
    rfl
  have hplaced : s₁.symStart = some (s.line ++ [0x5b]).length := by
    rw [List.length_append]
    exact hplaced
  have hstep := @step_completed table logSize ds s₁ _ hs₁ hplaced hline
  have hrun (s' : Scan) (h : s₁.step table logSize 0x5d = some s') :
      (0x5b :: (l ++ [0x5d])).foldlM (Scan.step table logSize) s = some s' := by
    rw [← List.cons_append, List.foldlM_append, hrun₁, Option.bind_eq_bind, Option.bind_some, List.foldlM_cons, h]
    rfl
  cases hlooked : (table (strtoul16 ds)).filter fun sym => decide (Estimated logSize sym) with
  | none =>
    rw [hlooked] at hstep
    exact ⟨_, hrun _ hstep, rfl, hcopied₁.trans (copied_put s₁ .text 0x5d)⟩
  | some sym =>
    rw [hlooked] at hstep
    have htake : s₁.line.take (s.line ++ [0x5b]).length = s.line ++ [0x5b] := by rw [hline, List.take_left]
    have hhigh := hcopied₁.high
    have hlength : l.length = ds.length + 2 := by
      have h := Begun.length_closed ds
      rw [htext, List.length_cons] at h
      omega
    rw [List.length_cons] at hhigh
    refine ⟨_, hrun _ hstep, rfl, ?_, ?_, ?_, rfl⟩
    · simp only [Scan.put, Scan.print, htake, List.append_assoc, List.cons_append, List.nil_append]
    · simp only [Scan.put, Scan.print, htake]
      simp only [List.length_append, List.length_singleton]
      omega
    · simp only [Scan.put, Scan.print, htake]
      simp only [List.length_append, List.length_singleton]
      omega

/-- Two addresses behind a text: the estimate is made for each of them, but
with the size of the message as it came. -/
theorem run_twice {pre l ds : List UInt8} {sym : Symbol} (hpre : 0x5b ∉ pre)
    (hl : l.foldlM Begun.next .bracket = some (.closed ds))
    (hsym : table (strtoul16 ds) = some sym) (hestimate : Estimated logSize sym) :
    ∃ s', (pre ++ (0x5b :: (l ++ [0x5d]) ++ 0x5b :: (l ++ [0x5d]))).foldlM (Scan.step table logSize) (.start .text) =
      some s' ∧ pre.length + 2 * (sym.text.length + 2) ≤ s'.high := by
  have hlooked : (table (strtoul16 ds)).filter (fun sym => decide (Estimated logSize sym)) = some sym := by
    rw [hsym, Option.filter_some, if_pos (decide_eq_true hestimate)]
  obtain ⟨s₁, hrun₁, hs₁, hcopied⟩ := @run_plain table logSize pre (.start .text) rfl hpre
  obtain ⟨s₂, hrun₂, hs₂⟩ := @run_address table logSize s₁ l ds hs₁ hl
  rw [hlooked] at hs₂
  obtain ⟨s₃, hrun₃, hs₃⟩ := @run_address table logSize s₂ l ds hs₂.state hl
  rw [hlooked] at hs₃
  refine ⟨s₃, ?_, ?_⟩
  · rw [List.foldlM_append, hrun₁, Option.bind_eq_bind, Option.bind_some, List.foldlM_append, hrun₂,
      Option.bind_eq_bind, Option.bind_some, hrun₃]
  · have hreached := hs₃.reached
    have hline : s₁.line.length = pre.length := by
      rw [hcopied.line]
      rfl
    simp only [hs₂.line, List.length_append, List.length_cons, List.length_nil] at hreached
    omega

theorem run_clean {size : Nat} {m : List UInt8} (h : Clean table logSize size m) {s : Scan} (hs : s.state = .text)
    (hroom : Room s size m) :
    ∃ s', m.foldlM (Scan.step table logSize) s = some s' ∧ Written s s' (expand table 0 size m) m := by
  induction h generalizing s with
  | nil =>
    exact ⟨s, rfl, hroom.written⟩
  | @plain size c r hc hr ih =>
    obtain ⟨s₁, hstep, hs₁, hcopied⟩ := @step_plain table logSize s hs c hc
    obtain ⟨s', hrun, hwritten⟩ := ih hs₁ (hroom.copied (r := r) hcopied)
    refine ⟨s', ?_, ?_⟩
    · rw [List.foldlM_cons, hstep]
      exact hrun
    · rw [expand_of_none (replacedAt_of_none (addressAt_of_ne hc _))]
      exact hwritten.copied hcopied
  | @unfinished size l b hl =>
    obtain ⟨s', hrun, -, hcopied, -⟩ := @run_begun table logSize l s b hs hl
    refine ⟨s', hrun, ?_⟩
    have htext := Begun.run_text hl
    have hnone : addressAt (0x5b :: (l ++ [])) = none := by
      rw [List.append_nil]
      have h := addressAt_unfinished (Begun.run_proper hl trivial)
      rwa [htext] at h
    have hexpand := @expand_begun table size l b hl [] hnone
    rw [List.append_nil, expand, List.append_nil] at hexpand
    have hroom' : Room s size ((0x5b :: l) ++ []) := by rwa [List.append_nil]
    have hwritten := (hroom'.copied hcopied).written.copied hcopied
    rw [List.append_nil] at hwritten
    rwa [hexpand]
  | @broken size l b c r hl hnext hopen hhidden hr ih =>
    obtain ⟨s₁, hrun₁, hs₁, hcopied₁, -⟩ := @run_begun table logSize l s b hs hl
    obtain ⟨s₂, hstep, hs₂, hcopied₂⟩ := @step_broken table logSize s₁ b c hs₁ hnext hopen
    have hcopied := hcopied₁.trans hcopied₂
    have hmessage : 0x5b :: (l ++ c :: r) = (0x5b :: l ++ [c]) ++ r := by simp
    obtain ⟨s', hrun, hwritten⟩ := ih hs₂ ((hmessage ▸ hroom).copied hcopied)
    refine ⟨s', ?_, ?_⟩
    · rw [hmessage, List.append_assoc, List.foldlM_append, hrun₁, Option.bind_eq_bind, Option.bind_some,
        List.singleton_append, List.foldlM_cons, hstep]
      exact hrun
    · have hnone := addressAt_broken (Begun.run_proper hl trivial) hnext hopen r
      rw [Begun.run_text hl] at hnone
      rw [expand_begun size hl hnone, expand_of_none hhidden]
      have htext : 0x5b :: (l ++ c :: expand table 0 size r) = (0x5b :: l ++ [c]) ++ expand table 0 size r := by simp
      rw [htext, hmessage]
      exact hwritten.copied hcopied
  | @address size l ds r hl hagrees hr ih =>
    have hds : ∀ d ∈ ds, isXDigit d = true := Begun.run_proper hl trivial
    have hmessage (r' : List UInt8) : 0x5b :: (l ++ 0x5d :: r') = 0x5b :: (l ++ [0x5d]) ++ r' := by simp
    have htext (r' : List UInt8) : 0x5b :: (l ++ 0x5d :: r') = (Begun.closed ds).text ++ 0x5d :: r' := by
      rw [Begun.run_text hl]
      rfl
    obtain ⟨s₁, hrun₁, hs₁⟩ := @run_address table logSize s l ds hs hl
    rw [← hagrees.chosen_eq hds] at hs₁
    rw [sizeBehind] at ih
    cases hchosen : chosen table size ds with
    | none =>
      rw [hchosen] at hs₁ ih
      obtain ⟨hs₁, hcopied₁⟩ := hs₁
      obtain ⟨s', hrun, hwritten⟩ := ih hs₁ (Room.copied (hmessage r ▸ hroom) hcopied₁)
      refine ⟨s', ?_, ?_⟩
      · rw [hmessage, List.foldlM_append, hrun₁]
        exact hrun
      · rw [htext, expand_left hds hchosen, ← htext, ← htext, hmessage r, hmessage (expand _ _ _ _)]
        exact hwritten.copied hcopied₁
    | some sym =>
      rw [hchosen] at hs₁ ih
      obtain ⟨s', hrun, hwritten⟩ := ih hs₁.state (hs₁.room (htext r ▸ hroom) hchosen)
      refine ⟨s', ?_, ?_⟩
      · rw [hmessage, List.foldlM_append, hrun₁]
        exact hrun
      · rw [htext, expand_symbol hds (ne_nil_of_chosen hchosen) hchosen]
        constructor
        · rw [hwritten.line, hs₁.line]
          simp
        · exact hwritten.high
        · exact hwritten.room
        · intro hexpanded
          have h := (hwritten.unexpanded hexpanded).1
          rw [hs₁.expanded] at h
          cases h

/-- So it does in whatever state the last message has left it, if it is met. -/
theorem run_met {state : ParseState} {m : List UInt8} (h : Met table state m)
    (hfits : m.length + 1 ≤ posixLogEntryMaxlen) :
    ∃ s', m.foldlM (Scan.step table (m.length + 1)) (.start state) = some s' ∧
      Written (.start state) s' (expandMessage table m) m := by
  have hroom : Room (.start state) (m.length + 1) m := by
    refine ⟨?_, hfits, Nat.zero_le _⟩
    rw [Scan.start, List.length_nil, Nat.zero_add]
  cases h with
  | fresh h => exact run_clean h rfl hroom
  | @goesOn b b' _ h =>
    obtain ⟨s', hrun, -, hcopied, -⟩ := @run_next table (m.length + 1) m (.start b.state) b b' rfl h
    refine ⟨s', hrun, ?_⟩
    rw [expandMessage, expand_eq_self _ (Begun.run_no_bracket h)]
    have hroom' : Room (.start b.state) (m.length + 1) (m ++ []) := by rwa [List.append_nil]
    have hwritten := (hroom'.copied hcopied).written.copied hcopied
    rwa [List.append_nil] at hwritten
  | @brokenOff b b' l r c hl hnext hopen hhidden hr =>
    obtain ⟨s₁, hrun₁, hs₁, hcopied₁, -⟩ :=
      @run_next table ((l ++ c :: r).length + 1) l (.start b.state) b b' rfl hl
    obtain ⟨s₂, hstep, hs₂, hcopied₂⟩ :=
      @step_broken table ((l ++ c :: r).length + 1) s₁ b' c hs₁ hnext hopen
    have hcopied := hcopied₁.trans hcopied₂
    have hmessage : l ++ c :: r = (l ++ [c]) ++ r := by simp
    obtain ⟨s', hrun, hwritten⟩ := run_clean hr hs₂ (Room.copied (l := l ++ [c]) (hmessage ▸ hroom) hcopied)
    refine ⟨s', ?_, ?_⟩
    · rw [List.foldlM_append, hrun₁, Option.bind_eq_bind, Option.bind_some, List.foldlM_cons, hstep]
      exact hrun
    · rw [expandMessage, expand_append _ (Begun.run_no_bracket hl), expand_of_none hhidden]
      have hwritten' := hwritten.copied hcopied
      rwa [List.append_assoc, List.append_assoc] at hwritten'
  | @left l ds r hl hleaves hr =>
    have htext : 0x3c :: (ds ++ [0x3e]) = l := (List.cons.inj (Begun.run_text hl)).2
    obtain ⟨s₁, hrun₁, hs₁, hcopied₁, hplaced⟩ :=
      @run_next table ((l ++ 0x5d :: r).length + 1) l (.start Begun.bracket.state) .bracket _ rfl hl
    have hline : s₁.line = [] ++ 0x3c :: (ds ++ [0x3e]) := hcopied₁.line.trans (htext ▸ rfl)
    have hplaced : s₁.symStart = some ([] : List UInt8).length := hplaced 0 rfl
    have hstep := step_leaves hs₁ hplaced hline hleaves
    have hcopied := hcopied₁.trans (copied_put s₁ .text 0x5d)
    have hmessage : l ++ 0x5d :: r = (l ++ [0x5d]) ++ r := by simp
    obtain ⟨s', hrun, hwritten⟩ := run_clean hr (s := s₁.put .text 0x5d) rfl
      (Room.copied (l := l ++ [0x5d]) (hmessage ▸ hroom) hcopied)
    refine ⟨s', ?_, ?_⟩
    · rw [List.foldlM_append, hrun₁, Option.bind_eq_bind, Option.bind_some, List.foldlM_cons, hstep]
      exact hrun
    · have hnone : addressAt (0x5d :: r) = none := addressAt_of_ne (by decide) r
      rw [expandMessage, expand_append _ (Begun.run_no_bracket hl), expand_of_none (replacedAt_of_none hnone)]
      have hwritten' := hwritten.copied hcopied
      rwa [List.append_assoc, List.append_assoc] at hwritten'

end

/-! ## A call -/

/-- The memory holds the message, and its size is with it. -/
structure KernCall.Carries (call : KernCall) (m behind : List UInt8) : Prop where
  buf : call.buf = m ++ 0 :: behind
  noNul : 0 ∉ m
  logSize : call.logSize = m.length + 1

/-- The symbols there are, none without `lookup_symbol`. -/
def KernCall.symbols (call : KernCall) : SymbolTable := call.table.getD fun _ => none

/-- What is to become of a message: it is sent with its addresses replaced,
once more as it is if it is to be sent twice, and `writebuf` is large enough. -/
structure Sends (call : KernCall) (written : KernWritten) (m : List UInt8) : Prop where
  first : written.bodies.head? = some (expandMessage call.symbols m ++ [0])
  again : written.bodies.tail = [] ∨ call.symbolTwice = true ∧ written.bodies.tail = [m ++ [0]]
  inside : written.high ≤ posixLogEntryMaxlen

def Good (call : KernCall) (written : KernWritten) : Prop :=
  ∀ m behind, call.isString = true → call.Carries m behind → m.length + 1 ≤ posixLogEntryMaxlen →
    Sends call written m

/-- A call as it should be in a state: the string that is scanned is a message
that is met, and in one that is marked as truncated there is nothing to
replace. -/
structure InOrder (state : ParseState) (call : KernCall) : Prop where
  scanned : ∀ table, call.table = some table → call.isString = true → call.isTruncated = false →
    ∃ m behind, call.Carries m behind ∧ m.length + 1 ≤ posixLogEntryMaxlen ∧ Met table state m
  truncated : call.isString = true → call.isTruncated = true → ∀ m behind, call.Carries m behind →
    ∀ l r, l ++ r = m → replacedAt call.symbols (m.length + 1) r = none

/-- Every call of a run is as it should be in the state it finds. -/
def AllInOrder : ParseState → List KernCall → Prop
  | _, [] => True
  | state, call :: calls =>
    InOrder state call ∧ ∀ written, writeKernEvt state call = some written → AllInOrder written.state calls

section

variable {call : KernCall} {m behind : List UInt8}

theorem KernCall.Carries.body_eq (h : call.Carries m behind) : call.body = m ++ [0] := by
  have hbuf : call.buf = (m ++ [0]) ++ behind := by
    rw [h.buf]
    simp
  have hlength : call.logSize = (m ++ [0]).length := by
    rw [h.logSize, List.length_append, List.length_singleton]
  rw [KernCall.body, hbuf, hlength, List.take_left]

theorem KernCall.Carries.chars_eq (h : call.Carries m behind) : call.chars = m := by
  have hlength : call.logSize + 1 = m.length + 2 := by rw [h.logSize]
  rw [KernCall.chars, h.buf, hlength, List.take_length_add_append]
  have hall : ∀ c ∈ m, decide (c ≠ 0) = true := by
    intro c hc
    exact decide_eq_true fun hzero => h.noNul (hzero ▸ hc)
  rw [List.takeWhile_append_of_pos hall]
  exact List.append_nil m

theorem KernCall.Carries.unique {m' behind' : List UInt8} (h : call.Carries m behind) (h' : call.Carries m' behind') :
    m = m' := by
  rw [← h.chars_eq, h'.chars_eq]

variable {table : SymbolTable}

/-- Nothing is replaced where there is nothing to replace. -/
theorem expand_nothing {size : Nat} {l : List UInt8}
    (h : ∀ l' r, l' ++ r = l → replacedAt table size r = none) : expand table 0 size l = l := by
  induction l with
  | nil => rfl
  | cons c l ih =>
    rw [expand_of_none (h [] _ rfl), ih]
    intro l' r heq
    exact h (c :: l') r (congrArg _ heq)

theorem expandMessage_none (m : List UInt8) : expandMessage (fun _ => none) m = m := by
  apply expand_nothing
  intro l r heq
  have hchosen (ds : List UInt8) : chosen (fun _ => none) (m.length + 1) ds = none := by
    rw [chosen, symbolOf, ite_self]
    rfl
  rw [replacedAt]
  cases addressAt r with
  | none => rfl
  | some ds => rw [Option.bind_some, hchosen, Option.map_none]

theorem sends_body {written : KernWritten} (h : call.Carries m behind) (hbodies : written.bodies = [call.body])
    (hexpand : expandMessage call.symbols m = m) (hhigh : written.high ≤ posixLogEntryMaxlen) :
    Sends call written m := by
  refine ⟨?_, .inl ?_, hhigh⟩
  · rw [hbodies, h.body_eq, hexpand]
    rfl
  · rw [hbodies]
    rfl

/-- The NUL that is put at the end of a truncated string is there. -/
theorem KernCall.Carries.set_body (h : call.Carries m behind) (hfits : m.length + 1 ≤ posixLogEntryMaxlen) :
    call.body.set (posixLogEntryMaxlen - 1) 0 = call.body := by
  rw [h.body_eq]
  apply List.ext_getElem
  · rw [List.length_set]
  · intro i hi hi'
    rw [List.getElem_set]
    split_ifs with hlast
    · have hlength : i < m.length + 1 := by simpa using hi'
      have hi : i = m.length := by omega
      subst hi
      simp
    · rfl

variable {state : ParseState}

theorem good_truncated (horder : InOrder state call) (hstring : call.isString = true)
    (htruncated : call.isTruncated = true) :
    Good call ⟨[call.body.set (posixLogEntryMaxlen - 1) 0], max call.logSize posixLogEntryMaxlen, state⟩ := by
  intro m behind _ hcarries hfits
  refine sends_body hcarries ?_ ?_ ?_
  · rw [hcarries.set_body hfits]
  · exact expand_nothing (horder.truncated hstring htruncated m behind hcarries)
  · rw [hcarries.logSize]
    exact max_le hfits le_rfl

theorem good_unresolved (h : call.isString = true → call.table = none) :
    Good call ⟨[call.body], 0, state⟩ := by
  intro m behind hstring hcarries _
  refine sends_body hcarries rfl ?_ (Nat.zero_le _)
  rw [KernCall.symbols, h hstring]
  exact expandMessage_none m

theorem sends_expanded (htable : call.table = some table) (h : call.Carries m behind) {s : Scan}
    (hwritten : Written (.start state) s (expandMessage table m) m) :
    Sends call ⟨(s.line.takeWhile (· ≠ 0) ++ [0]) :: (if call.symbolTwice then [call.body] else []),
      max s.high (s.line.length + 1), s.state⟩ m := by
  have hline : s.line = expandMessage table m := hwritten.line
  have hnul : ∀ c ∈ s.line, decide (c ≠ 0) = true := by
    intro c hc
    rw [hline] at hc
    exact decide_eq_true fun hzero => zero_not_mem_expand h.noNul 0 _ (hzero ▸ hc)
  refine ⟨?_, ?_, max_le hwritten.high hwritten.room⟩
  · rw [KernCall.symbols, htable, List.takeWhile_eq_self_iff.2 hnul, hline]
    rfl
  · rw [h.body_eq]
    cases htwice : call.symbolTwice
    · exact .inl rfl
    · exact .inr ⟨rfl, rfl⟩

theorem writeKernEvt_high {s : Scan} (htable : call.table = some table)
    (hstring : call.isString = true) (htruncated : call.isTruncated = false)
    (hrun : call.chars.foldlM (Scan.step table call.logSize) (.start state) = some s) :
    ∃ written, writeKernEvt state call = some written ∧ s.high ≤ written.high := by
  rw [writeKernEvt, htruncated, Bool.and_false, if_neg (by decide), hstring, htable]
  dsimp only
  rw [hrun, Option.map_some]
  refine ⟨_, rfl, ?_⟩
  split_ifs <;> exact le_max_left _ _

/-- A call that is as it should be does right by its message. -/
theorem writeKernEvt_good (horder : InOrder state call) :
    ∃ written, writeKernEvt state call = some written ∧ Good call written := by
  rw [writeKernEvt]
  by_cases hstring : call.isString = true
  swap
  · rw [Bool.not_eq_true] at hstring
    refine ⟨⟨[call.body], 0, state⟩, ?_, good_unresolved fun h => absurd h (by rw [hstring]; decide)⟩
    rw [hstring, Bool.false_and, if_neg (by decide)]
    cases call.table <;> rfl
  cases htruncated : call.isTruncated with
  | true =>
    refine ⟨_, ?_, good_truncated horder hstring htruncated⟩
    rw [hstring, Bool.true_and, if_pos rfl]
  | false =>
    rw [Bool.and_false, if_neg (by decide), hstring]
    cases htable : call.table with
    | none => exact ⟨_, rfl, good_unresolved fun _ => htable⟩
    | some table =>
      obtain ⟨m, behind, hcarries, hfits, hmet⟩ := horder.scanned table htable hstring htruncated
      obtain ⟨s, hrun, hwritten⟩ := run_met hmet hfits
      rw [← hcarries.logSize] at hrun
      dsimp only
      rw [hcarries.chars_eq, hrun, Option.map_some]
      refine ⟨_, rfl, ?_⟩
      intro m' behind' _ hcarries' _
      obtain rfl := hcarries.unique hcarries'
      by_cases hexpanded : s.expanded = true
      · rw [if_pos hexpanded]
        exact sends_expanded htable hcarries hwritten
      · rw [if_neg hexpanded]
        refine sends_body hcarries rfl ?_ (max_le hwritten.high hwritten.room)
        rw [KernCall.symbols, htable]
        exact (hwritten.unexpanded (Bool.not_eq_true _ ▸ hexpanded)).2

end

/-! ## One message after the other -/

/-- In every run whose calls are as they should be, every message is sent with
its addresses replaced and `writebuf` is large enough. -/
theorem kernel_messages_expanded {calls : List KernCall} (h : AllInOrder .text calls) :
    ∃ ws, writeKernEvts .text calls = some ws ∧ List.Forall₂ Good calls ws := by
  generalize ParseState.text = state at h
  induction calls generalizing state with
  | nil => exact ⟨[], rfl, .nil⟩
  | cons call calls ih =>
    obtain ⟨horder, hrest⟩ := h
    obtain ⟨written, hwritten, hgood⟩ := writeKernEvt_good horder
    obtain ⟨ws, hws, hall⟩ := ih written.state (hrest written hwritten)
    refine ⟨written :: ws, ?_, .cons hgood hall⟩
    rw [writeKernEvts, hwritten, Option.bind_some, hws, Option.map_some]

def defaultIdle : Symbol := ⟨⟨ascii "default_idle", by decide⟩, 0, 4⟩

def idleTable : SymbolTable := fun address => if address = 0x10 then some defaultIdle else none

def kernCall (m : List UInt8) : KernCall where
  table := some idleTable
  symbolTwice := false
  entry := { PosixLogEntry.ofBytes [] with logSize := UInt64.ofNat (m.length + 1), logFormat := posixLogString }
  buf := m ++ [0]

/-- An address, and a "[" that the next message breaks off. -/
theorem kernel_messages_expanded_two :
    ∃ ws, writeKernEvts .text [kernCall (ascii "[<10>]["), kernCall (ascii "x")] = some ws ∧
      List.Forall₂ Good [kernCall (ascii "[<10>]["), kernCall (ascii "x")] ws := by
  apply kernel_messages_expanded
  refine ⟨⟨?_, ?_⟩, ?_⟩
  · rintro table htable - -
    cases htable
    refine ⟨_, [], ⟨rfl, by decide, by decide⟩, by decide, .fresh ?_⟩
    refine @Clean.address _ _ _ (ascii "<10>") (ascii "10") [0x5b] rfl ⟨?_, fun h => absurd (by decide) h⟩ ?_
    · intro _ sym hsym
      cases hsym
      decide
    · exact .unfinished (l := []) rfl
  · intro _ htruncated
    cases htruncated
  · intro written hwritten
    have hstate : writeKernEvt .text (kernCall (ascii "[<10>][")) =
        some ⟨[ascii "[default_idle+0/4][" ++ [0]], 20, .symstart⟩ := by decide
    rw [hstate] at hwritten
    cases hwritten
    refine ⟨⟨?_, ?_⟩, fun _ _ => trivial⟩
    · rintro table htable - -
      cases htable
      refine ⟨_, [], ⟨rfl, by decide, by decide⟩, by decide, ?_⟩
      exact .brokenOff (b := .bracket) (l := []) rfl rfl (fun h => h) rfl .nil
    · intro _ htruncated
      cases htruncated

/-- Two addresses at the end of a message that is 22 bytes shorter than
`writebuf`. -/
def fullMessage : List UInt8 := List.replicate 8157 0x20 ++ ascii "[<10>][<10>]"

theorem fullMessage_carried : (kernCall fullMessage).Carries fullMessage [] ∧ fullMessage.length = 8169 := by
  have hlength : fullMessage.length = 8169 := by
    rw [fullMessage, List.length_append, List.length_replicate]
    rfl
  refine ⟨⟨rfl, ?_, ?_⟩, hlength⟩
  · intro hmem
    rcases List.mem_append.1 hmem with hmem | hmem
    · cases (List.mem_replicate.1 hmem).2
    · exact absurd hmem (by decide)
  · simp [KernCall.logSize, kernCall, hlength]

theorem fullMessage_overruns :
    ∃ written, writeKernEvt .text (kernCall fullMessage) = some written ∧ posixLogEntryMaxlen < written.high := by
  obtain ⟨hcarries, hlength⟩ := fullMessage_carried
  obtain ⟨s, hrun, hhigh⟩ := @run_twice idleTable 8170 (List.replicate 8157 0x20) (ascii "<10>") (ascii "10") defaultIdle
    (fun hmem => by cases (List.mem_replicate.1 hmem).2) rfl rfl (by decide)
  have hsize : (kernCall fullMessage).logSize = 8170 := by rw [hcarries.logSize, hlength]
  have hchars : (kernCall fullMessage).chars.foldlM (Scan.step idleTable (kernCall fullMessage).logSize)
      (.start .text) = some s := by
    rw [hcarries.chars_eq, hsize]
    exact hrun
  have huntruncated : (kernCall fullMessage).isTruncated = false := by decide
  obtain ⟨written, hwritten, hle⟩ := writeKernEvt_high rfl rfl huntruncated hchars
  have htext : defaultIdle.text.length = 16 := by decide
  have hmaxlen : posixLogEntryMaxlen = 8192 := rfl
  rw [List.length_replicate, htext] at hhigh
  exact ⟨written, hwritten, by omega⟩

/-- An address behind a "[" is not seen, one of which the "[" was the end of
the last message is replaced, and `writebuf` is overrun. -/
theorem kernel_messages_not_expanded :
    (¬ ∃ ws, writeKernEvts .text [kernCall (ascii "[[<10>]")] = some ws ∧
        List.Forall₂ Good [kernCall (ascii "[[<10>]")] ws) ∧
      (¬ ∃ ws, writeKernEvts .text [kernCall (ascii "["), kernCall (ascii "<10>]")] = some ws ∧
        List.Forall₂ Good [kernCall (ascii "["), kernCall (ascii "<10>]")] ws) ∧
      ¬ ∃ ws, writeKernEvts .text [kernCall fullMessage] = some ws ∧ List.Forall₂ Good [kernCall fullMessage] ws := by
  refine ⟨?_, ?_, ?_⟩
  · rintro ⟨ws, hws, hgood⟩
    have hsent : writeKernEvts .text [kernCall (ascii "[[<10>]")] = some [⟨[ascii "[[<10>]" ++ [0]], 8, .text⟩] := by
      decide
    cases hsent.symm.trans hws
    obtain ⟨hgood, -⟩ := List.forall₂_cons.1 hgood
    have hsends := hgood (ascii "[[<10>]") [] rfl ⟨rfl, by decide, by decide⟩ (by decide)
    exact absurd hsends.first (by decide)
  · rintro ⟨ws, hws, hgood⟩
    have hsent : writeKernEvts .text [kernCall (ascii "["), kernCall (ascii "<10>]")] =
        some [⟨[[0x5b, 0]], 2, .symstart⟩, ⟨[ascii "default_idle+0/4]" ++ [0]], 18, .text⟩] := by
      decide
    cases hsent.symm.trans hws
    obtain ⟨hgood, -⟩ := List.forall₂_cons.1 (List.forall₂_cons.1 hgood).2
    have hsends := hgood (ascii "<10>]") [] rfl ⟨rfl, by decide, by decide⟩ (by decide)
    exact absurd hsends.first (by decide)
  · rintro ⟨ws, hws, hgood⟩
    obtain ⟨written, hwritten, hover⟩ := fullMessage_overruns
    obtain ⟨hcarries, hlength⟩ := fullMessage_carried
    have hsent : writeKernEvts .text [kernCall fullMessage] = some [written] := by
      rw [writeKernEvts, hwritten]
      rfl
    cases hsent.symm.trans hws
    obtain ⟨hgood, -⟩ := List.forall₂_cons.1 hgood
    have hsends := hgood fullMessage [] rfl hcarries (by rw [hlength]; decide)
    exact absurd hsends.inside (Nat.not_le.2 hover)

end Evlog.Evlogd
