/-
Evlog.Query.HostTheorems — is a host what it says?

`normalizeAttHost` takes a string with a dot for a node id if `strtoul` reads
all of what is before the first dot and all of what is behind it. A text that
is read to its end is not always a number in decimal: it may be empty, and
there may be blanks and a sign in front (`wholeNumeral`); and of what is read
only the low 32 bits are looked at. `parseNodeId_eq` says for every string
what becomes of it. A host is then what it says if and only if its two parts
are proper numbers, or are refused, or it is the name of a host with a proper
id (`HostFits`).
-/
import Evlog.Query.AgeTheorems

namespace Evlog.Query

open Evlog.Lib

/-! ## What is meant -/

def IsByte (ds : List Char) (n : Nat) : Prop :=
  ds ≠ [] ∧ (∀ d ∈ ds, d.isDigit = true) ∧ digitsValue 10 ds = n ∧ n < 256

/-- The node id `A.B`. -/
def IsNodeId (s : List Char) (A B : Nat) : Prop :=
  ∃ a b, s = a ++ '.' :: b ∧ IsByte a A ∧ IsByte b B

/-- A string is a node id, which is then stored, or is resolved as the name of
a host, or is rejected. -/
structure HostExact (sys : System) (s : String) : Prop where
  /-- Only node ids are taken for such. -/
  numeric : ∀ nodeId, parseNodeId s = some (.ok nodeId) →
    ∃ A B, IsNodeId s.toList A B ∧ nodeId.toInt = 256 * A + B
  stored : ∀ attName op addr right b minus uval, right = .string addr s ∨ right = .name addr s →
    normalizeAttHost sys attName op right = .ok (.val b minus uval) →
    uval.toNat ≤ 65535 ∧
      ((∃ A B, IsNodeId s.toList A B ∧ uval.toNat = 256 * A + B) ∨
        ((¬∃ A B, IsNodeId s.toList A B) ∧ evlGetNodeId sys s ≠ -1 ∧
          (uval.toNat : Int) = (evlGetNodeId sys s).toInt))

/-! ## Texts that `strtoul` reads to their end -/

/-- What a part of a node id is read as. It is plain if it is only digits. -/
structure Numeral where
  plain : Bool
  negative : Bool
  number : Nat
  deriving DecidableEq, Repr

def Numeral.value (n : Numeral) : Int := if n.negative then -(n.number : Int) else n.number

def wholeNumeral (s : List Char) : Option Numeral :=
  let p := signOf (s.dropWhile isCSpace)
  if s = [] then some ⟨false, false, 0⟩
  else if p.2 ≠ [] ∧ p.2.all Char.isDigit = true then some ⟨p.2 = s, p.1, digitsValue 10 p.2⟩
  else none

def nodeIdParts (s : List Char) : Option (Numeral × Numeral) :=
  match s.dropWhile (· ≠ '.') with
  | [] => none
  | _ :: b => do
    let upper ← wholeNumeral (s.takeWhile (· ≠ '.'))
    let lower ← wholeNumeral b
    some (upper, lower)

/-- `(int) strtoul`. -/
def Numeral.byte (n : Numeral) : Int32 := (strtoulWord n.negative n.number).toUInt32.toInt32

/-! ## The condition -/

def Numeral.Proper (n : Numeral) : Prop := n.plain = true ∧ n.number < 256

/-- What is left of the number in an `int` is above 255. -/
def Numeral.Refused (n : Numeral) : Prop :=
  n.number < 2 ^ 64 ∧ 255 < n.value % 2 ^ 32 ∧ n.value % 2 ^ 32 < 2 ^ 31

/-- The parts of what looks like a node id are proper or one is refused; the
id that the table has for any other name is a node id too. -/
def HostFits (sys : System) (s : String) : Prop :=
  match nodeIdParts s.toList with
  | some (upper, lower) => upper.Refused ∨ lower.Refused ∨ (upper.Proper ∧ lower.Proper)
  | none =>
    evlGetNodeId sys s = -1 ∨
      (0 ≤ (evlGetNodeId sys s).toInt ∧ (evlGetNodeId sys s).toInt ≤ 65535)

/-! ## `strtoul` -/

/-- `strtoul` stops there, and cannot begin there. -/
def Stops (t : List Char) : Prop :=
  ∀ c ∈ t.head?, isCSpace c = false ∧ c ≠ '-' ∧ c ≠ '+' ∧ c.isDigit = false

theorem dropWhile_append_of_head {α : Type} {p : α → Bool} (s : List α) {t : List α}
    (h : ∀ c ∈ t.head?, p c = false) : (s ++ t).dropWhile p = s.dropWhile p ++ t := by
  induction s with
  | nil =>
    cases t with
    | nil => rfl
    | cons c t => rw [List.nil_append, List.dropWhile_cons_of_neg (by simp [h c rfl])]; rfl
  | cons c s ih => by_cases hc : p c = true <;> simp [hc, ih]

theorem takeWhile_append_of_head {α : Type} {p : α → Bool} (s : List α) {t : List α}
    (h : ∀ c ∈ t.head?, p c = false) : (s ++ t).takeWhile p = s.takeWhile p := by
  induction s with
  | nil =>
    cases t with
    | nil => rfl
    | cons c t => rw [List.nil_append, List.takeWhile_cons_of_neg (by simp [h c rfl])]; rfl
  | cons c s ih => by_cases hc : p c = true <;> simp [hc, ih]

theorem signOf_append (s : List Char) {t : List Char} (h : Stops t) :
    signOf (s ++ t) = ((signOf s).1, (signOf s).2 ++ t) := by
  cases s with
  | nil =>
    cases t with
    | nil => rfl
    | cons c t =>
      obtain ⟨-, hm, hp, -⟩ := h c rfl
      unfold signOf
      simp [hm, hp]
  | cons c s =>
    by_cases hm : c = '-'
    · subst hm; rfl
    · by_cases hp : c = '+'
      · subst hp; rfl
      · unfold signOf
        simp [hm, hp]

theorem strtoul_append (s : List Char) {t : List Char} (h : Stops t) :
    strtoul (s ++ t) = ((strtoul s).1, (strtoul s).2 ++ t) := by
  rw [strtoul_eq, strtoul_eq, dropWhile_append_of_head s fun c hc => (h c hc).1, signOf_append _ h]
  dsimp only
  rw [takeWhile_append_of_head _ fun c hc => (h c hc).2.2.2,
    dropWhile_append_of_head _ fun c hc => (h c hc).2.2.2]
  split <;> rfl

theorem stops_dot (b : List Char) : Stops ('.' :: b) := by
  intro c hc
  cases hc
  decide

theorem signOf_suffix (t : List Char) : (signOf t).2 <:+ t := by
  unfold signOf
  split
  · exact List.suffix_cons _ _
  · exact List.suffix_cons _ _
  · exact List.suffix_rfl

theorem strtoul_suffix (s : List Char) : (strtoul s).2 <:+ s := by
  rw [strtoul_eq]
  split
  · exact List.suffix_rfl
  · exact (List.dropWhile_suffix _).trans ((signOf_suffix _).trans (List.dropWhile_suffix _))

/-- `wholeNumeral` is what `strtoul` makes of a text that it reads to its end. -/
theorem strtoul_whole (s : List Char) :
    (∀ n, wholeNumeral s = some n → strtoul s = (strtoulWord n.negative n.number, [])) ∧
      (wholeNumeral s = none → (strtoul s).2 ≠ []) := by
  rw [strtoul_eq]
  unfold wholeNumeral
  generalize hp : signOf (s.dropWhile isCSpace) = p
  by_cases hs : s = []
  · subst hs
    cases hp
    simp [signOf, strtoulWord]
  · by_cases hwhole : p.2 ≠ [] ∧ p.2.all Char.isDigit = true
    · have hall : ∀ d ∈ p.2, d.isDigit = true := List.all_eq_true.1 hwhole.2
      have htake : p.2.takeWhile Char.isDigit = p.2 := List.takeWhile_eq_self_iff.2 hall
      have hdrop : p.2.dropWhile Char.isDigit = [] := List.dropWhile_eq_nil_iff.2 hall
      simp only [if_neg hs, if_pos hwhole, htake, hdrop, if_neg hwhole.1]
      refine ⟨?_, fun h => by cases h⟩
      intro n hn
      cases hn
      rfl
    · simp only [if_neg hs, if_neg hwhole]
      refine ⟨fun n hn => (by cases hn), ?_⟩
      intro _
      split
      · exact hs
      · intro hdrop
        refine hwhole ⟨?_, List.all_eq_true.2 (List.dropWhile_eq_nil_iff.1 hdrop)⟩
        intro hnil
        simp_all

variable {s : List Char}

theorem dot_of_dropWhile {c : Char} {b : List Char} (h : s.dropWhile (· ≠ '.') = c :: b) :
    c = '.' := by
  have hhead := List.head?_dropWhile_not (fun c => decide (c ≠ '.')) s
  rw [h] at hhead
  simpa using hhead

theorem parseNodeId_eq (s : String) : parseNodeId s = match nodeIdParts s.toList with
      | none => none
      | some (upper, lower) =>
        if upper.byte > 255 ∨ lower.byte > 255 then some (semanticError "Invalid node id.")
        else some (.ok ((upper.byte <<< 8) + lower.byte)) := by
  unfold parseNodeId nodeIdParts
  generalize s.toList = cs
  have hsplit : cs.takeWhile (· ≠ '.') ++ cs.dropWhile (· ≠ '.') = cs :=
    List.takeWhile_append_dropWhile
  match hdot : cs.dropWhile (· ≠ '.') with
  | [] => rfl
  | c :: b =>
    obtain rfl := dot_of_dropWhile hdot
    have hupper : strtoul cs = ((strtoul (cs.takeWhile (· ≠ '.'))).1,
        (strtoul (cs.takeWhile (· ≠ '.'))).2 ++ '.' :: b) := by
      conv_lhs => rw [← hsplit, hdot]
      exact strtoul_append _ (stops_dot b)
    obtain ⟨hread, hleft⟩ := strtoul_whole (cs.takeWhile (· ≠ '.'))
    obtain ⟨hreadLower, hleftLower⟩ := strtoul_whole b
    dsimp only
    rw [hupper]
    dsimp only
    cases hu : wholeNumeral (cs.takeWhile (· ≠ '.')) with
    | none =>
      -- What is left of the first part has no dot.
      have hrest := hleft hu
      have hdots := strtoul_suffix (cs.takeWhile (· ≠ '.'))
      cases hr : (strtoul (cs.takeWhile (· ≠ '.'))).2 with
      | nil => exact absurd hr hrest
      | cons d rest =>
        rw [hr] at hdots
        have hd : d ≠ '.' := by
          have hmem := hdots.subset (List.mem_cons_self (a := d) (l := rest))
          simpa using List.mem_takeWhile_imp hmem
        simp [hd]
    | some upper =>
      rw [hread upper hu]
      cases hl : wholeNumeral b with
      | none => simp [hleftLower hl]
      | some lower =>
        rw [hreadLower lower hl]
        rfl

/-! ## The numbers that are read -/

theorem toInt_byte (n : Numeral) : n.byte.toInt =
      if n.number < 2 ^ 64 then
        (if n.value % 2 ^ 32 < 2 ^ 31 then n.value % 2 ^ 32 else n.value % 2 ^ 32 - 2 ^ 32)
      else -1 := by
  have hint := toInt_toInt32 (strtoulWord n.negative n.number).toUInt32
  rw [UInt64.toNat_toUInt32] at hint
  unfold Numeral.byte
  rw [hint]
  by_cases hn : n.number < 2 ^ 64
  · have hmod := strtoulWord_mod n.negative hn
    rw [if_pos hn]
    unfold Numeral.value
    rw [← hmod]
    norm_cast
  · rw [toNat_strtoulWord, if_neg hn, if_neg hn]
    decide

theorem refused_iff (n : Numeral) : n.byte > 255 ↔ n.Refused := by
  rw [gt_iff_lt, Int32.lt_iff_toInt_lt, toInt_byte, show (255 : Int32).toInt = 255 from rfl]
  unfold Numeral.Refused
  constructor
  · intro h
    split at h
    · split at h <;> omega
    · omega
  · rintro ⟨hn, hlow, hhigh⟩
    rw [if_pos hn, if_pos hhigh]
    exact hlow

theorem wholeNumeral_isByte {n : Nat} (h : IsByte s n) :
    wholeNumeral s = some ⟨true, false, n⟩ := by
  obtain ⟨hne, hd, rfl, -⟩ := h
  have hsign : signOf (s.dropWhile isCSpace) = (false, s) := by
    obtain ⟨d, ds, rfl⟩ := List.exists_cons_of_ne_nil hne
    have hd1 := hd d List.mem_cons_self
    rw [List.dropWhile_cons_of_neg (by simp [isCSpace_digit hd1])]
    exact signOf_digit hd1 _
  have hall : s.all Char.isDigit = true := List.all_eq_true.2 hd
  unfold wholeNumeral
  simp only [hsign, ne_eq, hne, not_false_eq_true, hall, and_self, if_true, if_false, decide_true]

theorem isByte_of_proper {n : Numeral} (h : wholeNumeral s = some n) (hn : n.Proper) :
    IsByte s n.number := by
  unfold wholeNumeral at h
  dsimp only at h
  split at h
  · cases h
    cases hn.1
  · split at h
    · next hwhole =>
      cases h
      obtain ⟨hplain, hlt⟩ := hn
      have hs : (signOf (s.dropWhile isCSpace)).2 = s := of_decide_eq_true hplain
      rw [hs] at hwhole hlt ⊢
      exact ⟨hwhole.1, List.all_eq_true.1 hwhole.2, rfl, hlt⟩
    · cases h

theorem isByte_ne_dot {n : Nat} (h : IsByte s n) : ∀ c ∈ s, c ≠ '.' := by
  rintro c hc rfl
  cases h.2.1 _ hc

theorem nodeIdParts_append {a : List Char} (ha : ∀ c ∈ a, c ≠ '.') (b : List Char) :
    nodeIdParts (a ++ '.' :: b) =
      (wholeNumeral a).bind fun upper => (wholeNumeral b).map fun lower => (upper, lower) := by
  have hp : ∀ c ∈ a, decide (c ≠ '.') = true := fun c hc => decide_eq_true (ha c hc)
  unfold nodeIdParts
  rw [List.dropWhile_append_of_pos hp, List.takeWhile_append_of_pos hp,
    List.dropWhile_cons_of_neg (by simp), List.takeWhile_cons_of_neg (by simp), List.append_nil]
  dsimp only
  cases wholeNumeral a <;> cases wholeNumeral b <;> rfl

theorem nodeIdParts_some {upper lower : Numeral} (h : nodeIdParts s = some (upper, lower)) :
    ∃ a b, s = a ++ '.' :: b ∧ wholeNumeral a = some upper ∧ wholeNumeral b = some lower := by
  unfold nodeIdParts at h
  split at h
  · cases h
  · next c b hdot =>
    obtain rfl := dot_of_dropWhile hdot
    simp only [Option.bind_eq_bind, Option.bind_eq_some_iff, Option.some.injEq, Prod.mk.injEq] at h
    obtain ⟨u, hu, l, hl, rfl, rfl⟩ := h
    refine ⟨_, b, ?_, hu, hl⟩
    rw [← hdot]
    exact List.takeWhile_append_dropWhile.symm

theorem isNodeId_iff {A B : Nat} : IsNodeId s A B ↔
      ∃ upper lower, nodeIdParts s = some (upper, lower) ∧ upper.Proper ∧ lower.Proper ∧
        upper.number = A ∧ lower.number = B := by
  constructor
  · rintro ⟨a, b, rfl, ha, hb⟩
    refine ⟨⟨true, false, A⟩, ⟨true, false, B⟩, ?_, ⟨rfl, ha.2.2.2⟩, ⟨rfl, hb.2.2.2⟩, rfl, rfl⟩
    rw [nodeIdParts_append (isByte_ne_dot ha), wholeNumeral_isByte ha, wholeNumeral_isByte hb]
    rfl
  · rintro ⟨upper, lower, h, hu, hl, rfl, rfl⟩
    obtain ⟨a, b, rfl, ha, hb⟩ := nodeIdParts_some h
    exact ⟨a, b, rfl, isByte_of_proper ha hu, isByte_of_proper hb hl⟩

theorem toInt_byte_proper {n : Numeral} (h : wholeNumeral s = some n) (hn : n.Proper) :
    n.byte.toInt = n.number := by
  have hbyte := wholeNumeral_isByte (isByte_of_proper h hn)
  rw [h] at hbyte
  have hlt := hn.2
  rw [toInt_byte, if_pos (by omega)]
  have hvalue : n.value = n.number := by
    rw [Option.some.inj hbyte]
    rfl
  rw [hvalue]
  split <;> omega

theorem toInt_shift_add {x y : Int32} (hx : 0 ≤ x.toInt ∧ x.toInt < 256)
    (hy : 0 ≤ y.toInt ∧ y.toInt < 256) : ((x <<< 8) + y).toInt = 256 * x.toInt + y.toInt := by
  have hshift : (x <<< 8).toInt = 256 * x.toInt := by
    have hword : x.toBitVec.toNat = x.toInt.toNat := by
      have := Int32.toInt_toBitVec x
      rw [BitVec.toInt_eq_toNat_bmod, Int.bmod_def] at this
      have hlt := x.toBitVec.isLt
      split at this <;> omega
    have hlow : (8 : Int32).toBitVec.smod 32 = 8#32 := by decide
    rw [← Int32.toInt_toBitVec, Int32.toBitVec_shiftLeft, hlow]
    simp only [BitVec.shiftLeft_eq', BitVec.toNat_ofNat, BitVec.toInt_shiftLeft, hword,
      Nat.shiftLeft_eq, show 2 ^ (8 % 2 ^ 32) = 256 from rfl]
    push_cast
    rw [Int.bmod_eq_of_le] <;> omega
  rw [Int32.toInt_add, hshift]
  rw [Int.bmod_eq_of_le] <;> omega

theorem toNat_operand (id : Int32) :
    (id.toInt64.toUInt64.toNat : Int) = if 0 ≤ id.toInt then id.toInt else id.toInt + 2 ^ 64 := by
  have h := toInt_toInt64 id.toInt64.toUInt64
  rw [Int64.toInt64_toUInt64, Int32.toInt_toInt64] at h
  have hlt := id.toInt64.toUInt64.toNat_lt
  split at h <;> split <;> omega

/-! ## Is a host what it says? -/

theorem normalizeHostName_val {sys : System} {attName : String} {op : Op} {addr b : Nat}
    {s : String} {right : PNode} {minus : Bool} {uval : UInt64}
    (hright : right = .string addr s ∨ right = .name addr s)
    (h : normalizeAttHost sys attName op right = .ok (.val b minus uval)) :
    (∃ nodeId, parseNodeId s = some (.ok nodeId) ∧ uval = nodeId.toInt64.toUInt64) ∨
      (parseNodeId s = none ∧ evlGetNodeId sys s ≠ -1 ∧
        uval = (evlGetNodeId sys s).toInt64.toUInt64) := by
  have hname : normalizeHostName sys attName op addr s right = .ok (.val b minus uval) := by
    rcases hright with rfl | rfl <;> exact h
  unfold normalizeHostName at hname
  split at hname
  · cases hparse : parseNodeId s with
    | none =>
      simp only [hparse] at hname
      split at hname
      · cases hname
      · next hfound =>
        cases hname
        exact .inr ⟨rfl, hfound, rfl⟩
    | some result =>
      cases result with
      | error e => simp [hparse] at hname
      | ok nodeId =>
        simp only [hparse, verifyOp, semanticError] at hname
        split at hname
        · cases hname
          exact .inl ⟨nodeId, rfl, rfl⟩
        · cases hname
  · split at hname
    · rcases hright with rfl | rfl <;> cases hname
    · unfold normalizeRegex semanticError at hname
      split at hname
      · split at hname <;> cases hname
      · cases hname

theorem parseNodeId_numeric {s : String} {nodeId : Int32} (h : parseNodeId s = some (.ok nodeId)) :
    ∃ upper lower, nodeIdParts s.toList = some (upper, lower) ∧ ¬upper.Refused ∧ ¬lower.Refused ∧
      nodeId = (upper.byte <<< 8) + lower.byte := by
  rw [parseNodeId_eq] at h
  split at h
  · cases h
  · next upper lower hparts =>
    split at h
    · cases h
    · next hsmall =>
      cases h
      rw [not_or] at hsmall
      exact ⟨upper, lower, hparts, (refused_iff upper).not.1 hsmall.1, (refused_iff lower).not.1 hsmall.2, rfl⟩

theorem parts_node {upper lower : Numeral} (h : nodeIdParts s = some (upper, lower))
    (hu : upper.Proper) (hl : lower.Proper) :
    IsNodeId s upper.number lower.number ∧
      ((upper.byte <<< 8) + lower.byte).toInt = 256 * upper.number + lower.number := by
  refine ⟨isNodeId_iff.2 ⟨upper, lower, h, hu, hl, rfl, rfl⟩, ?_⟩
  obtain ⟨a, b, rfl, ha, hb⟩ := nodeIdParts_some h
  have hupper := toInt_byte_proper ha hu
  have hlower := toInt_byte_proper hb hl
  have := hu.2
  have := hl.2
  rw [toInt_shift_add (by omega) (by omega), hupper, hlower]

/-- A host is what it says if and only if its parts are node ids or are
refused, and the table has none but node ids. -/
theorem host_operand_exact_iff (sys : System) (s : String) : HostExact sys s ↔ HostFits sys s := by
  constructor
  · intro h
    unfold HostFits
    cases hparts : nodeIdParts s.toList with
    | none =>
      have hparse : parseNodeId s = none := by rw [parseNodeId_eq, hparts]
      show evlGetNodeId sys s = -1 ∨ _
      by_cases hfound : evlGetNodeId sys s = -1
      · exact .inl hfound
      · have hstored : normalizeAttHost sys "" .eq (.string 0 s)
            = .ok (.val 0 false (evlGetNodeId sys s).toInt64.toUInt64) := by
          simp [normalizeAttHost, normalizeHostName, hparse, hfound]
        have hle := (h.stored "" .eq 0 _ 0 false _ (.inl rfl) hstored).1
        have hoperand := toNat_operand (evlGetNodeId sys s)
        have hword := Int32.le_toInt (evlGetNodeId sys s)
        right
        split at hoperand <;> omega
    | some parts =>
      obtain ⟨upper, lower⟩ := parts
      show upper.Refused ∨ lower.Refused ∨ upper.Proper ∧ lower.Proper
      by_cases hu : upper.Refused
      · exact .inl hu
      by_cases hl : lower.Refused
      · exact .inr (.inl hl)
      -- Nothing is refused, so a number is stored, and there must be one to store.
      have hparse : parseNodeId s = some (.ok ((upper.byte <<< 8) + lower.byte)) := by
        rw [parseNodeId_eq, hparts]
        exact if_neg (not_or.2 ⟨(refused_iff upper).not.2 hu, (refused_iff lower).not.2 hl⟩)
      obtain ⟨A, B, hid, -⟩ := h.numeric _ hparse
      obtain ⟨upper', lower', hparts', hu', hl', -, -⟩ := isNodeId_iff.1 hid
      rw [hparts] at hparts'
      cases hparts'
      exact .inr (.inr ⟨hu', hl'⟩)
  · intro h
    have hnumeric : ∀ nodeId, parseNodeId s = some (.ok nodeId) →
        ∃ A B, IsNodeId s.toList A B ∧ nodeId.toInt = 256 * A + B ∧ 256 * A + B ≤ 65535 := by
      intro nodeId hparse
      obtain ⟨upper, lower, hparts, hu, hl, rfl⟩ := parseNodeId_numeric hparse
      unfold HostFits at h
      rw [hparts] at h
      obtain ⟨hup, hlow⟩ := (h.resolve_left hu).resolve_left hl
      obtain ⟨hid, hvalue⟩ := parts_node hparts hup hlow
      have := hup.2
      have := hlow.2
      exact ⟨_, _, hid, hvalue, by omega⟩
    refine ⟨?_, ?_⟩
    · intro nodeId hparse
      obtain ⟨A, B, hid, hvalue, -⟩ := hnumeric nodeId hparse
      exact ⟨A, B, hid, hvalue⟩
    · intro attName op addr right b minus uval hright hstored
      rcases normalizeHostName_val hright hstored with ⟨nodeId, hparse, rfl⟩ | ⟨hparse, hfound, rfl⟩
      · obtain ⟨A, B, hid, hvalue, hle⟩ := hnumeric nodeId hparse
        have hoperand := toNat_operand nodeId
        rw [if_pos (by omega)] at hoperand
        exact ⟨by omega, .inl ⟨A, B, hid, by omega⟩⟩
      · have hparts : nodeIdParts s.toList = none := by
          rw [parseNodeId_eq] at hparse
          split at hparse
          · assumption
          · split at hparse <;> cases hparse
        have hno : ¬∃ A B, IsNodeId s.toList A B := by
          rintro ⟨A, B, hid⟩
          obtain ⟨upper, lower, hsome, -⟩ := isNodeId_iff.1 hid
          rw [hparts] at hsome
          cases hsome
        unfold HostFits at h
        rw [hparts] at h
        obtain ⟨h0, hle⟩ := h.resolve_left hfound
        have hoperand := toNat_operand (evlGetNodeId sys s)
        rw [if_pos h0] at hoperand
        exact ⟨by omega, .inr ⟨hno, hfound, hoperand⟩⟩

/-- -254 is stored for a number and a sign. -/
theorem host_minus_one_two_not_exact : normalizeAttHost System.bare "host" .eq (.string 0 "-1.2")
        = .ok (.val 0 false (-254 : Int32).toInt64.toUInt64) ∧
      ¬ HostExact System.bare "-1.2" := by
  have hparse : parseNodeId "-1.2" = some (.ok (-254)) := by decide
  refine ⟨by decide, ?_⟩
  intro h
  obtain ⟨A, B, -, hvalue⟩ := h.numeric _ hparse
  have hneg : (-254 : Int32).toInt = -254 := rfl
  omega

end Evlog.Query
