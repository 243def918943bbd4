/-
Evlog.Template.StepTheorems — what one attribute takes from a record.

An attribute that is no bit-field and no struct takes some bytes from where
`pn_next` stands, and moves it behind them (`Took`). Here it is said for
each kind which bytes these are. The only one that can go wrong is an array
of scalars: its size in bytes is computed as an `int`, and where that is
not its size (`ArrayStep.wraps`) the attribute has bytes that the record
does not have.
-/
import Evlog.Template.Structs

namespace Evlog.Template

open Evlog.Lib Evlog.Posix

/-! ## Events -/

/-- What the event is about lies in the data of the record. -/
def Event.InBlock (r : Record) : Event → Prop
  | .next p => p ≤ r.size
  | .read p n | .att p n | .struct p n | .extra p n => p + n ≤ r.size
  | _ => True

/-- The event is not one of those that describe a step, and not about
`_EXTRA_DATA_`. -/
def Event.Plain : Event → Prop
  | .bitField _ | .array _ | .extra _ _ => False
  | _ => True

def Event.range : Event → Option (Nat × Nat)
  | .att p n => some (p, n)
  | _ => none

def ranges (es : List Event) : List (Nat × Nat) := es.filterMap Event.range

@[simp] theorem ranges_append (es es' : List Event) : ranges (es ++ es') = ranges es ++ ranges es' :=
  List.filterMap_append

/-! ## Notes -/

section Notes

variable (n : Notes) (e : Event) (p : Nat)

@[simp] theorem emit_next : (n.emit e).next = n.next := rfl
@[simp] theorem emit_outOfData : (n.emit e).outOfData = n.outOfData := rfl
@[simp] theorem emit_log : (n.emit e).log = n.log ++ [e] := rfl
@[simp] theorem setNext_next : (n.setNext p).next = p := rfl
@[simp] theorem setNext_outOfData : (n.setNext p).outOfData = n.outOfData := rfl
@[simp] theorem setNext_log : (n.setNext p).log = n.log ++ [.next p] := rfl
@[simp] theorem out_next : n.out.next = n.next := rfl
@[simp] theorem out_outOfData : n.out.outOfData = true := rfl
@[simp] theorem out_log : n.out.log = n.log := rfl

@[simp] theorem alloc_next (owner : List Nat) : (n.alloc owner).1.next = n.next := rfl
@[simp] theorem alloc_outOfData (owner : List Nat) :
    (n.alloc owner).1.outOfData = n.outOfData := rfl
@[simp] theorem alloc_log (owner : List Nat) :
    (n.alloc owner).1.log = n.log ++ [.alloc owner n.heap] := rfl

variable (dim : Dimension) (count : Int) (s : AttState)

@[simp] theorem setDimension2_next : (setDimension2 dim count s n).2.next = n.next := by
  unfold setDimension2
  split <;> rfl

@[simp] theorem setDimension2_outOfData :
    (setDimension2 dim count s n).2.outOfData = n.outOfData := by
  unfold setDimension2
  split <;> rfl

@[simp] theorem setDimension2_log : (setDimension2 dim count s n).2.log = n.log := by
  unfold setDimension2
  split <;> rfl

variable (env : Env) (delim : Option Delimiter)

@[simp] theorem populateDelimiter_next : (populateDelimiter env delim s n).2.next = n.next := by
  unfold populateDelimiter
  split <;> rfl

@[simp] theorem populateDelimiter_outOfData :
    (populateDelimiter env delim s n).2.outOfData = n.outOfData := by
  unfold populateDelimiter
  split <;> rfl

@[simp] theorem populateDelimiter_log : (populateDelimiter env delim s n).2.log = n.log := by
  unfold populateDelimiter
  split <;> rfl

end Notes

variable {r : Record} {n n' : Notes} {len : Nat} {es : List Event}

variable {p left size : Nat}

theorem bytesRemaining_of_le (h : p ≤ r.size) : bytesRemaining r p = r.size - p :=
  if_pos h

/-- Some bytes are taken from where `pn_next` stands. -/
structure Took (r : Record) (n n' : Notes) (len : Nat) (es : List Event) : Prop where
  log : n'.log = n.log ++ es
  next : n'.next = n.next + len
  fits : n.next + len ≤ r.size
  inBlock : ∀ e ∈ es, e.InBlock r
  plain : ∀ e ∈ es, e.Plain
  ranges : ranges es = if len = 0 then [] else [(n.next, len)]

/-! ## Scalars and strings -/

theorem stringLength_le (h : stringLength r p left = some len) : 0 < len ∧ len ≤ left := by
  induction left generalizing p len with
  | zero => cases h
  | succ left ih =>
    rw [stringLength] at h
    split at h
    · cases h
      omega
    · obtain ⟨k, hk, rfl⟩ := Option.map_eq_some_iff.1 h
      have := ih hk
      omega

theorem wstringLength_le (h : wstringLength r p left = some len) :
    0 < len ∧ len ≤ left * wcharSize := by
  induction left generalizing p len with
  | zero => cases h
  | succ left ih =>
    rw [wstringLength] at h
    split at h
    · cases h
      rw [wcharSize]
      omega
    · obtain ⟨k, hk, rfl⟩ := Option.map_eq_some_iff.1 h
      have := ih hk
      rw [Nat.succ_mul]
      omega

def Quiet (r : Record) (es : List Event) : Prop :=
  ∀ e ∈ es, e.InBlock r ∧ e.Plain ∧ e.range = none

theorem quiet_nil : Quiet r [] := by simp [Quiet]

theorem quiet_cons {e : Event} :
    Quiet r (e :: es) ↔ (e.InBlock r ∧ e.Plain ∧ e.range = none) ∧ Quiet r es :=
  List.forall_mem_cons

theorem quiet_append {es' : List Event} : Quiet r (es ++ es') ↔ Quiet r es ∧ Quiet r es' :=
  List.forall_mem_append

theorem quiet_read {k : Nat} (h : p + k ≤ r.size) : Quiet r [.read p k] :=
  quiet_cons.2 ⟨⟨h, trivial, rfl⟩, quiet_nil⟩

theorem quiet_next (h : p ≤ r.size) : Quiet r [.next p] :=
  quiet_cons.2 ⟨⟨h, trivial, rfl⟩, quiet_nil⟩

theorem quiet_alloc (owner : List Nat) (id : Nat) : Quiet r [.alloc owner id] :=
  quiet_cons.2 ⟨⟨trivial, trivial, rfl⟩, quiet_nil⟩

theorem ranges_of_quiet (h : Quiet r es) : ranges es = [] :=
  List.filterMap_eq_nil_iff.2 fun e he => (h e he).2.2

theorem Took.of_att {n₁ : Notes} (h : Quiet r es) (hlog : n'.log = n.log ++ es)
    (hnext : n'.next = p + len) (hp : p = n.next) (hfits : p + len ≤ r.size) (hlen : 0 < len)
    (hn : n₁ = n'.emit (.att p len)) : Took r n n₁ len (es ++ [.att p len]) := by
  subst hp hn
  refine ⟨?_, hnext, hfits, ?_, ?_, ?_⟩
  · rw [emit_log, hlog, List.append_assoc]
  · exact List.forall_mem_append.2 ⟨fun e he => (h e he).1, by simpa [Event.InBlock] using hfits⟩
  · exact List.forall_mem_append.2 ⟨fun e he => (h e he).2.1, by simp [Event.Plain]⟩
  · rw [ranges_append, ranges_of_quiet h, if_neg (by omega)]
    rfl

theorem Took.of_quiet (h : Quiet r es) (hlog : n'.log = n.log ++ es) (hnext : n'.next = n.next)
    (hfits : n.next ≤ r.size) : Took r n n' 0 es :=
  ⟨hlog, hnext, hfits, fun e he => (h e he).1, fun e he => (h e he).2.1, ranges_of_quiet h⟩

/-- A string is looked for. If there is one, it is passed over, and if
not, nothing is. -/
structure Collected (r : Record) (n n' : Notes) (len : Option Nat) : Prop where
  log : ∃ es, n'.log = n.log ++ es ∧ Quiet r es
  next : n'.next = n.next + len.getD 0
  fits : n'.next ≤ r.size
  pos : ∀ k ∈ len, 0 < k

theorem Collected.passedOver (hpos : 0 < len) (h : n.next + len ≤ r.size) :
    Collected r n ((n.emit (.read n.next len)).setNext (n.next + len)) (some len) := by
  refine ⟨⟨[.read n.next len] ++ [.next (n.next + len)], ?_, ?_⟩, rfl, h, by simpa using hpos⟩
  · rw [setNext_log, emit_log, List.append_assoc]
  · exact quiet_append.2 ⟨quiet_read h, quiet_next h⟩

theorem collectString_spec (h : n.next ≤ r.size) :
    Collected r n (collectString r n).1 (collectString r n).2 := by
  unfold collectString
  rw [bytesRemaining_of_le h]
  dsimp only
  cases hlen : stringLength r n.next (r.size - n.next) with
  | none =>
    exact ⟨⟨_, rfl, quiet_read (by omega)⟩, rfl, h, by simp⟩
  | some len =>
    obtain ⟨hpos, hle⟩ := stringLength_le hlen
    exact .passedOver hpos (by omega)

theorem collectWstring_spec (h : n.next ≤ r.size) :
    Collected r n (collectWstring r n).1 (collectWstring r n).2 := by
  unfold collectWstring
  rw [bytesRemaining_of_le h]
  dsimp only
  have hleft := Nat.div_mul_le_self (r.size - n.next) wcharSize
  cases hlen : wstringLength r n.next ((r.size - n.next) / wcharSize) with
  | none =>
    exact ⟨⟨_, rfl, quiet_read (by omega)⟩, rfl, h, by simp⟩
  | some len =>
    obtain ⟨hpos, hle⟩ := wstringLength_le hlen
    exact .passedOver hpos (by omega)

theorem convWstring_spec (owner : List Nat) (h : p + len ≤ r.size) :
    ∃ es, (convWstring r owner p len n).1.log = n.log ++ es ∧ Quiet r es ∧
      (convWstring r owner p len n).1.next = n.next := by
  unfold convWstring
  split
  · refine ⟨[.read p len] ++ [.alloc owner n.heap], ?_, ?_, rfl⟩
    · simp [Notes.alloc, Notes.emit]
    · exact quiet_append.2 ⟨quiet_read h, quiet_alloc owner _⟩
  · exact ⟨[.read p len], rfl, quiet_read h, rfl⟩

theorem convWstringArray_spec (owner : List Nat) (h : p + len ≤ r.size) :
    ∃ es, (convWstringArray r owner p len n).1.log = n.log ++ es ∧ Quiet r es ∧
      (convWstringArray r owner p len n).1.next = n.next := by
  unfold convWstringArray
  split
  · refine ⟨[.read p len] ++ [.alloc owner n.heap], ?_, ?_, rfl⟩
    · simp [Notes.alloc, Notes.emit]
    · exact quiet_append.2 ⟨quiet_read h, quiet_alloc owner _⟩
  · exact ⟨[], (List.append_nil _).symm, quiet_nil, rfl⟩

/-- What a turn does for an attribute that is no array: it takes some bytes,
or it leaves the loop. -/
structure TookOrLeft (r : Record) (n n' : Notes) (flow : Flow) : Prop where
  took : ∃ len es, Took r n n' len es
  flow : (flow = .next ∧ n.next < n'.next) ∨ (flow = .leave ∧ n'.next = n.next)

theorem Collected.missed (h : Collected r n n' none) (hn : n.next ≤ r.size) : TookOrLeft r n n' .leave := by
  obtain ⟨⟨es, hlog, hquiet⟩, hnext, -, -⟩ := h
  exact ⟨⟨0, es, .of_quiet hquiet hlog hnext hn⟩, .inr ⟨rfl, hnext⟩⟩

/-- Between, the bytes may be converted. -/
theorem Collected.took {n₁ : Notes} (h : Collected r n n' (some len))
    (hconv : ∃ es, n₁.log = n'.log ++ es ∧ Quiet r es ∧ n₁.next = n'.next) :
    TookOrLeft r n (n₁.emit (.att n.next len)) .next := by
  obtain ⟨⟨es, hlog, hquiet⟩, hnext, hfits, hpos⟩ := h
  obtain ⟨es', hlog', hquiet', hnext'⟩ := hconv
  dsimp only [Option.getD_some] at hnext
  have hlen : 0 < len := hpos len rfl
  refine ⟨⟨len, _, .of_att (quiet_append.2 ⟨hquiet, hquiet'⟩) ?_ (hnext'.trans hnext) rfl (by omega) hlen
    rfl⟩, .inl ⟨rfl, ?_⟩⟩
  · rw [hlog', hlog, List.append_assoc]
  · rw [emit_next, hnext', hnext]
    omega

theorem size_pos (arch : Arch) (ty : BaseType) : 0 < (archTypeInfo arch ty).size := by
  cases arch <;> cases ty <;> decide

theorem populateValue_scalar (owner : List Nat) {ty : BaseType} (hty : ty.isScalar = true)
    (s : AttState) (h : n.next ≤ r.size) :
    (r.size < n.next + (archTypeInfo r.arch ty).size ∧
        populateValue r owner ty s n = (s, n.out, .leave)) ∨
      (n.next + (archTypeInfo r.arch ty).size ≤ r.size ∧
        (populateValue r owner ty s n).2 =
          ({ n with
            next := n.next + (archTypeInfo r.arch ty).size
            log := n.log ++ ([.read n.next (archTypeInfo r.arch ty).size] ++
              [.next (n.next + (archTypeInfo r.arch ty).size)] ++
              [.att n.next (archTypeInfo r.arch ty).size]) }, .next)) := by
  have hcase : populateValue r owner ty s n =
      if bytesRemaining r n.next < (archTypeInfo r.arch ty).size then (s, n.out, .leave)
      else
        ({ (populateScalar r ty s n).1 with attExists := true },
          (populateScalar r ty s n).2.emit (.att n.next (archTypeInfo r.arch ty).size), .next) := by
    cases ty <;> first | rfl | cases hty
  rw [hcase, bytesRemaining_of_le h]
  split
  · exact .inl ⟨by omega, rfl⟩
  · refine .inr ⟨by omega, ?_⟩
    simp [populateScalar, Notes.emit, Notes.setNext]

theorem populateValue_spec (owner : List Nat) (ty : BaseType) (s : AttState) (h : n.next ≤ r.size) :
    TookOrLeft r n (populateValue r owner ty s n).2.1 (populateValue r owner ty s n).2.2 := by
  by_cases hty : ty.isScalar = true
  · have hpos := size_pos r.arch ty
    rcases populateValue_scalar owner hty s h with ⟨-, heq⟩ | ⟨hfits, heq⟩
    · rw [heq]
      exact ⟨⟨0, [], .of_quiet quiet_nil (List.append_nil _).symm rfl h⟩, .inr ⟨rfl, rfl⟩⟩
    · rw [heq]
      refine ⟨⟨(archTypeInfo r.arch ty).size,
        [.read n.next (archTypeInfo r.arch ty).size] ++
          [.next (n.next + (archTypeInfo r.arch ty).size)] ++
          [.att n.next (archTypeInfo r.arch ty).size], ?_⟩, .inl ⟨rfl, by dsimp only; omega⟩⟩
      refine ⟨rfl, rfl, hfits, ?_, ?_, ?_⟩
      · simp [Event.InBlock, hfits]
      · simp [Event.Plain]
      · rw [if_neg (by omega)]
        rfl
  · cases ty with
    | string =>
      unfold populateValue
      dsimp only
      have hspec := collectString_spec h
      split
      · rename_i n' heq
        rw [heq] at hspec
        exact hspec.missed h
      · rename_i n' len heq
        rw [heq] at hspec
        exact hspec.took ⟨[], (List.append_nil _).symm, quiet_nil, rfl⟩
    | wstring =>
      unfold populateValue
      dsimp only
      have hspec := collectWstring_spec h
      split
      · rename_i n' heq
        rw [heq] at hspec
        exact hspec.missed h
      · rename_i n' len heq
        rw [heq] at hspec
        exact hspec.took (convWstring_spec owner (hspec.next ▸ hspec.fits))
    | _ => exact absurd rfl hty

/-! ## Arrays -/

theorem collectAll_spec {collect : Notes → Notes × Option Nat}
    (hc : ∀ n, n.next ≤ r.size → Collected r n (collect n).1 (collect n).2) (nel : Nat)
    (h : n.next ≤ r.size) :
    ∃ es len, (collectAll collect nel n).1.log = n.log ++ es ∧ Quiet r es ∧
      (collectAll collect nel n).1.next = n.next + len ∧ n.next + len ≤ r.size ∧
      (0 < (collectAll collect nel n).2 ↔ 0 < len) := by
  induction nel generalizing n with
  | zero => exact ⟨[], 0, (List.append_nil _).symm, quiet_nil, rfl, h, Iff.rfl⟩
  | succ nel ih =>
    obtain ⟨⟨es, hlog, hquiet⟩, hnext, hfits, hpos⟩ := hc n h
    unfold collectAll
    split
    · rename_i n₁ heq
      rw [heq] at hlog hnext hfits
      exact ⟨es, 0, hlog, hquiet, hnext, h, Iff.rfl⟩
    · rename_i n₁ k heq
      rw [heq] at hlog hnext hfits hpos
      dsimp only [Option.getD_some] at hlog hnext hfits hpos
      have hk : 0 < k := hpos k rfl
      obtain ⟨es', len, hlog', hquiet', hnext', hfits', -⟩ := ih hfits
      refine ⟨es ++ es', k + len, ?_, quiet_append.2 ⟨hquiet, hquiet'⟩, ?_, by omega, ?_⟩
      · dsimp only
        rw [hlog', hlog, List.append_assoc]
      · dsimp only
        omega
      · dsimp only
        omega

theorem populateStrings_spec (dim : Dimension) (nel : Int) (s : AttState) (h : n.next ≤ r.size) :
    ∃ len es, Took r n (populateStrings r dim nel s n).2.1 len es := by
  obtain ⟨es, len, hlog, hquiet, hnext, hfits, hpos⟩ :=
    collectAll_spec (fun _ => collectString_spec) nel.toNat h
  unfold populateStrings
  dsimp only
  split
  · rename_i hns
    rw [setDimension2_next, hnext, Nat.add_sub_cancel_left]
    refine ⟨len, _, .of_att hquiet ?_ ?_ rfl hfits (hpos.1 hns) rfl⟩
    · rw [setDimension2_log, hlog]
    · rw [setDimension2_next, hnext]
  · rename_i hns
    have hlen : len = 0 := by omega
    refine ⟨0, es, .of_quiet hquiet ?_ ?_ h⟩
    · rw [setDimension2_log, hlog]
    · rw [setDimension2_next, hnext, hlen, Nat.add_zero]

theorem populateWstrings_spec (owner : List Nat) (dim : Dimension) (nel : Int) (s : AttState)
    (h : n.next ≤ r.size) :
    ∃ len es, Took r n (populateWstrings r owner dim nel s n).2.1 len es := by
  obtain ⟨es, len, hlog, hquiet, hnext, hfits, hpos⟩ :=
    collectAll_spec (fun _ => collectWstring_spec) nel.toNat h
  unfold populateWstrings
  dsimp only
  split
  · rename_i hns
    rw [setDimension2_next, hnext, Nat.add_sub_cancel_left]
    obtain ⟨es', hlog', hquiet', hnext'⟩ :=
      convWstringArray_spec (n := (setDimension2 dim _ s
        (collectAll (collectWstring r) nel.toNat n).1).2) owner hfits
    rw [setDimension2_log, hlog] at hlog'
    rw [setDimension2_next, hnext] at hnext'
    refine ⟨len, _, .of_att (quiet_append.2 ⟨hquiet, hquiet'⟩) (hlog'.trans ?_) hnext' rfl hfits
      (hpos.1 hns) ?_⟩
    · rw [List.append_assoc]
    · rw [hnext', Nat.add_sub_cancel_left]
  · rename_i hns
    have hlen : len = 0 := by omega
    refine ⟨0, es, .of_quiet hquiet ?_ ?_ h⟩
    · rw [setDimension2_log, hlog]
    · rw [setDimension2_next, hnext, hlen, Nat.add_zero]

/-! ### Arrays of scalars -/

def ArrayStep.nel (a : ArrayStep) : Int := toInt (toLong a.dim)

/-- The array does not go into the record, but its size as an `int` does. -/
def ArrayStep.wraps (r : Record) (a : ArrayStep) : Prop :=
  a.ty.isScalar = true ∧ 0 < a.nel ∧
    (r.size - a.start : Nat) < (archTypeInfo r.arch a.ty).size * a.nel ∧
    0 ≤ toInt ((archTypeInfo r.arch a.ty).size * a.nel) ∧
    toInt ((archTypeInfo r.arch a.ty).size * a.nel) ≤ (r.size - a.start : Nat)

instance (r : Record) (a : ArrayStep) : Decidable (a.wraps r) :=
  inferInstanceAs (Decidable (_ ∧ _ ∧ _ ∧ _ ∧ _))

theorem toInt_of_lt {x : Int} (h₀ : 0 ≤ x) (h : x < 2 ^ 31) : toInt x = x :=
  Int.bmod_eq_of_le (by omega) (by omega)

theorem toInt_lt (x : Int) : toInt x < 2 ^ 31 := Int.bmod_lt (by decide)

theorem le_toInt (x : Int) : -2 ^ 31 ≤ toInt x := Int.le_bmod (by decide)

/-- The size as a `size_t`, compared to the bytes that are left. -/
theorem short_iff (hleft : left ≤ posixLogEntryMaxlen) (x : Int) :
    left < (toInt x % 2 ^ 64).toNat ↔ toInt x < 0 ∨ (left : Int) < toInt x := by
  have hlt := toInt_lt x
  have hle := le_toInt x
  have hmax : posixLogEntryMaxlen = 8192 := rfl
  rcases lt_or_ge (toInt x) 0 with hneg | hpos
  · rw [← Int.add_emod_right, Int.emod_eq_of_lt (by omega) (by omega)]
    omega
  · rw [Int.emod_eq_of_lt hpos (by omega)]
    omega

theorem convScalarArray_spec (owner : List Nat) (ty : BaseType) {nel : Nat}
    (h : p + (archTypeInfo r.arch ty).size * nel ≤ r.size) :
    ∃ es, (convScalarArray r owner ty p nel n).1.log = n.log ++ es ∧ Quiet r es ∧
      (convScalarArray r owner ty p nel n).1.next = n.next := by
  unfold convScalarArray
  split
  · exact ⟨[], (List.append_nil _).symm, quiet_nil, rfl⟩
  · refine ⟨[.read p (nel * (archTypeInfo r.arch ty).size)] ++ [.alloc owner n.heap], ?_, ?_, rfl⟩
    · simp [Notes.alloc, Notes.emit]
    · rw [Nat.mul_comm] at h
      exact quiet_append.2 ⟨quiet_read h, quiet_alloc owner _⟩

/-- The number of elements in the end, with `left` bytes for them. -/
def scalarsCount (size left : Nat) (nel : Int) : Int :=
  if left < (toInt (size * nel) % 2 ^ 64).toNat then toInt (left / size : Nat) else nel

/-- Where the size is right, as many elements are taken as are asked for,
or as there are. -/
theorem scalarsCount_spec {nel : Int} (hpos : 0 < size) (hleft : left ≤ posixLogEntryMaxlen)
    (hwraps : 0 < nel → (left : Int) < size * nel →
      toInt (size * nel) < 0 ∨ (left : Int) < toInt (size * nel)) :
    size * (scalarsCount size left nel).toNat ≤ left ∧
      (0 < nel → scalarsCount size left nel = min nel (left / size : Nat)) := by
  have hmax : posixLogEntryMaxlen = 8192 := rfl
  have hdiv : size * (left / size) ≤ left := Nat.mul_div_le left size
  have hdivle : left / size ≤ left := Nat.div_le_self left size
  have hsmall : toInt (left / size : Nat) = (left / size : Nat) :=
    toInt_of_lt (Int.natCast_nonneg _) (by omega)
  unfold scalarsCount
  split
  · rename_i hshort
    rw [short_iff hleft] at hshort
    rw [hsmall, Int.toNat_natCast]
    refine ⟨hdiv, fun hnel => (min_eq_right ?_).symm⟩
    -- the size is not the one of an array that goes into the record
    by_contra hlt
    have hmul : (size : Int) * nel ≤ size * (left / size : Nat) :=
      Int.mul_le_mul_of_nonneg_left (by omega) (by omega)
    have hnonneg : 0 ≤ (size : Int) * nel := Int.mul_nonneg (by omega) (by omega)
    have hle : (size : Int) * nel ≤ left := hmul.trans (by exact_mod_cast hdiv)
    rw [toInt_of_lt hnonneg (by omega)] at hshort
    omega
  · rename_i hshort
    rw [short_iff hleft] at hshort
    have hfits : 0 < nel → (size : Int) * nel ≤ left := fun hnel => by
      by_contra hlt
      exact hshort (hwraps hnel (by omega))
    rcases le_or_gt nel 0 with hnel | hnel
    · rw [Int.toNat_of_nonpos hnel]
      exact ⟨by omega, fun h => by omega⟩
    · obtain ⟨k, rfl⟩ := Int.eq_ofNat_of_zero_le hnel.le
      have hk : size * k ≤ left := by exact_mod_cast hfits hnel
      refine ⟨by simpa using hk, fun _ => (min_eq_left ?_).symm⟩
      rw [Nat.mul_comm] at hk
      exact_mod_cast (Nat.le_div_iff_mul_le hpos).2 hk

theorem scalarsCount_of_wraps {nel : Int} (hleft : left ≤ posixLogEntryMaxlen)
    (h₀ : 0 ≤ toInt (size * nel)) (h : toInt (size * nel) ≤ left) :
    scalarsCount size left nel = nel := by
  rw [scalarsCount, if_neg]
  rw [short_iff hleft]
  omega

theorem populateScalars_eq (owner : List Nat) (ty : BaseType) (dim : Dimension) (nel : Int)
    (s : AttState) (hsize : size = (archTypeInfo r.arch ty).size) {count : Int}
    (hcount : count = scalarsCount size (bytesRemaining r n.next) nel) :
    ∃ n₁ : Notes, n₁.next = n.next ∧ n₁.log = n.log ∧
      (bytesRemaining r n.next < (toInt (size * nel) % 2 ^ 64).toNat ∨
        n₁.outOfData = n.outOfData) ∧
      (populateScalars r owner ty dim nel s n).2 =
        if 0 < count then
          (((convScalarArray r owner ty n.next count.toNat n₁).1.setNext
            (n.next + toInt (size * count)).toNat).emit (.att n.next (size * count.toNat)), count)
        else (n₁, count) := by
  subst hsize
  obtain ⟨n₀, hn₀⟩ : ∃ n₀, n₀ =
      if bytesRemaining r n.next < (toInt ((archTypeInfo r.arch ty).size * nel) % 2 ^ 64).toNat then
        n.out
      else n := ⟨_, rfl⟩
  have hnext : n₀.next = n.next := by
    rw [hn₀]
    split <;> rfl
  have hlog : n₀.log = n.log := by
    rw [hn₀]
    split <;> rfl
  refine ⟨(setDimension2 dim count s n₀).2, ?_, ?_, ?_, ?_⟩
  · rw [setDimension2_next, hnext]
  · rw [setDimension2_log, hlog]
  · rw [setDimension2_outOfData, hn₀]
    split
    · rename_i hshort
      exact .inl hshort
    · exact .inr rfl
  · rw [scalarsCount] at hcount
    unfold populateScalars
    dsimp only
    rw [← hcount, ← hn₀, setDimension2_next, hnext]
    split <;> rfl

theorem populateScalars_took (owner : List Nat) (ty : BaseType) (dim : Dimension) (nel : Int)
    (s : AttState) (h : n.next ≤ r.size)
    (hwraps : 0 < nel → (r.size - n.next : Nat) < (archTypeInfo r.arch ty).size * nel →
      toInt ((archTypeInfo r.arch ty).size * nel) < 0 ∨
        (r.size - n.next : Nat) < toInt ((archTypeInfo r.arch ty).size * nel)) :
    ∃ len es, Took r n (populateScalars r owner ty dim nel s n).2.1 len es := by
  have hpos := size_pos r.arch ty
  have hsize := r.size_le
  have hmax : posixLogEntryMaxlen = 8192 := rfl
  obtain ⟨n₁, hnext, hlog, -, heq⟩ := populateScalars_eq (r := r) (n := n) owner ty dim nel s rfl rfl
  obtain ⟨hfits, -⟩ := scalarsCount_spec hpos (by omega) hwraps
  rw [bytesRemaining_of_le h] at heq
  rw [heq]
  generalize scalarsCount (archTypeInfo r.arch ty).size (r.size - n.next) nel = count at *
  split
  · rename_i hcount
    obtain ⟨k, rfl⟩ := Int.eq_ofNat_of_zero_le hcount.le
    rw [Int.toNat_natCast] at hfits ⊢
    have hlen : 0 < (archTypeInfo r.arch ty).size * k := Nat.mul_pos hpos (by omega)
    have hend : n.next + (archTypeInfo r.arch ty).size * k ≤ r.size := by omega
    obtain ⟨es, hes, hquiet, -⟩ := convScalarArray_spec (n := n₁) owner ty hend
    have hmove : (n.next + toInt ((archTypeInfo r.arch ty).size * k)).toNat =
        n.next + (archTypeInfo r.arch ty).size * k := by
      rw [toInt_of_lt (by exact_mod_cast hlen.le) (by exact_mod_cast (by omega))]
      exact_mod_cast Int.toNat_natCast _
    rw [hmove]
    refine ⟨_, _, .of_att (quiet_append.2 ⟨hquiet, quiet_next hend⟩) ?_ (setNext_next _ _) rfl
      hend hlen rfl⟩
    rw [setNext_log, hes, hlog, List.append_assoc]
  · exact ⟨0, [], .of_quiet quiet_nil (by rw [hlog, List.append_nil]) hnext h⟩

theorem convScalarArray_log (owner : List Nat) (ty : BaseType) (p nel : Nat) :
    ∃ es, (convScalarArray r owner ty p nel n).1.log = n.log ++ es ∧ ∀ e ∈ es, e.Plain := by
  unfold convScalarArray
  split
  · exact ⟨[], (List.append_nil _).symm, by simp⟩
  · refine ⟨[.read p (nel * (archTypeInfo r.arch ty).size)] ++ [.alloc owner n.heap], ?_, ?_⟩
    · simp [Notes.alloc, Notes.emit]
    · simp [Event.Plain]

/-- An array that has taken too much. -/
structure Overflowed (r : Record) (n n' : Notes) : Prop where
  next : n.next ≤ n'.next ∧ n'.next ≤ r.size
  log : ∃ es, n'.log = n.log ++ es ∧ (∀ e ∈ es, e.Plain) ∧
    ∃ p len, .att p len ∈ es ∧ r.size < p + len

theorem populateScalars_overflowed (owner : List Nat) (ty : BaseType) (dim : Dimension) (nel : Int)
    (s : AttState) (h : n.next ≤ r.size) (hnel : 0 < nel)
    (hsmall : (r.size - n.next : Nat) < (archTypeInfo r.arch ty).size * nel)
    (h₀ : 0 ≤ toInt ((archTypeInfo r.arch ty).size * nel))
    (hle : toInt ((archTypeInfo r.arch ty).size * nel) ≤ (r.size - n.next : Nat)) :
    Overflowed r n (populateScalars r owner ty dim nel s n).2.1 := by
  have hsize := r.size_le
  obtain ⟨n₁, -, hlog, -, heq⟩ := populateScalars_eq (r := r) (n := n) owner ty dim nel s rfl rfl
  rw [bytesRemaining_of_le h, scalarsCount_of_wraps (by omega) h₀ hle, if_pos hnel] at heq
  rw [heq]
  refine ⟨?_, ?_⟩
  · rw [emit_next, setNext_next]
    omega
  · obtain ⟨k, rfl⟩ := Int.eq_ofNat_of_zero_le hnel.le
    obtain ⟨es, hes, hplain⟩ := convScalarArray_log (r := r) (n := n₁) owner ty n.next k
    rw [emit_log, setNext_log, Int.toNat_natCast, hes, hlog, List.append_assoc, List.append_assoc]
    refine ⟨_, rfl, ?_, n.next, (archTypeInfo r.arch ty).size * k, by simp, ?_⟩
    · simpa [List.forall_mem_append, Event.Plain, or_imp, forall_and] using hplain
    · have : r.size - n.next < (archTypeInfo r.arch ty).size * k := by exact_mod_cast hsmall
      omega

/-! ### Arrays of all kinds -/

def populateElems (r : Record) (owner : List Nat) (ty : BaseType) (dim : Dimension) (nel : Int)
    (s : AttState) (n : Notes) : AttState × Notes × Int :=
  match ty with
  | .string => populateStrings r dim nel s n
  | .wstring => populateWstrings r owner dim nel s n
  | ty => populateScalars r owner ty dim nel s n

theorem populateArray_cases (heapAddr : Nat → Nat) (owner : List Nat) (ty : BaseType)
    (dim : Dimension) (delim : Option Delimiter) (env : Env) (s : AttState) :
    ∃ s₁ n₁, n₁.next = n.next ∧ n₁.outOfData = n.outOfData ∧ n₁.log = n.log ∧
      ((dim.type.value heapAddr env (bytesRemaining r n.next) = none ∧
          populateArray heapAddr r owner ty dim delim env s n = (s₁, n₁, .stop .assertion)) ∨
        ∃ d, dim.type.value heapAddr env (bytesRemaining r n.next) = some d ∧
          ((dim.type.fromAtt = true ∧ toInt (toLong d) ≤ 0 ∧
              populateArray heapAddr r owner ty dim delim env s n =
                (s₁, n₁.emit (.array ⟨dim.type.fromAtt, ty, n.next, d, 0⟩), .next)) ∨
            (¬(dim.type.fromAtt = true ∧ toInt (toLong d) ≤ 0) ∧
              populateArray heapAddr r owner ty dim delim env s n =
                ((populateElems r owner ty dim (toInt (toLong d)) s₁ n₁).1,
                  (populateElems r owner ty dim (toInt (toLong d)) s₁ n₁).2.1.emit
                    (.array ⟨dim.type.fromAtt, ty, n.next, d,
                      (populateElems r owner ty dim (toInt (toLong d)) s₁ n₁).2.2⟩), .next)))) := by
  refine ⟨(populateDelimiter env delim s n).1, (populateDelimiter env delim s n).2,
    populateDelimiter_next .., populateDelimiter_outOfData .., populateDelimiter_log .., ?_⟩
  unfold populateArray
  dsimp only
  cases dim.type.value heapAddr env (bytesRemaining r n.next) with
  | none => exact .inl ⟨rfl, rfl⟩
  | some d =>
    refine .inr ⟨d, rfl, ?_⟩
    dsimp only
    split
    · rename_i h
      exact .inl ⟨h.1, h.2, rfl⟩
    · rename_i h
      refine .inr ⟨h, ?_⟩
      cases ty <;> rfl

inductive TookArray (r : Record) (ty : BaseType) (n n' : Notes) : Flow → Prop
  | stop (hlog : n'.log = n.log) (hnext : n'.next = n.next) : TookArray r ty n n' (.stop .assertion)
  | took {m : Notes} {len : Nat} {es : List Event} (a : ArrayStep) (hty : a.ty = ty)
      (hstart : a.start = n.next) (hwraps : ¬a.wraps r) (htook : Took r n m len es)
      (heq : n' = m.emit (.array a)) : TookArray r ty n n' .next
  | overflowed {m : Notes} (a : ArrayStep) (hty : a.ty = ty) (hstart : a.start = n.next)
      (hwraps : a.wraps r) (hover : Overflowed r n m) (heq : n' = m.emit (.array a)) :
      TookArray r ty n n' .next

theorem populateElems_scalar (owner : List Nat) {ty : BaseType} (hty : ty.isScalar = true)
    (dim : Dimension) (nel : Int) (s : AttState) :
    populateElems r owner ty dim nel s n = populateScalars r owner ty dim nel s n := by
  cases ty <;> first | rfl | cases hty

/-- The elements of an array are taken, or there are too many. -/
theorem populateElems_spec (owner : List Nat) (dim : Dimension) (s : AttState)
    (h : n.next ≤ r.size) (a : ArrayStep) (hstart : a.start = n.next) :
    (¬a.wraps r ∧ ∃ len es, Took r n (populateElems r owner a.ty dim a.nel s n).2.1 len es) ∨
      (a.wraps r ∧ Overflowed r n (populateElems r owner a.ty dim a.nel s n).2.1) := by
  by_cases hty : a.ty.isScalar = true
  · rw [populateElems_scalar owner hty]
    by_cases hwraps : a.wraps r
    · refine .inr ⟨hwraps, ?_⟩
      obtain ⟨-, hnel, hsmall, h₀, hle⟩ := hwraps
      rw [hstart] at hsmall hle
      exact populateScalars_overflowed owner a.ty dim a.nel s h hnel hsmall h₀ hle
    · refine .inl ⟨hwraps, populateScalars_took owner a.ty dim a.nel s h fun hnel hsmall => ?_⟩
      by_contra hno
      rw [not_or, not_lt, not_lt] at hno
      rw [← hstart] at hsmall hno
      exact hwraps ⟨hty, hnel, hsmall, hno.1, hno.2⟩
  · refine .inl ⟨fun hwraps => hty hwraps.1, ?_⟩
    cases hcase : a.ty with
    | string => exact populateStrings_spec dim a.nel s h
    | wstring => exact populateWstrings_spec owner dim a.nel s h
    | _ =>
      rw [hcase] at hty
      exact absurd rfl hty

theorem populateArray_spec (heapAddr : Nat → Nat) (owner : List Nat) (ty : BaseType)
    (dim : Dimension) (delim : Option Delimiter) (env : Env) (s : AttState) (h : n.next ≤ r.size) :
    TookArray r ty n (populateArray heapAddr r owner ty dim delim env s n).2.1
      (populateArray heapAddr r owner ty dim delim env s n).2.2 := by
  obtain ⟨s₁, n₁, hnext, -, hlog, hcases⟩ :=
    populateArray_cases (r := r) (n := n) heapAddr owner ty dim delim env s
  rcases hcases with ⟨-, heq⟩ | ⟨d, -, ⟨-, hnel, heq⟩ | ⟨-, heq⟩⟩
  · rw [heq]
    exact .stop hlog hnext
  · rw [heq]
    refine .took ⟨_, ty, n.next, d, 0⟩ rfl rfl (fun hwraps => ?_)
      (.of_quiet quiet_nil (by rw [hlog, List.append_nil]) hnext h) rfl
    have : 0 < toInt (toLong d) := hwraps.2.1
    omega
  · rw [heq]
    generalize (populateElems r owner ty dim (toInt (toLong d)) s₁ n₁).2.2 = count
    have hspec := populateElems_spec (n := n₁) owner dim s₁ (hnext ▸ h)
      ⟨dim.type.fromAtt, ty, n.next, d, count⟩ hnext.symm
    rcases hspec with ⟨hwraps, len, es, htook⟩ | ⟨hwraps, hover⟩
    · obtain ⟨hl, hn, hfits, hin, hplain, hranges⟩ := htook
      rw [hnext] at hn hfits hranges
      rw [hlog] at hl
      exact .took ⟨dim.type.fromAtt, ty, n.next, d, count⟩ rfl rfl hwraps
        ⟨hl, hn, hfits, hin, hplain, hranges⟩ rfl
    · refine .overflowed ⟨dim.type.fromAtt, ty, n.next, d, count⟩ rfl rfl hwraps ?_ rfl
      obtain ⟨hn, hl⟩ := hover
      rw [hnext] at hn
      rw [hlog] at hl
      exact ⟨hn, hl⟩

/-! ## Bit-fields -/

def storageUnit (r : Record) (base : Nat) (ty : BaseType) (width : Nat) (l : Loop) : Loop :=
  if startsUnit (8 * (archTypeInfo r.arch ty).size) base l.bfStart l.bfOffset width then
    let n :=
      alignNextPtr r base (archTypeInfo r.arch ty).align
        (adjustNextPerBitFields l.notes l.bfStart l.bfOffset)
    { l with notes := n, bfStart := n.next, bfOffset := 0 }
  else l

def takeBits (r : Record) (base : Nat) (ty : BaseType) (width : Nat) (name : Option String)
    (s : AttState) (l : Loop) : AttState × Loop :=
  let sn :=
    if name.isSome then extractDataFromBitField r base ty l.bfStart l.bfOffset width s l.notes
    else (s, l.notes)
  if 32 ≤ l.bfOffset + width then
    (sn.1,
      { l with
        notes := sn.2.setNext (sn.2.next + 4)
        bfStart := sn.2.next + 4
        bfOffset := l.bfOffset + width - 32 })
  else (sn.1, { l with notes := sn.2, bfOffset := l.bfOffset + width })

def Loop.noted (l : Loop) (base : Nat) (ty : BaseType) (width : Nat) : Loop :=
  { l with notes := l.notes.emit (.bitField ⟨base, l.notes.next, l.bfStart, l.bfOffset, ty, width⟩) }

def zeroWidthEnd (r : Record) (base : Nat) (ty : BaseType) (l : Loop) : Nat :=
  alignDataPtr (l.bfStart + bitsToBytes l.bfOffset) base (archTypeInfo r.arch ty).size

theorem populateBitField_eq (base : Nat) (ty : BaseType) (width : Nat) (name : Option String)
    (s : AttState) (l : Loop) :
    populateBitField r base ty width name s l =
      if width = 0 then
        if r.size ≤ zeroWidthEnd r base ty l then (s, outOfData r (l.noted base ty width))
        else
          (s, { l.noted base ty width with bfOffset := 8 * (zeroWidthEnd r base ty l - l.bfStart) })
      else
        let l := storageUnit r base ty width (l.noted base ty width)
        if bytesRemaining r l.bfStart < bitsToBytes (l.bfOffset + width) then (s, outOfData r l)
        else takeBits r base ty width name s l := by
  unfold populateBitField
  by_cases hw : width = 0
  · rw [if_pos hw, if_pos hw]
    rfl
  · rw [if_neg hw, if_neg hw]
    rfl

end Evlog.Template
