/-
Evlog.Template.CountTheorems — how many elements an array has whose
dimension comes from the record.

As many as the attribute says, or as there is room for
(`ArrayStep.expected`). The number goes through a `long` and an `int`, and
the size of the array in bytes is an `int` again, so that this is so for
numbers that survive both (`ArrayStep.Narrow`), and for no others
(`populateRecord_count_iff`).
-/
import Evlog.Template.RunTheorems

namespace Evlog.Template

open Evlog.Lib Evlog.Posix

variable {r : Record} {n : Notes}

/-! ## The strings of a record -/

/-- The complete strings in the first `n` bytes from `p` on. -/
def completeStrings (r : Record) (p : Nat) : Nat → Nat
  | 0 => 0
  | n + 1 => (if r.mem p = 0 then 1 else 0) + completeStrings r (p + 1) n

/-- The complete wide strings in the first `n` wide characters from `p`
on. -/
def completeWstrings (r : Record) (p : Nat) : Nat → Nat
  | 0 => 0
  | n + 1 =>
    (if r.bytesAt p wcharSize = List.replicate wcharSize 0 then 1 else 0) +
      completeWstrings r (p + wcharSize) n

variable {p left len : Nat}

theorem completeStrings_of_none (h : stringLength r p left = none) :
    completeStrings r p left = 0 := by
  induction left generalizing p with
  | zero => rfl
  | succ left ih =>
    rw [stringLength] at h
    split at h
    · cases h
    · rename_i hp
      rw [completeStrings, if_neg hp, ih (Option.map_eq_none_iff.1 h)]

theorem completeStrings_of_some (h : stringLength r p left = some len) :
    completeStrings r p left = completeStrings r (p + len) (left - len) + 1 := by
  induction left generalizing p len with
  | zero => cases h
  | succ left ih =>
    rw [stringLength] at h
    split at h
    · rename_i hp
      cases h
      rw [completeStrings, if_pos hp, Nat.add_comm]
      rfl
    · rename_i hp
      obtain ⟨k, hk, rfl⟩ := Option.map_eq_some_iff.1 h
      rw [completeStrings, if_neg hp, ih hk, Nat.zero_add, Nat.add_sub_add_right,
        show p + (k + 1) = p + 1 + k by omega]

theorem completeWstrings_of_none (h : wstringLength r p left = none) :
    completeWstrings r p left = 0 := by
  induction left generalizing p with
  | zero => rfl
  | succ left ih =>
    rw [wstringLength] at h
    split at h
    · cases h
    · rename_i hp
      rw [completeWstrings, if_neg hp, ih (Option.map_eq_none_iff.1 h)]

theorem completeWstrings_of_some (h : wstringLength r p left = some len) :
    ∃ k, len = k * wcharSize ∧
      completeWstrings r p left = completeWstrings r (p + len) (left - k) + 1 := by
  induction left generalizing p len with
  | zero => cases h
  | succ left ih =>
    rw [wstringLength] at h
    split at h
    · rename_i hp
      cases h
      refine ⟨1, (Nat.one_mul _).symm, ?_⟩
      rw [completeWstrings, if_pos hp, Nat.add_comm]
      rfl
    · rename_i hp
      obtain ⟨len, hlen, rfl⟩ := Option.map_eq_some_iff.1 h
      obtain ⟨k, rfl, heq⟩ := ih hlen
      refine ⟨k + 1, (Nat.succ_mul _ _).symm, ?_⟩
      rw [completeWstrings, if_neg hp, heq, Nat.zero_add, Nat.add_sub_add_right,
        show p + (k * wcharSize + wcharSize) = p + wcharSize + k * wcharSize by omega]

/-- The loop finds as many strings as there are, where one that is found is
one less to find. -/
theorem collectAll_count {collect : Notes → Notes × Option Nat} (count : Notes → Nat)
    (hnext : ∀ n, n.next ≤ r.size → (collect n).1.next ≤ r.size)
    (hnone : ∀ n, n.next ≤ r.size → (collect n).2 = none → count n = 0)
    (hsome : ∀ n k, n.next ≤ r.size → (collect n).2 = some k → count n = count (collect n).1 + 1)
    (nel : Nat) (h : n.next ≤ r.size) : (collectAll collect nel n).2 = min nel (count n) := by
  induction nel generalizing n with
  | zero => exact (Nat.zero_min _).symm
  | succ nel ih =>
    have ih' := ih (hnext n h)
    have hn := hnone n h
    have hs := hsome n
    unfold collectAll
    generalize collect n = out at *
    obtain ⟨n', len⟩ := out
    cases len with
    | none => rw [hn rfl, Nat.min_zero]
    | some k =>
      rw [hs k h rfl, Nat.add_min_add_right]
      exact congrArg (· + 1) ih'

theorem collectStrings_count (nel : Nat) (h : n.next ≤ r.size) :
    (collectAll (collectString r) nel n).2 =
      min nel (completeStrings r n.next (r.size - n.next)) := by
  refine collectAll_count (fun n => completeStrings r n.next (r.size - n.next))
    (fun n h => (collectString_spec h).fits) (fun n h hlen => ?_) (fun n k h hlen => ?_) nel h
  · unfold collectString at hlen
    rw [bytesRemaining_of_le h] at hlen
    dsimp only at hlen
    split at hlen
    · rename_i heq
      exact completeStrings_of_none heq
    · cases hlen
  · unfold collectString at *
    rw [bytesRemaining_of_le h] at *
    dsimp only at *
    split at hlen
    · cases hlen
    · rename_i len heq
      rw [completeStrings_of_some heq, Nat.sub_sub]
      rfl

theorem collectWstrings_count (nel : Nat) (h : n.next ≤ r.size) :
    (collectAll (collectWstring r) nel n).2 =
      min nel (completeWstrings r n.next ((r.size - n.next) / wcharSize)) := by
  refine collectAll_count
    (fun n => completeWstrings r n.next ((r.size - n.next) / wcharSize))
    (fun n h => (collectWstring_spec h).fits) (fun n h hlen => ?_) (fun n k h hlen => ?_) nel h
  · unfold collectWstring at hlen
    rw [bytesRemaining_of_le h] at hlen
    dsimp only at hlen
    split at hlen
    · rename_i heq
      exact completeWstrings_of_none heq
    · cases hlen
  · unfold collectWstring at *
    rw [bytesRemaining_of_le h] at *
    dsimp only at *
    split at hlen
    · cases hlen
    · rename_i len heq
      obtain ⟨k, rfl, hcount⟩ := completeWstrings_of_some heq
      rw [hcount]
      dsimp only [setNext_next]
      rw [← Nat.sub_sub, Nat.mul_comm k, Nat.sub_mul_div]

/-! ## The number of elements -/

def ArrayStep.avail (r : Record) (a : ArrayStep) : Nat :=
  match a.ty with
  | .string => completeStrings r a.start (r.size - a.start)
  | .wstring => completeWstrings r a.start ((r.size - a.start) / wcharSize)
  | ty => (r.size - a.start) / (archTypeInfo r.arch ty).size

/-- As many elements as the attribute says, or as there is room for. -/
def ArrayStep.expected (r : Record) (a : ArrayStep) : Int :=
  if 0 < a.dim then min a.dim (a.avail r) else 0

/-- The number that the attribute says is an `int`, or as good as one: there
is no room for it and for what is left of it, or both say that there are
none. -/
def ArrayStep.Narrow (r : Record) (a : ArrayStep) : Prop :=
  a.dim = a.nel ∨ a.avail r = 0 ∨ (a.avail r ≤ a.dim ∧ a.avail r ≤ a.nel) ∨ (a.dim ≤ 0 ∧ a.nel ≤ 0)

/-- What the array branch does with a dimension from the record. -/
structure ArrayStep.Counted (r : Record) (a : ArrayStep) : Prop where
  none : a.nel ≤ 0 → a.count = 0
  some : 0 < a.nel → ¬a.wraps r → a.count = min a.nel (a.avail r)
  wraps : a.wraps r → a.count = a.nel

variable {a : ArrayStep}

theorem ArrayStep.avail_scalar (h : a.ty.isScalar = true) :
    a.avail r = (r.size - a.start) / (archTypeInfo r.arch a.ty).size := by
  obtain ⟨fromAtt, ty, start, dim, count⟩ := a
  cases ty <;> first | rfl | cases h

/-- An array with a wrong size has more elements than there is room for. -/
theorem ArrayStep.wraps.avail_lt (h : a.wraps r) : (a.avail r : Int) < a.nel := by
  obtain ⟨hty, hnel, hsmall, -, -⟩ := h
  obtain ⟨k, hk⟩ := Int.eq_ofNat_of_zero_le hnel.le
  rw [avail_scalar hty]
  rw [hk] at hsmall ⊢
  have hlt : r.size - a.start < (archTypeInfo r.arch a.ty).size * k := by exact_mod_cast hsmall
  exact_mod_cast Nat.div_lt_of_lt_mul hlt

/-- The array has the elements it should have if nothing is lost on the
way, and only then. -/
theorem ArrayStep.Counted.count_eq_iff (h : a.Counted r) :
    a.count = a.expected r ↔ a.Narrow r ∧ ¬a.wraps r := by
  unfold ArrayStep.expected ArrayStep.Narrow
  by_cases hwraps : a.wraps r
  · have hlt := hwraps.avail_lt
    have hcount := h.wraps hwraps
    refine ⟨fun heq => ?_, fun hno => absurd hwraps hno.2⟩
    split at heq <;> omega
  · have hnone := h.none
    have hsome := fun hnel => h.some hnel hwraps
    rw [and_iff_left hwraps]
    rcases le_or_gt a.nel 0 with hnel | hnel
    · rw [hnone hnel]
      split <;> omega
    · rw [hsome hnel]
      split <;> omega

/-! ## Every array of a run -/

theorem populateElems_count (owner : List Nat) (dim : Dimension) (s : AttState)
    (hstart : a.start = n.next) (h : n.next ≤ r.size) (hnel : 0 < a.nel) :
    (¬a.wraps r →
        (populateElems r owner a.ty dim a.nel s n).2.2 = min a.nel (a.avail r)) ∧
      (a.wraps r → (populateElems r owner a.ty dim a.nel s n).2.2 = a.nel) := by
  have hsize := r.size_le
  have hnat : (a.nel.toNat : Int) = a.nel := Int.toNat_of_nonneg hnel.le
  by_cases hty : a.ty.isScalar = true
  · rw [populateElems_scalar owner hty]
    obtain ⟨n₁, -, -, -, heq⟩ :=
      populateScalars_eq (r := r) (n := n) owner a.ty dim a.nel s rfl rfl
    rw [bytesRemaining_of_le h] at heq
    have hcount : (populateScalars r owner a.ty dim a.nel s n).2.2 =
        scalarsCount (archTypeInfo r.arch a.ty).size (r.size - n.next) a.nel := by
      rw [heq]
      split <;> rfl
    rw [hcount, ArrayStep.avail_scalar hty, hstart]
    refine ⟨fun hwraps => ?_, fun hwraps => ?_⟩
    · refine (scalarsCount_spec (size_pos r.arch a.ty) (by omega) fun hnel hsmall => ?_).2 hnel
      by_contra hno
      rw [not_or, not_lt, not_lt, ← hstart] at hno
      rw [← hstart] at hsmall
      exact hwraps ⟨hty, hnel, hsmall, hno.1, hno.2⟩
    · obtain ⟨-, -, -, h₀, hle⟩ := hwraps
      rw [hstart] at hle
      exact scalarsCount_of_wraps (by omega) h₀ hle
  · refine ⟨fun _ => ?_, fun hwraps => absurd hwraps.1 hty⟩
    obtain ⟨fromAtt, ty, start, dim', count⟩ := a
    dsimp only at hstart
    subst hstart
    cases ty with
    | string =>
      rw [← hnat, ← Nat.cast_min]
      unfold populateElems populateStrings
      dsimp only
      rw [collectStrings_count _ h]
      split <;> rfl
    | wstring =>
      rw [← hnat, ← Nat.cast_min]
      unfold populateElems populateWstrings
      dsimp only
      rw [collectWstrings_count _ h]
      split <;> rfl
    | _ => exact absurd rfl hty

/-- An array whose dimension comes from the record, and which starts in the
data, has the elements that its number and its size say. -/
def Event.Counted (r : Record) : Event → Prop
  | .array a => a.fromAtt = true → a.start ≤ r.size → a.Counted r
  | _ => True

theorem Event.NoArray.counted {e : Event} (h : e.NoArray) : e.Counted r := by
  cases e with
  | array a => exact h.elim
  | _ => trivial

theorem populateArray_counted (heapAddr : Nat → Nat) (owner : List Nat) (ty : BaseType)
    (dim : Dimension) (delim : Option Delimiter) (env : Env) (s : AttState)
    (hn : ∀ e ∈ n.log, e.Counted r) :
    ∀ e ∈ (populateArray heapAddr r owner ty dim delim env s n).2.1.log, e.Counted r := by
  obtain ⟨s₁, n₁, hnext, -, hlog, hcases⟩ :=
    populateArray_cases (r := r) (n := n) heapAddr owner ty dim delim env s
  rcases hcases with ⟨-, heq⟩ | ⟨d, -, ⟨-, hnel, heq⟩ | ⟨hnel, heq⟩⟩
  · rw [heq]
    exact hlog ▸ hn
  · rw [heq]
    dsimp only
    rw [emit_log, hlog]
    refine List.forall_mem_append.2 ⟨hn, List.forall_mem_singleton.2 fun _ _ => ?_⟩
    exact ⟨fun _ => rfl, fun hpos => absurd hnel (not_le.2 hpos),
      fun hwraps => absurd hnel (not_le.2 hwraps.2.1)⟩
  · rw [heq]
    dsimp only
    rw [emit_log]
    have hadds := adds_populateElems (r := r) (n := n₁) owner ty dim (toInt (toLong d)) s₁
    refine List.forall_mem_append.2 ⟨hadds.forall (fun e he => he.noArray.counted) (hlog ▸ hn), ?_⟩
    refine List.forall_mem_singleton.2 fun hfrom hstart => ?_
    dsimp only at hfrom hstart
    have hpos : 0 < toInt (toLong d) := by
      by_contra hle
      exact hnel ⟨hfrom, not_lt.1 hle⟩
    generalize hcount : (populateElems r owner ty dim (toInt (toLong d)) s₁ n₁).2.2 = count
    have hspec := populateElems_count (n := n₁) (r := r) owner dim s₁
      (a := ⟨dim.type.fromAtt, ty, n.next, d, count⟩) hnext.symm (hnext ▸ hstart) hpos
    exact ⟨fun hle => absurd hpos (not_lt.2 hle), fun _ hwraps => hcount.symm.trans (hspec.1 hwraps),
      fun hwraps => hcount.symm.trans (hspec.2 hwraps)⟩

theorem countInv_kept (heapAddr : Nat → Nat) (r : Record) :
    (eventsInv (Event.Counted r)).Kept anyShape heapAddr r :=
  eventsInv_kept (fun _ he => he.noArray.counted)
    (fun _ owner env s _ hn => populateArray_counted heapAddr owner _ _ _ env s hn)
    fun _ _ => trivial

/-- An array whose dimension comes from the record has as many elements
as that says, or as there is room for, if nothing is lost of the number,
and not if something is. -/
theorem populateRecord_count_iff (heapAddr : Nat → Nat) {t : Tmpl} (r : Record) (c : Clone t)
    (n : Notes) {a : ArrayStep} (ha : .array a ∈ populateLog heapAddr r c n)
    (hfrom : a.fromAtt = true) (hstart : a.start ≤ r.size) :
    a.count = a.expected r ↔ a.Narrow r ∧ ¬a.wraps r := by
  have hcounted : ∀ e ∈ populateLog heapAddr r c n, e.Counted r :=
    populateLog_forall (countInv_kept heapAddr r) (fun _ _ => trivial) trivial (Atts.has_any _ t.atts)
      c n
  exact (hcounted _ ha hfrom hstart).count_eq_iff

/-- `{ int n; int a[n]; }` -/
def countedInts : Tmpl where
  aligned := false
  atts :=
    .field (some "n") (.scalar .int)
      (.field (some "a") (.array .int ⟨0, .attr "n"⟩ none) .nil)

/-- Twelve bytes, and the number that the first four are. -/
def intsRecord (n : Nat) : Record :=
  ⟨0, fun i => UInt8.ofNat (n / 256 ^ i), 12, by decide, .noArch⟩

/-- Three elements are asked for, and there is room for two. -/
theorem populateRecord_count_three :
    (2 : Int) = ArrayStep.expected (intsRecord 3) ⟨true, .int, 4, 3, 2⟩ :=
  (populateRecord_count_iff (t := countedInts) (fun _ => 0) (intsRecord 3) (cloneTemplate _) .start
    (a := ⟨true, .int, 4, 3, 2⟩) (by decide) rfl (by decide)).2
    ⟨.inl (by decide), by decide⟩

/-- 2³⁰ + 1 elements are asked for, and there are that many. -/
theorem populateRecord_count_wraps : countedInts.accepted = true ∧
      .array ⟨true, .int, 4, 2 ^ 30 + 1, 2 ^ 30 + 1⟩ ∈
        populateLog (t := countedInts) (fun _ => 0) (intsRecord (2 ^ 30 + 1)) (cloneTemplate _) .start ∧
      (2 ^ 30 + 1 : Int) ≠
        ArrayStep.expected (intsRecord (2 ^ 30 + 1)) ⟨true, .int, 4, 2 ^ 30 + 1, 2 ^ 30 + 1⟩ :=
  ⟨by decide, by decide, by decide⟩

end Evlog.Template
