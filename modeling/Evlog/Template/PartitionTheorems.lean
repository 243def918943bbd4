/-
Evlog.Template.PartitionTheorems — an unaligned template divides the record
among its attributes.

Without alignments and bit-fields each attribute starts where the one
before it ends, in all structs and arrays of structs too, and what no
attribute has taken goes to `_EXTRA_DATA_` (`Partitioned`). The one thing
that can go wrong is an array of scalars with a wrong size
(`ArrayStep.wraps`).
-/
import Evlog.Lib.Ranges
import Evlog.Template.BlockTheorems
import Evlog.Template.CountTheorems

namespace Evlog.Template

open Evlog.Lib Evlog.Posix

variable {r : Record} {n n' : Notes}

/-! ## Unaligned templates -/

/-- Neither a template nor one in it is aligned, and there are no
bit-fields. -/
def unalignedShape : Shape where
  tmpl aligned := aligned = false
  field
    | _, _, .bitField _ _ => False
    | _, _, _ => True
  nests _ _ := True
  dim _ _ := True

def Tmpl.Unaligned (t : Tmpl) : Prop := t.aligned = false ∧ t.atts.Has unalignedShape t.aligned

/-! ## The parts of a record -/

/-- The bytes of `_EXTRA_DATA_`. -/
def Event.extraRange : Event → Option (Nat × Nat)
  | .extra p n => some (p, n)
  | _ => none

def extras (es : List Event) : List (Nat × Nat) := es.filterMap Event.extraRange

/-- The attributes have consecutive parts of the record from the start on,
and `_EXTRA_DATA_` has the rest, if there is one. -/
structure PartitionedAt (r : Record) (es : List Event) (e : Nat) : Prop where
  consecutive : Consecutive 0 (ranges es) e
  le : e ≤ r.size
  extra : extras es = if e < r.size then [(e, r.size - e)] else []

/-- The record is divided among its attributes and `_EXTRA_DATA_`, and all
parts together are the record. -/
structure Partitioned (r : Record) (es : List Event) : Prop where
  parts : ∃ e, PartitionedAt r es e
  disjoint : (ranges es ++ extras es).Pairwise fun x y => x.1 + x.2 ≤ y.1
  concat : (ranges es ++ extras es).flatMap (fun x => r.bytesAt x.1 x.2) = r.bytesAt 0 r.size

variable {es : List Event}

theorem PartitionedAt.partitioned {e : Nat} (h : PartitionedAt r es e) : Partitioned r es := by
  have hall : Consecutive 0 (ranges es ++ extras es) r.size := by
    refine h.consecutive.append ?_
    have hle := h.le
    rw [h.extra]
    split
    · have hrest := consecutive_singleton (p := e) (r.size - e)
      rwa [show e + (r.size - e) = r.size by omega] at hrest
    · rw [show r.size = e by omega]
      exact consecutive_nil
  exact ⟨⟨e, h⟩, hall.pairwise, hall.flatMap r.mem⟩

/-! ## The invariant -/

/-- The attributes so far have consecutive parts, up to `pn_next`. -/
structure Divided (r : Record) (n : Notes) : Prop where
  consecutive : Consecutive 0 (ranges n.log) n.next
  next : n.next ≤ r.size
  extras : extras n.log = []
  good : ∀ e ∈ n.log, e.Good r

/-- An array was given a wrong size, and has bytes behind the data. -/
structure Spilled (r : Record) (es : List Event) : Prop where
  bad : ∃ e ∈ es, ¬e.Good r
  att : ∃ p len, .att p len ∈ es ∧ r.size < p + len

def partitionInv (r : Record) : RunInv where
  loop aligned _ l := aligned = false ∧ (Divided r l.notes ∨ Spilled r l.notes.log)
  notes n := Divided r n ∨ Spilled r n.log
  stop _ := True

theorem Spilled.mono (hgrows : Grows n n') (h : Spilled r n.log) : Spilled r n'.log := by
  obtain ⟨⟨e, he, hbad⟩, p, len, hatt, hlt⟩ := h
  exact ⟨⟨e, hgrows.mem he, hbad⟩, p, len, hgrows.mem hatt, hlt⟩

theorem mem_ranges {p len : Nat} (h : .att p len ∈ es) : (p, len) ∈ ranges es :=
  List.mem_filterMap.2 ⟨_, h, rfl⟩

/-- Where bytes behind the data belong to an attribute, the record is not
divided. -/
theorem Spilled.not_partitioned (h : Spilled r es) : ¬Partitioned r es := by
  rintro ⟨⟨e, hparts⟩, -, -⟩
  obtain ⟨p, len, hatt, hlt⟩ := h.att
  have hend := (hparts.consecutive.mem (mem_ranges hatt)).2
  have hle := hparts.le
  dsimp only at hend
  omega

/-! ## The run -/

theorem extras_append (es es' : List Event) : extras (es ++ es') = extras es ++ extras es' :=
  List.filterMap_append

theorem extras_of_plain (h : ∀ e ∈ es, e.Plain) : extras es = [] := by
  refine List.filterMap_eq_nil_iff.2 fun e he => ?_
  have hplain := h e he
  cases e <;> first | rfl | exact hplain.elim

theorem Divided.of_eq (h : Divided r n) (hnext : n'.next = n.next) (hlog : n'.log = n.log) :
    Divided r n' :=
  ⟨hlog ▸ hnext ▸ h.consecutive, hnext ▸ h.next, hlog ▸ h.extras, hlog ▸ h.good⟩

theorem Divided.took (h : Divided r n) {len : Nat} (htook : Took r n n' len es) : Divided r n' := by
  refine ⟨?_, ?_, ?_, ?_⟩
  · rw [htook.log, htook.next, ranges_append]
    refine h.consecutive.append ?_
    rw [htook.ranges]
    split
    · rename_i hlen
      rw [hlen]
      exact consecutive_nil
    · exact consecutive_singleton len
  · rw [htook.next]
    exact htook.fits
  · rw [htook.log, extras_append, h.extras, extras_of_plain htook.plain]
    rfl
  · rw [htook.log]
    exact List.forall_mem_append.2 ⟨h.good, fun e he => (htook.plain e he).good⟩

theorem Divided.log (h : Divided r n) (hranges : ranges es = []) (hplain : ∀ e ∈ es, e.Plain) :
    Divided r { n with log := n.log ++ es } := by
  refine ⟨?_, h.next, ?_, ?_⟩
  · rw [ranges_append, hranges, List.append_nil]
    exact h.consecutive
  · rw [extras_append, h.extras, extras_of_plain hplain]
    rfl
  · exact List.forall_mem_append.2 ⟨h.good, fun e he => (hplain e he).good⟩

theorem Divided.array (h : Divided r n) {a : ArrayStep} (ha : ¬a.wraps r) :
    Divided r (n.emit (.array a)) := by
  refine ⟨?_, h.next, ?_, ?_⟩
  · rw [emit_log, ranges_append]
    exact h.consecutive.append consecutive_nil
  · rw [emit_log, extras_append, h.extras]
    rfl
  · exact List.forall_mem_append.2 ⟨h.good, List.forall_mem_singleton.2 ha⟩

theorem Overflowed.spilled {m : Notes} (h : Overflowed r n m) {a : ArrayStep} (ha : a.wraps r) :
    Spilled r (m.emit (.array a)).log := by
  obtain ⟨es, hlog, -, p, len, hmem, hlt⟩ := h.log
  rw [emit_log, hlog]
  exact ⟨⟨.array a, by simp, fun hgood => hgood ha⟩, p, len, by simp [hmem], hlt⟩

theorem partitionInv_kept (heapAddr : Nat → Nat) (r : Record) :
    (partitionInv r).Kept unalignedShape heapAddr r where
  enter ht h := ⟨ht, h⟩
  env _ h := h
  out := by
    rintro aligned base l ⟨haligned, h | h⟩
    · exact ⟨haligned, .inl (h.of_eq rfl rfl)⟩
    · exact ⟨haligned, .inr h⟩
  start := by
    rintro aligned base l a ⟨rfl, h⟩
    exact h
  resume := by
    rintro aligned base n₀ n l ⟨rfl, -⟩ - - hn
    exact ⟨⟨rfl, hn⟩, rfl, hn⟩
  value := by
    intro aligned name n owner ty s _ h
    rcases h with h | h
    · obtain ⟨len, es, htook⟩ := (populateValue_spec owner ty s h.next).took
      exact .inl (h.took htook)
    · exact .inr (h.mono (adds_populateValue owner ty s).grows)
  array := by
    intro aligned name n owner ty dim delim env s _ h
    rcases h with h | h
    · have hspec := populateArray_spec heapAddr owner ty dim delim env s h.next
      generalize populateArray heapAddr r owner ty dim delim env s n = out at *
      obtain ⟨s', n', flow⟩ := out
      dsimp only at hspec
      cases hspec with
      | stop hlog hnext => trivial
      | took a hty hstart hwraps htook heq =>
        rw [heq]
        exact .inl ((h.took htook).array hwraps)
      | overflowed a hty hstart hwraps hover heq =>
        rw [heq]
        exact .inr (hover.spilled hwraps)
    · have hbad := h.mono (grows_populateArray (r := r) heapAddr owner ty dim delim env s)
      generalize populateArray heapAddr r owner ty dim delim env s n = out at *
      obtain ⟨s', n', flow⟩ := out
      cases flow with
      | stop why => trivial
      | next => exact .inr hbad
      | leave => exact .inr hbad
  bits _ _ _ _ hf _ := hf.elim
  shared := by
    rintro n n' (h | h) hnext hlog
    · exact .inl (h.of_eq hnext hlog)
    · exact .inr (hlog ▸ h)
  struct := by
    rintro n₀ n - - (h | h)
    · exact .inl (h.log rfl (by simp [Event.Plain]))
    · exact .inr (h.mono (List.prefix_append _ _))
  frees := by
    rintro n es (h | h) hfrees
    · refine .inl (h.log (List.filterMap_eq_nil_iff.2 fun e he => ?_) fun e he => ?_)
      · obtain ⟨o, p, rfl⟩ := hfrees e he
        rfl
      · obtain ⟨o, p, rfl⟩ := hfrees e he
        trivial
    · exact .inr (h.mono (grows_log es))
  finish := by
    rintro aligned base l alignment minSize ⟨rfl, h⟩
    exact h
  stop _ := trivial

/-- Either the record is divided, or something is known not to be. -/
theorem partitioned_iff (h : ((∃ e, PartitionedAt r es e) ∧ ∀ e ∈ es, e.Good r) ∨ Spilled r es) :
    Partitioned r es ↔ ∀ e ∈ es, e.Good r := by
  rcases h with ⟨⟨e, hparts⟩, hgood⟩ | hspilled
  · exact ⟨fun _ => hgood, fun _ => hparts.partitioned⟩
  · refine ⟨fun hparts => absurd hparts hspilled.not_partitioned, fun hgood => ?_⟩
    obtain ⟨e, he, hbad⟩ := hspilled.bad
    exact absurd (hgood e he) hbad

/-- An unaligned template divides the record among its attributes and
`_EXTRA_DATA_`, as long as no array of scalars is given a wrong size, and
not any more if one is. -/
theorem populateRecord_partitioned_iff (heapAddr : Nat → Nat) {t : Tmpl} (ht : t.Unaligned)
    (r : Record) (c : Clone t) (n : Notes)
    (hflow : (populateRecord heapAddr r c { n with log := [] }).2.2 = .next) :
    Partitioned r (populateLog heapAddr r c n) ↔
      ∀ e ∈ populateLog heapAddr r c n, e.Good r := by
  refine partitioned_iff ?_
  have hn : (partitionInv r).notes { n with next := 0, outOfData := false, log := [] } :=
    .inl ⟨consecutive_nil, Nat.zero_le _, rfl, by simp⟩
  have hrun := ((partitionInv_kept heapAddr r).populateStruct ht.1 ht.2 [] c hn).2
  unfold populateLog
  rcases populateRecord_cases heapAddr r c { n with log := [] } with
    ⟨hsize, heq⟩ | ⟨-, c₁, n₁, env, flow, hout, hcases⟩
  · rw [heq]
    exact .inl ⟨⟨0, consecutive_nil, Nat.zero_le _, by rw [if_neg (by omega)]; rfl⟩, by simp⟩
  · rw [hout] at hrun
    rcases hcases with ⟨why, -, heq⟩ | ⟨hgoes, hge, heq⟩ | ⟨hgoes, hlt, heq⟩
    · rw [heq] at hflow
      cases hflow
    · rw [heq]
      rcases (partitionInv r).done_goes hgoes hrun with h | h
      · refine .inl ⟨⟨n₁.next, h.consecutive, h.next, ?_⟩, h.good⟩
        rw [if_neg (by omega)]
        exact h.extras
      · exact .inr h
    · rw [heq]
      rcases (partitionInv r).done_goes hgoes hrun with h | h
      · refine .inl ⟨⟨n₁.next, ?_, h.next, ?_⟩, ?_⟩
        · dsimp only [createExtraDataAtt]
          rw [ranges_append]
          exact h.consecutive.append consecutive_nil
        · dsimp only [createExtraDataAtt]
          rw [if_pos hlt, extras_append, h.extras]
          rfl
        · exact List.forall_mem_append.2 ⟨h.good, List.forall_mem_singleton.2 trivial⟩
      · exact .inr (h.mono (grows_log [.extra n₁.next (r.size - n₁.next)]))

/-! ### Two templates -/

/-- `{ int n; string s; int a[n]; }` -/
def numberedInts : Tmpl where
  aligned := false
  atts :=
    .field (some "n") (.scalar .int)
      (.field (some "s") (.scalar .string)
        (.field (some "a") (.array .int ⟨0, .attr "n"⟩ none) .nil))

/-- One `int` behind an empty string, and three bytes that are left. -/
theorem populateRecord_partitioned_ints : Partitioned (intsRecord 1)
      (populateLog (t := numberedInts) (fun _ => 0) (intsRecord 1) (cloneTemplate _) .start) :=
  (populateRecord_partitioned_iff (t := numberedInts) (fun _ => 0)
    ⟨rfl, trivial, trivial, trivial, trivial⟩ (intsRecord 1) (cloneTemplate _) .start
    (by decide)).2 (by decide)

/-- With 2³⁰ + 1 elements, the array has 2³² + 4 bytes. -/
theorem populateRecord_not_partitioned : numberedInts.accepted = true ∧ numberedInts.Unaligned ∧
      (populateRecord (t := numberedInts) (fun _ => 0) (intsRecord (2 ^ 30 + 1)) (cloneTemplate _)
        .start).2.2 = .next ∧
      ¬Partitioned (intsRecord (2 ^ 30 + 1))
        (populateLog (t := numberedInts) (fun _ => 0) (intsRecord (2 ^ 30 + 1)) (cloneTemplate _)
          .start) := by
  refine ⟨by decide, ⟨rfl, trivial, trivial, trivial, trivial⟩, by decide, ?_⟩
  have hatt : .att 5 (2 ^ 32 + 4) ∈ populateLog (t := numberedInts) (fun _ => 0)
      (intsRecord (2 ^ 30 + 1)) (cloneTemplate _) .start := by decide
  rintro ⟨⟨e, hparts⟩, -, -⟩
  have hend := (hparts.consecutive.mem (mem_ranges hatt)).2
  have hle : e ≤ 12 := hparts.le
  dsimp only at hend
  omega

end Evlog.Template
