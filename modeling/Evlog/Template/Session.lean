/-
Evlog.Template.Session — a clone goes from record to record.

A program shows one record after the other through a clone. It may
depopulate the clone in between, or leave that to `populateTemplate`. It
ends at `assert(0)`, and nothing more is known of it once `zapExtraDataAtt`
has freed an attribute that the master owns (`Vals.zaps`).

The arrays that were allocated for a clone are the clone's until they are
freed (`Session.Held`). A call keeps it so if the clone is settled when it
is depopulated, and if it is not, what is freed was not allocated. So all
that is freed was allocated for the attribute exactly if the clone is
settled at every call (`session_frees_iff`). It is not when an array of
strings is followed by a record in which the array does not start: the
attribute has the array of the record before then.
-/
import Evlog.Template.Structs
import Evlog.Lib.Transition
import Evlog.Template.HeapTheorems

namespace Evlog.Template

/-- What a program does with a clone. -/
inductive Call where
  | populate (r : Record)
  | depopulate

/-- A program, and its clone of a template. -/
structure Session (t : Tmpl) where
  clone : Clone t
  notes : Notes
  ended : Bool

def Session.start (t : Tmpl) : Session t := ⟨cloneTemplate t.atts, .start, false⟩

def Session.step (heapAddr : Nat → Nat) {t : Tmpl} (p : Session t) (call : Call) : Session t :=
  if p.ended then p
  else
    match call with
    | .depopulate =>
      match depopulateTemplate p.clone p.notes with
      | none => { p with ended := true }
      | some (clone, notes) => { p with clone, notes }
    | .populate r =>
      match populateTemplate heapAddr r p.clone p.notes with
      | none => { p with ended := true }
      | some (clone, notes, .stop _) => ⟨clone, notes, true⟩
      | some (clone, notes, _) => { p with clone, notes }

/-- When a template is depopulated, an attribute of it is taken for the one
that `populateTemplate` has made, or one of a struct is. -/
def zapsTmpl {α : Type} (atts : Atts) (zaps : α → Bool) (c : CloneOf α) : Bool :=
  c.populated && (c.extra.isNone && atts.endsInExtra || zaps c.atts)

def Vals.zaps : (atts : Atts) → Vals atts → Bool
  | .nil, _ => false
  | .field _ _ rest, (_, v) => Vals.zaps rest v
  | .struct _ _ sub rest, ((_, st), v) => st.any (zapsTmpl sub (Vals.zaps sub)) || Vals.zaps rest v
  | .structs _ _ sub _ _ rest, ((_, list), v) =>
    list.any (zapsTmpl sub (Vals.zaps sub)) || Vals.zaps rest v

def Session.zaps {t : Tmpl} (p : Session t) : Bool := zapsTmpl t.atts (Vals.zaps t.atts) p.clone

open Evlog.Lib Evlog.Posix

/-! ## When a clone cannot be depopulated -/

theorem depopulateTmpl_isNone {α : Type} {atts : Atts} {body : α → Option (α × List Event)}
    {zaps : α → Bool} (hbody : ∀ v, (body v).isNone = zaps v) (c : CloneOf α) :
    (depopulateTmpl atts body c).isNone = zapsTmpl atts zaps c := by
  unfold depopulateTmpl zapsTmpl
  cases c.populated with
  | false => rfl
  | true =>
    cases c.extra.isNone && atts.endsInExtra with
    | true => rfl
    | false =>
      rw [Bool.false_or, ← hbody c.atts]
      exact Option.isNone_map

theorem isNone_bind {α β : Type} {x : Option α} {f : α → Option β} {b : Bool}
    (hf : ∀ a, (f a).isNone = b) : (x.bind f).isNone = (x.isNone || b) := by
  cases x with
  | none => rfl
  | some a => exact hf a

theorem isNone_bind_some {α β : Type} {x : Option α} {f : α → Option β}
    (hf : ∀ a, (f a).isNone = false) : (x.bind f).isNone = x.isNone := by
  rw [isNone_bind hf, Bool.or_false]

theorem freeArrayOfStructs_isNone {α : Type} (free : Nat → CloneOf α → Option (List Event))
    {zaps : CloneOf α → Bool} (hfree : ∀ ns c, (free ns c).isNone = zaps c) (ns : Nat)
    (list : List (CloneOf α)) : (freeArrayOfStructs free ns list).isNone = list.any zaps := by
  induction list generalizing ns with
  | nil => rfl
  | cons c cs ih =>
    rw [List.any_cons, ← hfree ns c, ← ih (ns + 1)]
    exact isNone_bind fun _ => isNone_bind_some fun _ => rfl

theorem depopulateAtts_isNone (atts : Atts) (i : Nat) (path : List Nat) (v : Vals atts) :
    (depopulateAtts atts i path v).isNone = Vals.zaps atts v := by
  induction atts generalizing i path with
  | nil => rfl
  | field name f rest ih =>
    obtain ⟨s, v⟩ := v
    rw [Vals.zaps, ← ih (i + 1) path v]
    exact isNone_bind_some fun _ => rfl
  | struct name al sub rest ihsub ihrest =>
    obtain ⟨⟨s, st⟩, v⟩ := v
    rw [Vals.zaps, ← ihrest (i + 1) path v]
    cases st with
    | none => exact isNone_bind_some fun _ => rfl
    | some c =>
      rw [Option.any_some, ← depopulateTmpl_isNone (fun v => ihsub 0 (i :: path) v) c,
        ← Option.isNone_map (f := fun out : CloneOf (Vals sub) × List Event => (some out.1, out.2))]
      exact isNone_bind fun _ => isNone_bind_some fun _ => rfl
  | structs name al sub dim delim rest ihsub ihrest =>
    obtain ⟨⟨s, list⟩, v⟩ := v
    rw [Vals.zaps, ← ihrest (i + 1) path v]
    rw [← freeArrayOfStructs_isNone (freeStruct sub (i :: path)) (fun ns c => ?_) 0 list]
    · exact isNone_bind fun _ => isNone_bind_some fun _ => rfl
    · rw [← depopulateTmpl_isNone (fun v => ihsub 0 (ns :: i :: path) v) c]
      exact Option.isNone_map

theorem depopulateTemplate_isNone {t : Tmpl} (p : Session t) :
    (depopulateTemplate p.clone p.notes).isNone = p.zaps := by
  unfold depopulateTemplate
  rw [Option.isNone_map]
  exact depopulateTmpl_isNone (fun v => depopulateAtts_isNone t.atts 0 [] v) p.clone

/-! ## Calls -/

section Calls

variable {heapAddr : Nat → Nat} {t : Tmpl}

/-- The arrays that were allocated for the clone are its own. -/
def Session.Held (p : Session t) : Prop := p.notes.Held (Vals.ptrs t.atts 0 [] p.clone.atts)

/-- All that was freed had been allocated for the attribute, and was not freed before. -/
def Session.Proper (p : Session t) : Prop := HeapEvent.Proper (heapEvents p.notes.log)

/-- Whatever array attribute points into a record, points to where it starts in the record that the
clone has. This is about a clone that is populated, and no attribute of the template is in the
place of `_EXTRA_DATA_`. -/
def Session.Settled (p : Session t) : Prop :=
  p.ended = true ∨ p.zaps = true ∨
    (p.clone.populated = true → Vals.Settled t.atts p.clone.atts)

theorem Session.start_held (t : Tmpl) : (Session.start t).Held := by
  unfold Session.Held Session.start cloneTemplate
  dsimp only
  rw [Vals.ptrs_fresh]
  exact HeapEvent.held_start

variable {c c' : Clone t} {n n' : Notes}

theorem depopulateTemplate_eq_some (h : depopulateTemplate c n = some (c', n')) :
    ∃ es, depopulateTmpl t.atts (depopulateAtts t.atts 0 []) c = some (c', es) ∧
      n' = { n with log := n.log ++ es } := by
  obtain ⟨⟨c₁, es⟩, hc, heq⟩ := Option.map_eq_some_iff.1 h
  cases heq
  exact ⟨es, hc, rfl⟩

theorem depopulateTemplate_held (hs : c.populated = true → Vals.Settled t.atts c.atts)
    (h : depopulateTemplate c n = some (c', n')) (hn : n.Held (Vals.ptrs t.atts 0 [] c.atts)) :
    n'.Held (Vals.ptrs t.atts 0 [] c'.atts) := by
  obtain ⟨es, hc, rfl⟩ := depopulateTemplate_eq_some h
  have hreleased := depopulateTmpl_released (fun _ _ _ hv hbody => depopulateAtts_released hv hbody) hs hc
  rw [← List.append_nil (Vals.ptrs t.atts 0 [] c.atts)] at hn
  rw [← List.append_nil (Vals.ptrs t.atts 0 [] c'.atts)]
  exact hreleased.held hn

theorem settled_of_depopulateTemplate {n'' : Notes} (h : depopulateTemplate c n = some (c', n'))
    (hgrows : Grows n' n'') (hproper : HeapEvent.Proper (heapEvents n''.log))
    (hpop : c.populated = true) : Vals.Settled t.atts c.atts := by
  obtain ⟨es, hc, rfl⟩ := depopulateTemplate_eq_some h
  obtain ⟨more, hlog⟩ := hgrows
  rw [← hlog] at hproper
  have hblocks := onlyBlocks_of_proper hproper
  rw [onlyBlocks_append, onlyBlocks_append] at hblocks
  exact settled_of_depopulateTmpl (fun _ _ _ hbody => settled_of_depopulateAtts hbody) hc
    hblocks.1.2 hpop

theorem populateRecord_grows (r : Record) (c : Clone t) (n : Notes) :
    Grows n (populateRecord heapAddr r c n).2.1 := by
  rcases populateRecord_cases heapAddr r c n with ⟨-, heq⟩ | ⟨-, c₁, n₁, env, flow, hout, hcases⟩
  · rw [heq]
    exact .refl n
  · have hgrows : Grows n (populateStruct heapAddr r t.aligned t.atts [] c
        { n with next := 0, outOfData := false }).2.1 :=
      grows_populateStruct _ _ _ _ { n with next := 0, outOfData := false }
    rw [hout] at hgrows
    rcases hcases with ⟨why, -, heq⟩ | ⟨-, -, heq⟩ | ⟨-, -, heq⟩
    · rwa [heq]
    · rwa [heq]
    · rw [heq]
      exact hgrows.trans (grows_log _)

theorem populateRecord_held (r : Record) (c : Clone t) (hn : n.Held (Vals.ptrs t.atts 0 [] c.atts)) :
    (populateRecord heapAddr r c n).2.1.Held
      (Vals.ptrs t.atts 0 [] (populateRecord heapAddr r c n).1.atts) := by
  rcases populateRecord_cases heapAddr r c n with ⟨-, heq⟩ | ⟨-, c₁, n₁, env, flow, hout, hcases⟩
  · rw [heq]
    exact hn
  · have hstart : Inert n { n with next := 0, outOfData := false } := .of_eq rfl rfl
    rw [← List.append_nil (Vals.ptrs t.atts 0 [] c.atts)] at hn
    have hheld := populateStruct_held (r := r) heapAddr t.aligned
      (hstart.held.mpr hn)
    rw [hout, List.append_nil] at hheld
    rcases hcases with ⟨why, -, heq⟩ | ⟨-, -, heq⟩ | ⟨-, -, heq⟩
    · rw [heq]
      exact hheld
    · rw [heq]
      exact hheld
    · rw [heq]
      have hextra : Inert n₁ (createExtraDataAtt r n₁).2 :=
        ⟨rfl, (heapEvents_append n₁.log _).trans (List.append_nil _)⟩
      exact hextra.held.mpr hheld

/-- What a call does: nothing, or it depopulates the clone, and may populate it again. -/
theorem Session.step_cases (heapAddr : Nat → Nat) (p : Session t) (call : Call) :
    ((p.ended = true ∨ p.zaps = true) ∧ (p.step heapAddr call).clone = p.clone ∧
        (p.step heapAddr call).notes = p.notes) ∨
      (p.ended = false ∧ p.zaps = false ∧
        ∃ c n, depopulateTemplate p.clone p.notes = some (c, n) ∧
        (((p.step heapAddr call).clone = c ∧ (p.step heapAddr call).notes = n) ∨
          ∃ r, (p.step heapAddr call).clone = (populateRecord heapAddr r c n).1 ∧
            (p.step heapAddr call).notes = (populateRecord heapAddr r c n).2.1)) := by
  unfold Session.step
  cases hended : p.ended with
  | true =>
    rw [if_pos rfl]
    exact .inl ⟨.inl rfl, rfl, rfl⟩
  | false =>
    rw [if_neg Bool.false_ne_true]
    unfold populateTemplate
    have hzaps := depopulateTemplate_isNone p
    cases hdep : depopulateTemplate p.clone p.notes with
    | none =>
      rw [hdep] at hzaps
      refine .inl ⟨.inr hzaps.symm, ?_⟩
      cases call <;> exact ⟨rfl, rfl⟩
    | some out =>
      obtain ⟨c, n⟩ := out
      rw [hdep] at hzaps
      refine .inr ⟨rfl, hzaps.symm, c, n, rfl, ?_⟩
      cases call with
      | depopulate => exact .inl ⟨rfl, rfl⟩
      | populate r =>
        refine .inr ⟨r, ?_⟩
        dsimp only [Option.map_some]
        generalize populateRecord heapAddr r c n = out
        obtain ⟨c', n', flow⟩ := out
        cases flow <;> exact ⟨rfl, rfl⟩

theorem Session.step_held {p : Session t} (h : p.Held) (hs : p.Settled) (call : Call) :
    (p.step heapAddr call).Held := by
  unfold Session.Held
  rcases p.step_cases heapAddr call with
    ⟨-, hclone, hnotes⟩ | ⟨hended, hzaps, c, n, hdep, hcases⟩
  · rw [hclone, hnotes]
    exact h
  · have hsettled : p.clone.populated = true → Vals.Settled t.atts p.clone.atts := by
      rcases hs with hs | hs | hs
      · exact absurd (hs.symm.trans hended) Bool.noConfusion
      · exact absurd (hs.symm.trans hzaps) Bool.noConfusion
      · exact hs
    have hheld := depopulateTemplate_held hsettled hdep h
    rcases hcases with ⟨hclone, hnotes⟩ | ⟨r, hclone, hnotes⟩
    · rw [hclone, hnotes]
      exact hheld
    · rw [hclone, hnotes]
      exact populateRecord_held r c hheld

/-- If nothing is freed in a call that was not allocated, the clone was settled. -/
theorem Session.settled_of_step {p : Session t} {call : Call}
    (hproper : (p.step heapAddr call).Proper) : p.Settled := by
  rcases p.step_cases heapAddr call with
    ⟨hends | hzaps, -⟩ | ⟨-, -, c, n, hdep, hcases⟩
  · exact .inl hends
  · exact .inr (.inl hzaps)
  · refine .inr (.inr ?_)
    unfold Session.Proper at hproper
    rcases hcases with ⟨-, hnotes⟩ | ⟨r, -, hnotes⟩
    · rw [hnotes] at hproper
      exact settled_of_depopulateTemplate hdep (.refl n) hproper
    · rw [hnotes] at hproper
      exact settled_of_depopulateTemplate hdep (populateRecord_grows r c n) hproper

/-- All that is freed for an array attribute is an array that was allocated for it, and is freed
for the first time, in every state of a session, exactly if the clone is settled at every call. -/
theorem session_frees_iff (heapAddr : Nat → Nat) (t : Tmpl) (calls : List Call) :
    Always (Session.step heapAddr) Session.Proper (Session.start t) calls ↔
      Meets (Session.step heapAddr) (fun p _ => p.Settled) (Session.start t) calls := by
  refine @always_iff_meets _ _ (Session.step heapAddr) Session.Proper Session.Held
    (fun p _ => p.Settled) (fun p call h _ hs => p.step_held h hs call) (fun p call h _ => ?_) _
    (Session.start_held t) HeapEvent.proper_nil calls
  exact ⟨p.settled_of_step, fun hs => (p.step_held h hs call).proper⟩

end Calls

/-- `{ int n; string names[]; }` -/
def nameList : Tmpl :=
  ⟨false, .field (some "n") (.scalar .int)
    (.field (some "names") (.array .string ⟨0, .rest⟩ none) .nil)⟩

def zerosAt (addr n : Nat) (h : n ≤ posixLogEntryMaxlen) : Record := ⟨addr, fun _ => 0, n, h, .noArch⟩

/-- The first record has a name, and the second one has none. When the clone is depopulated, the
name is freed, and that is in the first record. -/
theorem session_frees_record : nameList.accepted = true ∧
      ¬ Session.Proper (run (Session.step fun _ => 0) (Session.start nameList)
        [.populate (zerosAt 4096 5 (by decide)), .populate (zerosAt 8192 4 (by decide)),
          .depopulate]) := by
  refine ⟨by decide, fun hproper => ?_⟩
  have hfree : Event.free [1] (.data 4100) ∈ (run (Session.step fun _ => 0) (Session.start nameList)
      [.populate (zerosAt 4096 5 (by decide)), .populate (zerosAt 8192 4 (by decide)),
        .depopulate]).notes.log := by
    decide
  exact onlyBlocks_of_proper hproper [1] (List.mem_filterMap.mpr ⟨_, hfree, rfl⟩)

end Evlog.Template
