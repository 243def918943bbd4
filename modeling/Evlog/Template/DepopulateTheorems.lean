/-
Evlog.Template.DepopulateTheorems — what depopulating a clone frees.

`depopulateTemplate` goes through the attributes once, and into the structs
among them. Nothing goes to the log from there but what is freed.
-/
import Evlog.Template.StepTheorems

namespace Evlog.Template

/-! ## One attribute after the other -/

theorem depopulateTmpl_eq_some {α : Type} {atts : Atts} {body : α → Option (α × List Event)}
    {c c' : CloneOf α} {es : List Event} (h : depopulateTmpl atts body c = some (c', es)) :
    (c.populated = false ∧ c' = c ∧ es = []) ∨
      (c.populated = true ∧ ∃ v, body c.atts = some (v, es) ∧
        c' = { c with atts := v, extra := none, populated := false }) := by
  unfold depopulateTmpl at h
  split at h
  · rename_i hpop
    split at h
    · cases h
    · obtain ⟨⟨v, frees⟩, hv, heq⟩ := Option.map_eq_some_iff.1 h
      cases heq
      exact .inr ⟨hpop, v, hv, rfl⟩
  · rename_i hpop
    cases h
    exact .inl ⟨by simpa using hpop, rfl, rfl⟩

theorem depopulateAtts_field {name : Option String} {f : Field} {rest : Atts} {i : Nat}
    {path : List Nat} {v v' : Vals (.field name f rest)} {es : List Event}
    (h : depopulateAtts (.field name f rest) i path v = some (v', es)) :
    ∃ w more, depopulateAtts rest (i + 1) path v.2 = some (w, more) ∧
      v' = ((depopulateField (i :: path) f v.1).1, w) ∧
      es = (depopulateField (i :: path) f v.1).2 ++ more := by
  obtain ⟨s, v⟩ := v
  simp only [depopulateAtts, Option.bind_eq_bind, Option.bind_eq_some_iff, Option.pure_def,
    Option.some.injEq] at h
  obtain ⟨⟨w, more⟩, hrest, heq⟩ := h
  cases heq
  exact ⟨w, more, hrest, rfl, rfl⟩

def depopulateStruct (sub : Atts) (path : List Nat) :
    Option (CloneOf (Vals sub)) → Option (Option (CloneOf (Vals sub)) × List Event)
  | none => some (none, [])
  | some c => (depopulateTmpl sub (depopulateAtts sub 0 path) c).map fun (c, frees) => (some c, frees)

theorem depopulateAtts_struct {name : String} {al : Bool} {sub rest : Atts} {i : Nat}
    {path : List Nat} {v v' : Vals (.struct name al sub rest)} {es : List Event}
    (h : depopulateAtts (.struct name al sub rest) i path v = some (v', es)) :
    ∃ st frees w more, depopulateStruct sub (i :: path) v.1.2 = some (st, frees) ∧
      depopulateAtts rest (i + 1) path v.2 = some (w, more) ∧
      v' = ((v.1.1.depopulated, st), w) ∧ es = frees ++ more := by
  obtain ⟨⟨s, st⟩, v⟩ := v
  have hst : depopulateAtts (.struct name al sub rest) i path ((s, st), v) =
      (depopulateStruct sub (i :: path) st).bind fun x =>
        (depopulateAtts rest (i + 1) path v).bind fun y =>
          some (((s.depopulated, x.1), y.1), x.2 ++ y.2) := by
    cases st <;> rfl
  obtain ⟨⟨st', frees⟩, hsub, hbind⟩ := Option.bind_eq_some_iff.1 (hst.symm.trans h)
  obtain ⟨⟨w, more⟩, hrest, heq⟩ := Option.bind_eq_some_iff.1 hbind
  cases heq
  exact ⟨st', frees, w, more, hsub, hrest, rfl, rfl⟩

theorem depopulateAtts_structs {name : String} {al : Bool} {sub rest : Atts} {dim : Dimension}
    {delim : Option Delimiter} {i : Nat} {path : List Nat}
    {v v' : Vals (.structs name al sub dim delim rest)} {es : List Event}
    (h : depopulateAtts (.structs name al sub dim delim rest) i path v = some (v', es)) :
    ∃ frees w more, freeArrayOfStructs (freeStruct sub (i :: path)) 0 v.1.2 = some frees ∧
      depopulateAtts rest (i + 1) path v.2 = some (w, more) ∧
      v' = ((v.1.1.depopulated, []), w) ∧ es = frees ++ more := by
  obtain ⟨⟨s, list⟩, v⟩ := v
  simp only [depopulateAtts, Option.bind_eq_bind, Option.bind_eq_some_iff, Option.pure_def,
    Option.some.injEq] at h
  obtain ⟨frees, hfree, ⟨w, more⟩, hrest, heq⟩ := h
  cases heq
  exact ⟨frees, w, more, hfree, hrest, rfl, rfl⟩

theorem freeArrayOfStructs_cons {α : Type} {free : Nat → CloneOf α → Option (List Event)} {ns : Nat}
    {c : CloneOf α} {cs : List (CloneOf α)} {es : List Event}
    (h : freeArrayOfStructs free ns (c :: cs) = some es) :
    ∃ frees more, free ns c = some frees ∧ freeArrayOfStructs free (ns + 1) cs = some more ∧
      es = frees ++ more := by
  simp only [freeArrayOfStructs, Option.bind_eq_bind, Option.bind_eq_some_iff, Option.pure_def,
    Option.some.injEq] at h
  obtain ⟨frees, hc, more, hcs, rfl⟩ := h
  exact ⟨frees, more, hc, hcs, rfl⟩

theorem freeStruct_eq_some {sub : Atts} {path : List Nat} {ns : Nat} {c : CloneOf (Vals sub)}
    {es : List Event} (h : freeStruct sub path ns c = some es) :
    ∃ c', depopulateTmpl sub (depopulateAtts sub 0 (ns :: path)) c = some (c', es) := by
  obtain ⟨⟨c', frees⟩, hc, rfl⟩ := Option.map_eq_some_iff.1 h
  exact ⟨c', hc⟩

theorem depopulateStruct_eq_some {sub : Atts} {path : List Nat}
    {st st' : Option (CloneOf (Vals sub))} {es : List Event}
    (h : depopulateStruct sub path st = some (st', es)) :
    (st = none ∧ st' = none ∧ es = []) ∨
      ∃ c c', st = some c ∧ st' = some c' ∧
        depopulateTmpl sub (depopulateAtts sub 0 path) c = some (c', es) := by
  cases st with
  | none =>
    cases h
    exact .inl ⟨rfl, rfl, rfl⟩
  | some c =>
    obtain ⟨⟨c', frees⟩, hc, heq⟩ := Option.map_eq_some_iff.1 h
    cases heq
    exact .inr ⟨c, c', rfl, rfl, hc⟩

/-! ## Only frees go to the log -/

def Frees (es : List Event) : Prop := ∀ e ∈ es, ∃ o p, e = .free o p

theorem frees_nil : Frees [] := by simp [Frees]

theorem frees_append {es es' : List Event} : Frees (es ++ es') ↔ Frees es ∧ Frees es' :=
  List.forall_mem_append

theorem depopulateField_frees (owner : List Nat) (f : Field) (s : AttState) :
    Frees (depopulateField owner f s).2 := by
  unfold depopulateField Frees
  split
  · simp
  · split <;> simp
  · simp

theorem depopulateTmpl_frees {α : Type} {atts : Atts} {body : α → Option (α × List Event)}
    (hbody : ∀ v v' es, body v = some (v', es) → Frees es) {c c' : CloneOf α} {es : List Event}
    (h : depopulateTmpl atts body c = some (c', es)) : Frees es := by
  rcases depopulateTmpl_eq_some h with ⟨-, -, rfl⟩ | ⟨-, v, hv, -⟩
  · exact frees_nil
  · exact hbody _ _ _ hv

theorem freeArrayOfStructs_frees {α : Type} {free : Nat → CloneOf α → Option (List Event)}
    (hfree : ∀ ns c es, free ns c = some es → Frees es) {ns : Nat} {list : List (CloneOf α)}
    {es : List Event} (h : freeArrayOfStructs free ns list = some es) : Frees es := by
  induction list generalizing ns es with
  | nil =>
    cases h
    exact frees_nil
  | cons c cs ih =>
    obtain ⟨frees, more, hc, hcs, rfl⟩ := freeArrayOfStructs_cons h
    exact frees_append.2 ⟨hfree _ _ _ hc, ih hcs⟩

theorem depopulateAtts_frees {atts : Atts} {i : Nat} {path : List Nat} {v v' : Vals atts}
    {es : List Event} (h : depopulateAtts atts i path v = some (v', es)) : Frees es := by
  induction atts generalizing i path es with
  | nil =>
    cases h
    exact frees_nil
  | field name f rest ih =>
    obtain ⟨w, more, hrest, -, rfl⟩ := depopulateAtts_field h
    exact frees_append.2 ⟨depopulateField_frees (i :: path) f v.1, ih hrest⟩
  | struct name al sub rest ihsub ihrest =>
    obtain ⟨st, frees, w, more, hst, hrest, -, rfl⟩ := depopulateAtts_struct h
    refine frees_append.2 ⟨?_, ihrest hrest⟩
    rcases depopulateStruct_eq_some hst with ⟨-, -, rfl⟩ | ⟨c, c', -, -, hc⟩
    · exact frees_nil
    · exact depopulateTmpl_frees (fun _ _ _ => ihsub) hc
  | structs name al sub dim delim rest ihsub ihrest =>
    obtain ⟨frees, w, more, hfree, hrest, -, rfl⟩ := depopulateAtts_structs h
    refine frees_append.2 ⟨freeArrayOfStructs_frees (fun ns c es hc => ?_) hfree, ihrest hrest⟩
    obtain ⟨c', hc'⟩ := freeStruct_eq_some hc
    exact depopulateTmpl_frees (fun _ _ _ => ihsub) hc'

theorem freeStruct_frees {sub : Atts} {path : List Nat} {ns : Nat} {c : CloneOf (Vals sub)}
    {es : List Event} (h : freeStruct sub path ns c = some es) : Frees es := by
  obtain ⟨c', hc⟩ := freeStruct_eq_some h
  exact depopulateTmpl_frees (fun _ _ _ => depopulateAtts_frees) hc

end Evlog.Template
