/-
Evlog.Tmplmgmt.HashTheorems — when the template manager finds what it has.

The chains of both tables are in order. The search for a name takes a
lesser name for one that is past what it looks for, so that a template is
found exactly if no lesser name is in its chain. The search for a facility
and an event type takes the difference of two event types for an `int`, so
that an entry is found exactly if none is in its chain whose event type is
too far below.
-/
import Evlog.Tmplmgmt.Hash

namespace Evlog.Tmplmgmt

open Evlog.Lib

/-! ## Struct templates -/

def StructTmpl.NameLe (a b : StructTmpl) : Prop := a.tmName.codes ≤ b.tmName.codes

instance : DecidableRel StructTmpl.NameLe := fun _ _ => inferInstanceAs (Decidable (_ ≤ _))

instance : Std.Total StructTmpl.NameLe := ⟨fun _ _ => le_total _ _⟩

instance : IsTrans StructTmpl StructTmpl.NameLe := ⟨fun _ _ _ => le_trans⟩

theorem insertTemplateIntoHashList_eq (t : StructTmpl) (l : List StructTmpl) :
    insertTemplateIntoHashList t l = l.orderedInsert StructTmpl.NameLe t := by
  induction l with
  | nil => rfl
  | cons pt rest ih =>
    rw [insertTemplateIntoHashList, List.orderedInsert_cons, ih]
    exact if_congr CString.strcmp_le rfl rfl

theorem addTemplateToHash_eq (table : StructHash) (t : StructTmpl) :
    addTemplateToHash table t = table.add StructTmpl.NameLe (fun t => computeHash t.tmName) t := by
  unfold addTemplateToHash Chains.add
  rw [insertTemplateIntoHashList_eq]

def StructTmpl.Matches (t : StructTmpl) (name : CString) (st : Option Stat) : Prop :=
  t.tmName = name ∧ t.sameFile st = true

theorem findTemplateInHashList_eq (name : CString) (st : Option Stat) (l : List StructTmpl) :
    findTemplateInHashList name st l =
      search (fun pt => 0 < CString.strcmp name pt.tmName)
        (fun pt => CString.strcmp name pt.tmName = 0 && pt.sameFile st) l := by
  induction l with
  | nil => rfl
  | cons pt rest ih =>
    rw [findTemplateInHashList, search, ih]
    by_cases hpast : 0 < CString.strcmp name pt.tmName
    · rw [if_pos hpast, if_pos (decide_eq_true hpast)]
    · simp only [hpast, decide_false, Bool.false_eq_true, if_false]

def addTemplates (ts : List StructTmpl) : StructHash := ts.foldl addTemplateToHash fun _ => []

theorem addTemplates_eq (ts : List StructTmpl) : addTemplates ts =
      Chains.addAll StructTmpl.NameLe (fun t => computeHash t.tmName) (fun _ => []) ts := by
  have hstep : addTemplateToHash = Chains.add StructTmpl.NameLe fun t => computeHash t.tmName :=
    funext fun table => funext fun t => addTemplateToHash_eq table t
  unfold addTemplates Chains.addAll
  rw [hstep]

theorem mem_addTemplates {ts : List StructTmpl} {i : Fin hashsz} {t : StructTmpl} :
    t ∈ addTemplates ts i ↔ t ∈ ts ∧ computeHash t.tmName = i := by
  rw [addTemplates_eq, (Chains.addAll_perm ..).mem_iff]
  simp

theorem addTemplates_sorted (ts : List StructTmpl) (i : Fin hashsz) :
    (addTemplates ts i).Pairwise StructTmpl.NameLe := by
  rw [addTemplates_eq]
  exact Chains.addAll_sorted _ _ (fun _ => List.Pairwise.nil) ts i

/-- A template that is looked for is found, and none only if there is
none. -/
def FindsTemplate (ts : List StructTmpl) (name : CString) (st : Option Stat) : Prop :=
  match findTemplateInHash name st (addTemplates ts) with
  | some t => t ∈ ts ∧ t.Matches name st
  | none => ∀ t ∈ ts, ¬t.Matches name st

theorem head_le {l : List StructTmpl} (h : l.Pairwise StructTmpl.NameLe) {t : StructTmpl} (ht : t ∈ l) :
    ∃ x, l.head? = some x ∧ x.NameLe t := by
  cases l with
  | nil => cases ht
  | cons x xs =>
    refine ⟨x, rfl, ?_⟩
    rcases List.mem_cons.1 ht with rfl | hmem
    · exact le_refl _
    · exact List.rel_of_pairwise_cons h hmem

/-- A template that was added is found if and only if no template with a
lesser name is in its chain. -/
theorem findTemplateInHash_iff (ts : List StructTmpl) (name : CString) (st : Option Stat) :
    FindsTemplate ts name st ↔
      ((∃ t ∈ ts, t.Matches name st) → ∀ t ∈ ts, computeHash t.tmName = computeHash name →
        0 ≤ CString.strcmp t.tmName name) := by
  have hsorted := addTemplates_sorted ts (computeHash name)
  have hle (t : StructTmpl) : 0 ≤ CString.strcmp t.tmName name ↔ ¬0 < CString.strcmp name t.tmName := by
    rw [CString.strcmp, CString.strcmp, CString.compareBytes_neg name.bytes]
    omega
  unfold FindsTemplate findTemplateInHash
  rw [findTemplateInHashList_eq]
  constructor
  · rintro hfinds ⟨t₀, ht₀, hmatch⟩ t ht hslot
    rw [hle]
    intro hpast
    obtain ⟨x, hx, hxt⟩ := head_le hsorted (mem_addTemplates.2 ⟨ht, hslot⟩)
    -- the head of the chain is past the name already
    have hhead : 0 < CString.strcmp name x.tmName :=
      CString.strcmp_pos.2 (lt_of_le_of_lt hxt (CString.strcmp_pos.1 hpast))
    rw [search_of_head hx (decide_eq_true hhead)] at hfinds
    exact hfinds t₀ ht₀ hmatch
  · intro h
    split
    · rename_i t hfound
      obtain ⟨hmem, hhit⟩ := search_spec hfound
      rw [Bool.and_eq_true, decide_eq_true_eq] at hhit
      exact ⟨(mem_addTemplates.1 hmem).1, (CString.strcmp_eq.1 hhit.1).symm, hhit.2⟩
    · rename_i hnone
      intro t ht hmatch
      have hall : ∀ x ∈ addTemplates ts (computeHash name),
          decide (0 < CString.strcmp name x.tmName) = false := by
        intro x hx
        obtain ⟨hxs, hslot⟩ := mem_addTemplates.1 hx
        exact decide_eq_false ((hle x).1 (h ⟨t, ht, hmatch⟩ x hxs hslot))
      have hmem : t ∈ addTemplates ts (computeHash name) :=
        mem_addTemplates.2 ⟨ht, by rw [hmatch.1]⟩
      have hhit : (decide (CString.strcmp name t.tmName = 0) && t.sameFile st) = true := by
        rw [hmatch.2, Bool.and_true, decide_eq_true_eq]
        exact CString.strcmp_eq.2 hmatch.1.symm
      obtain ⟨y, hy⟩ := search_isSome
        (fun pt => CString.strcmp name pt.tmName = 0 && pt.sameFile st) hall hmem hhit
      rw [hy] at hnone
      cases hnone

/-- `AD` -/
def nameAD : CString := ⟨[65, 68], by decide⟩

theorem noNul_a : (0 : UInt8) ∉ ([97] : List UInt8) := by decide

/-- `a`, which has the same hash value. -/
def nameA : CString := ⟨[97], noNul_a⟩

/-- `a` is not found any more once `AD` is there. -/
theorem findTemplateInHash_lost :
    ¬FindsTemplate [⟨nameA, 0, 0, 1⟩, ⟨nameAD, 0, 0, 2⟩] nameA none := by
  have hnone : findTemplateInHash nameA none (addTemplates [⟨nameA, 0, 0, 1⟩, ⟨nameAD, 0, 0, 2⟩]) =
      none := by decide
  unfold FindsTemplate
  rw [hnone]
  exact fun h => h ⟨nameA, 0, 0, 1⟩ List.mem_cons_self ⟨rfl, rfl⟩

/-! ## Facilities and event types -/

/-- The facility and the event type do not add up to the least `int`. -/
def FacEvent.Fits (f : FacEvent) : Prop := (f.facility + f.eventType) % 2 ^ 32 ≠ 2 ^ 31

instance (f : FacEvent) : Decidable f.Fits := inferInstanceAs (Decidable (_ ≠ _))

theorem toInt32_of_isInt32 {n : Int} (h : IsInt32 n) : toInt32 n = n :=
  Int.bmod_eq_of_le (by have := h.1; omega) (by have := h.2; omega)

theorem isInt32_toInt32 (n : Int) : IsInt32 (toInt32 n) :=
  ⟨Int.le_bmod (by decide), Int.bmod_lt (by decide)⟩

theorem toInt32_least (n : Int) : toInt32 n = -2 ^ 31 ↔ n % 2 ^ 32 = 2 ^ 31 := by
  unfold toInt32
  rw [Int.bmod_def]
  split <;> omega

/-- The slot is one of the table, but for the least `int`. -/
theorem computeHashByFET_lt (f : FacEvent) : computeHashByFET f < hashsz ↔ f.Fits := by
  have hleast := toInt32_least (f.facility + f.eventType)
  obtain ⟨hle, hlt⟩ := isInt32_toInt32 (f.facility + f.eventType)
  unfold FacEvent.Fits computeHashByFET hashsz
  generalize toInt32 (f.facility + f.eventType) = n at *
  dsimp only
  rw [ne_eq, ← not_congr hleast]
  by_cases hn : n = -2 ^ 31
  · subst hn
    decide
  · refine iff_of_true ?_ hn
    obtain ⟨m, hm⟩ : ∃ m : Nat, (if n < 0 then -n else n) = m :=
      ⟨n.natAbs, by split <;> omega⟩
    have habs : toInt32 m = m := by
      refine toInt32_of_isInt32 ⟨by omega, ?_⟩
      split at hm <;> omega
    rw [hm, habs]
    have hmod : Int.tmod (m : Int) (101 : Nat) = ((m % 101 : Nat) : Int) := rfl
    have hlt := Nat.mod_lt m (show 0 < 101 by decide)
    rw [hmod]
    omega

def FetNode.TypeLe (a b : FetNode) : Prop := a.key.eventType ≤ b.key.eventType

instance : DecidableRel FetNode.TypeLe := fun _ _ => inferInstanceAs (Decidable (_ ≤ _))

instance : Std.Total FetNode.TypeLe := ⟨fun _ _ => le_total _ _⟩

instance : IsTrans FetNode FetNode.TypeLe := ⟨fun _ _ _ => le_trans⟩

theorem insertFETIntoHashList_eq (fet : FetNode) (l : List FetNode) :
    insertFETIntoHashList fet l = l.orderedInsert FetNode.TypeLe fet := by
  induction l with
  | nil => rfl
  | cons pfet rest ih =>
    rw [insertFETIntoHashList, List.orderedInsert_cons, ih]
    rfl

theorem findFETInHashList_eq (f : FacEvent) (l : List FetNode) : findFETInHashList f l =
      search (fun pfet => 0 < toInt32 (pfet.key.eventType - f.eventType))
        (fun pfet => toInt32 (pfet.key.eventType - f.eventType) = 0 &&
          pfet.key.facility = f.facility) l := by
  induction l with
  | nil => rfl
  | cons pfet rest ih =>
    rw [findFETInHashList, search, ih]
    by_cases hpast : 0 < toInt32 (pfet.key.eventType - f.eventType)
    · rw [if_pos hpast, if_pos (decide_eq_true hpast)]
    · simp only [hpast, decide_false, Bool.false_eq_true, if_false]

theorem toInt32_sub_eq_zero {a b : Int} (ha : IsInt32 a) (hb : IsInt32 b) :
    toInt32 (a - b) = 0 ↔ a = b := by
  obtain ⟨ha, ha'⟩ := ha
  obtain ⟨hb, hb'⟩ := hb
  unfold toInt32
  rw [Int.bmod_def]
  split <;> omega

theorem toInt32_sub_pos {a b : Int} (ha : IsInt32 a) (hb : IsInt32 b) (hle : a ≤ b) :
    0 < toInt32 (a - b) ↔ 2 ^ 31 < b - a := by
  obtain ⟨ha, ha'⟩ := ha
  obtain ⟨hb, hb'⟩ := hb
  unfold toInt32
  rw [Int.bmod_def]
  split <;> omega

theorem FacEvent.hit_iff (f : FacEvent) (node : FetNode) :
    (decide (toInt32 (node.key.eventType - f.eventType) = 0) &&
        decide (node.key.facility = f.facility)) = true ↔ node.key = f := by
  rw [Bool.and_eq_true, decide_eq_true_eq, decide_eq_true_eq,
    toInt32_sub_eq_zero node.key.isInt32 f.isInt32]
  constructor
  · rintro ⟨hev, hfac⟩
    obtain ⟨⟨fac, ev, h1, h2⟩, addr⟩ := node
    obtain ⟨fac', ev', h1', h2'⟩ := f
    simp only [FacEvent.mk.injEq]
    exact ⟨hfac, hev⟩
  · rintro rfl
    exact ⟨rfl, rfl⟩

/-- An entry in an ordered chain is found exactly if none is in the chain
whose event type is too far below. -/
theorem findFETInHashList_some {l : List FetNode} (h : l.Pairwise FetNode.TypeLe) {f : FacEvent}
    (hf : ∃ node ∈ l, node.key = f) :
    (∃ node, findFETInHashList f l = some node) ↔
      ∀ node ∈ l, f.eventType - node.key.eventType ≤ 2 ^ 31 := by
  obtain ⟨node, hnode, hkey⟩ := hf
  induction l with
  | nil => cases hnode
  | cons x xs ih =>
    rw [findFETInHashList_eq, search, ← findFETInHashList_eq]
    have hxs (y : FetNode) (hy : y ∈ xs) : x.key.eventType ≤ y.key.eventType :=
      List.rel_of_pairwise_cons h hy
    have hx := x.key.isInt32
    have hfint := f.isInt32
    have hle : x.key.eventType ≤ f.eventType := by
      rw [← hkey]
      rcases List.mem_cons.1 hnode with rfl | hmem
      · exact le_refl _
      · exact hxs _ hmem
    have hpast := toInt32_sub_pos hx hfint hle
    by_cases hfar : 2 ^ 31 < f.eventType - x.key.eventType
    · rw [if_pos (decide_eq_true (hpast.2 hfar))]
      refine iff_of_false (by simp) fun hall => ?_
      exact absurd (hall x List.mem_cons_self) (not_le.2 hfar)
    · rw [if_neg (by simpa using not_lt.1 fun hlt => hfar (hpast.1 hlt))]
      by_cases hhit : x.key = f
      · rw [if_pos ((f.hit_iff x).2 hhit)]
        refine iff_of_true ⟨x, rfl⟩ fun y hy => ?_
        rcases List.mem_cons.1 hy with rfl | hmem
        · exact not_lt.1 hfar
        · have := hxs y hmem
          omega
      · rw [if_neg fun hno => hhit ((f.hit_iff x).1 hno)]
        have hmem : node ∈ xs := by
          rcases List.mem_cons.1 hnode with rfl | hmem
          · exact absurd hkey hhit
          · exact hmem
        rw [ih (h.of_cons) hmem, List.forall_mem_cons]
        exact ⟨fun hall => ⟨not_lt.1 hfar, hall⟩, fun hall => hall.2⟩

/-! ### Runs -/

/-- A call of `addFETToHash` for a new FET, or of `addTemplateToFETHash`. -/
inductive FetCall where
  | fet (f : FacEvent) (fet : Fet)
  | template (f : FacEvent) (t : Nat)
  deriving DecidableEq, Repr

def FetCall.key : FetCall → FacEvent
  | .fet f _ => f
  | .template f _ => f

def FetHash.call (h : FetHash) : FetCall → Except Abort FetHash
  | .fet f fet =>
    match addFETToHash h f fet with
    | some h => .ok h
    | none => .error .outOfBounds
  | .template f t => addTemplateToFETHash h f t

def fetCalls (cs : List FetCall) : Except Abort FetHash := cs.foldlM FetHash.call .empty

theorem fetCalls_snoc (cs : List FetCall) (c : FetCall) :
    fetCalls (cs ++ [c]) = (fetCalls cs).bind fun h => h.call c := by
  unfold fetCalls
  rw [List.foldlM_append]
  cases cs.foldlM FetHash.call .empty with
  | error _ => rfl
  | ok h =>
    change (FetHash.call h c >>= fun h => pure h) = _
    rw [bind_pure]
    rfl

def FetHash.entries (h : FetHash) (f : FacEvent) : List FetNode :=
  if hslot : computeHashByFET f < hashsz then
    (h.table ⟨computeHashByFET f, hslot⟩).filter fun node => node.key = f
  else []

/-- The entry for exactly that pair is found, if there is one, and there are
never two. -/
structure FetHash.Answers (h : FetHash) (cs : List FetCall) (f : FacEvent) : Prop where
  found : ∃ res, findFETInHash f h = some res ∧ (∀ node, res = some node → node ∈ h.entries f) ∧
    (res = none → ∀ c ∈ cs, c.key ≠ f)
  once : (h.entries f).length ≤ 1

structure FetInv (h : FetHash) (cs : List FetCall) : Prop where
  sorted : ∀ i, (h.table i).Pairwise FetNode.TypeLe
  slot : ∀ i, ∀ node ∈ h.table i, computeHashByFET node.key = i ∧ ∃ c ∈ cs, c.key = node.key
  mem : ∀ c ∈ cs, c.key.Fits ∧ h.entries c.key ≠ []

/-- Only the entries of one pair change, and they change by at most one. -/
inductive FetHash.Moved (h : FetHash) (c : FetCall) : FetHash → Prop
  /-- The template is stored in an entry that was found. -/
  | stored {h' : FetHash} {node : FetNode} (htable : h'.table = h.table)
      (htemplate : ∃ f t, c = .template f t) (hfound : findFETInHash c.key h = some (some node)) :
      Moved h c h'
  /-- An entry is made. -/
  | added {h' : FetHash} (node : FetNode) (hkey : node.key = c.key)
      (hslot : computeHashByFET node.key < hashsz)
      (hnone : ∀ f t, c = .template f t → findFETInHash c.key h = some none)
      (htable : h'.table =
        h.table.add FetNode.TypeLe (fun _ => ⟨computeHashByFET node.key, hslot⟩) node) : Moved h c h'

theorem addFETToHash_some {h h' : FetHash} {f : FacEvent} {fet : Fet}
    (hadd : addFETToHash h f fet = some h') :
    ∃ hslot : computeHashByFET f < hashsz, h'.table =
      h.table.add FetNode.TypeLe (fun _ => ⟨computeHashByFET f, hslot⟩) ⟨f, h.fets.length⟩ := by
  unfold addFETToHash at hadd
  split at hadd
  · rename_i hslot
    cases hadd
    refine ⟨hslot, ?_⟩
    dsimp only
    rw [insertFETIntoHashList_eq]
    rfl
  · cases hadd

theorem FetHash.call_ok {h h' : FetHash} {c : FetCall} (hcall : h.call c = .ok h') : h.Moved c h' := by
  cases c with
  | fet f fet =>
    unfold FetHash.call at hcall
    dsimp only at hcall
    split at hcall
    · rename_i h₁ hadd
      cases hcall
      obtain ⟨hslot, htable⟩ := addFETToHash_some hadd
      exact .added ⟨f, h.fets.length⟩ rfl hslot (fun _ _ hno => nomatch hno) htable
    · cases hcall
  | template f t =>
    unfold FetHash.call addTemplateToFETHash at hcall
    dsimp only at hcall
    split at hcall
    · cases hcall
    · rename_i node hfind
      split at hcall
      · cases hcall
        exact .stored rfl ⟨f, t, rfl⟩ hfind
      · cases hcall
    · rename_i hfind
      split at hcall
      · rename_i h₁ hadd
        cases hcall
        obtain ⟨hslot, htable⟩ := addFETToHash_some hadd
        exact .added ⟨f, h.fets.length⟩ rfl hslot (fun _ _ _ => hfind) htable
      · cases hcall

/-! ### What a run preserves -/

section Runs

variable {h h' : FetHash} {cs : List FetCall} {c : FetCall} {f : FacEvent}

theorem FetHash.mem_entries {node : FetNode} : node ∈ h.entries f ↔
      ∃ hslot : computeHashByFET f < hashsz, node ∈ h.table ⟨computeHashByFET f, hslot⟩ ∧ node.key = f := by
  unfold FetHash.entries
  split
  · rename_i hslot
    rw [List.mem_filter, decide_eq_true_eq]
    exact ⟨fun hmem => ⟨hslot, hmem⟩, fun ⟨_, hmem⟩ => hmem⟩
  · rename_i hslot
    exact ⟨fun hmem => absurd hmem List.not_mem_nil, fun ⟨hslot', _⟩ => absurd hslot' hslot⟩

/-- The entries of another pair stay as they are, and those of this one
become one more, or stay. -/
theorem FetHash.Moved.entries (hmoved : h.Moved c h') (f : FacEvent) :
    (h'.entries f).length = (h.entries f).length ∨
      (f = c.key ∧ (h'.entries f).length = (h.entries f).length + 1) := by
  cases hmoved with
  | stored htable _ _ =>
    refine .inl ?_
    unfold FetHash.entries
    rw [htable]
  | added node hkey hslot _ htable =>
    unfold FetHash.entries
    split
    · rename_i hf
      rw [htable]
      have hperm := Chains.add_perm FetNode.TypeLe
        (fun _ => (⟨computeHashByFET node.key, hslot⟩ : Fin hashsz)) h.table node
        ⟨computeHashByFET f, hf⟩
      have hlength := (hperm.filter fun node => decide (node.key = f)).length_eq
      rw [hlength]
      split
      · rename_i heq
        by_cases hnode : node.key = f
        · rw [List.filter_cons_of_pos (by simpa using hnode), List.length_cons]
          exact .inr ⟨hnode.symm.trans hkey, rfl⟩
        · rw [List.filter_cons_of_neg (by simpa using hnode)]
          exact .inl rfl
      · exact .inl rfl
    · exact .inl rfl

theorem FetHash.Moved.entries_added (hmoved : h.Moved c h')
    (hfet : ∀ f t, c = .template f t → findFETInHash c.key h = some none) :
    (h'.entries c.key).length = (h.entries c.key).length + 1 := by
  cases hmoved with
  | stored _ htemplate hfound =>
    obtain ⟨f, t, heq⟩ := htemplate
    rw [hfet f t heq] at hfound
    cases hfound
  | added node hkey hslot _ htable =>
    rw [← hkey]
    unfold FetHash.entries
    rw [dif_pos hslot, dif_pos hslot, htable]
    have hperm := Chains.add_perm FetNode.TypeLe
      (fun _ => (⟨computeHashByFET node.key, hslot⟩ : Fin hashsz)) h.table node
      ⟨computeHashByFET node.key, hslot⟩
    rw [if_pos rfl] at hperm
    rw [(hperm.filter fun n => decide (n.key = node.key)).length_eq,
      List.filter_cons_of_pos (by simp), List.length_cons]

theorem fetInv_empty : FetInv .empty [] :=
  ⟨fun _ => List.Pairwise.nil, fun _ _ hno => absurd hno List.not_mem_nil,
    fun _ hno => absurd hno List.not_mem_nil⟩

theorem FetInv.call (hinv : FetInv h cs) (hcall : h.call c = .ok h') : FetInv h' (cs ++ [c]) := by
  have hmoved := FetHash.call_ok hcall
  have hgrow (f : FacEvent) (hne : h.entries f ≠ []) : h'.entries f ≠ [] := by
    have hpos := List.length_pos_iff.2 hne
    rcases hmoved.entries f with heq | ⟨-, heq⟩
    · exact List.length_pos_iff.1 (by omega)
    · exact List.length_pos_iff.1 (by omega)
  have hold (c' : FetCall) (hc' : c' ∈ cs) : c'.key.Fits ∧ h'.entries c'.key ≠ [] :=
    ⟨(hinv.mem c' hc').1, hgrow _ (hinv.mem c' hc').2⟩
  cases hmoved with
  | @stored node htable _ hfound =>
    refine ⟨fun i => htable ▸ hinv.sorted i, fun i n hn => ?_, ?_⟩
    · obtain ⟨hslot, c', hc', hkey⟩ := hinv.slot i n (htable ▸ hn)
      exact ⟨hslot, c', List.mem_append_left _ hc', hkey⟩
    · refine List.forall_mem_append.2 ⟨hold, List.forall_mem_singleton.2 ?_⟩
      unfold findFETInHash at hfound
      split at hfound
      · rename_i hslot
        rw [Option.some.injEq, findFETInHashList_eq] at hfound
        obtain ⟨hmem, hhit⟩ := search_spec hfound
        refine ⟨(computeHashByFET_lt _).1 hslot, hgrow _ (List.ne_nil_of_mem (a := node) ?_)⟩
        exact FetHash.mem_entries.2 ⟨hslot, hmem, (c.key.hit_iff node).1 hhit⟩
      · cases hfound
  | added node hkey hslot hnone htable =>
    refine ⟨fun i => ?_, fun i n hn => ?_, ?_⟩
    · rw [htable]
      exact Chains.add_sorted _ _ hinv.sorted node i
    · rw [htable, (Chains.add_perm ..).mem_iff] at hn
      split at hn
      · rename_i hi
        rcases List.mem_cons.1 hn with rfl | hmem
        · exact ⟨congrArg Fin.val hi, c, List.mem_append_right _ (List.mem_singleton_self c), hkey.symm⟩
        · obtain ⟨hslot, c', hc', hkey⟩ := hinv.slot i n hmem
          exact ⟨hslot, c', List.mem_append_left _ hc', hkey⟩
      · obtain ⟨hslot, c', hc', hkey⟩ := hinv.slot i n hn
        exact ⟨hslot, c', List.mem_append_left _ hc', hkey⟩
    · refine List.forall_mem_append.2 ⟨hold, List.forall_mem_singleton.2 ?_⟩
      refine ⟨(computeHashByFET_lt _).1 (hkey ▸ hslot), List.length_pos_iff.1 ?_⟩
      rw [(FetHash.call_ok hcall).entries_added hnone]
      exact Nat.succ_pos _

theorem fetInv_of_calls (hcalls : fetCalls cs = .ok h) : FetInv h cs := by
  induction cs using List.reverseRecOn generalizing h with
  | nil =>
    cases hcalls
    exact fetInv_empty
  | append_singleton cs c ih =>
    rw [fetCalls_snoc] at hcalls
    cases hpre : fetCalls cs with
    | error e =>
      rw [hpre] at hcalls
      cases hcalls
    | ok h₀ =>
      rw [hpre] at hcalls
      exact (ih hpre).call hcalls

theorem fetCalls_append {pre post : List FetCall} (hcalls : fetCalls (pre ++ post) = .ok h) :
    ∃ h₀, fetCalls pre = .ok h₀ ∧ ∀ f, (h₀.entries f).length ≤ (h.entries f).length := by
  induction post using List.reverseRecOn generalizing h with
  | nil => exact ⟨h, by rwa [List.append_nil] at hcalls, fun _ => le_rfl⟩
  | append_singleton post c ih =>
    rw [← List.append_assoc, fetCalls_snoc] at hcalls
    cases hpre : fetCalls (pre ++ post) with
    | error e =>
      rw [hpre] at hcalls
      cases hcalls
    | ok h₁ =>
      rw [hpre] at hcalls
      obtain ⟨h₀, hcalls₀, hle⟩ := ih hpre
      refine ⟨h₀, hcalls₀, fun f => (hle f).trans ?_⟩
      rcases (FetHash.call_ok hcalls).entries f with heq | ⟨-, heq⟩
      · omega
      · omega

theorem FetInv.exists_call (hinv : FetInv h cs) {node : FetNode} (hmem : node ∈ h.entries f) :
    ∃ c ∈ cs, c.key = f := by
  obtain ⟨hslot, hnode, hkey⟩ := FetHash.mem_entries.1 hmem
  obtain ⟨-, c, hc, heq⟩ := hinv.slot _ node hnode
  exact ⟨c, hc, heq.trans hkey⟩

/-- An entry is found exactly if none is in its chain that is too far
below. -/
theorem FetInv.found_iff (hinv : FetInv h cs) (hfits : f.Fits) :
    (∃ res, findFETInHash f h = some res ∧ (∀ node, res = some node → node ∈ h.entries f) ∧
        (res = none → ∀ c ∈ cs, c.key ≠ f)) ↔
      ((∃ c ∈ cs, c.key = f) → ∀ c ∈ cs, computeHashByFET c.key = computeHashByFET f →
        f.eventType - c.key.eventType ≤ 2 ^ 31) := by
  have hslot := (computeHashByFET_lt f).2 hfits
  have hfind : findFETInHash f h = some (findFETInHashList f (h.table ⟨computeHashByFET f, hslot⟩)) :=
    dif_pos hslot
  have hspec {node : FetNode}
      (hfound : findFETInHashList f (h.table ⟨computeHashByFET f, hslot⟩) = some node) :
      node ∈ h.entries f := by
    rw [findFETInHashList_eq] at hfound
    obtain ⟨hmem, hhit⟩ := search_spec hfound
    exact FetHash.mem_entries.2 ⟨hslot, hmem, (f.hit_iff node).1 hhit⟩
  have hentry {c : FetCall} (hc : c ∈ cs) (hkey : c.key = f) :
      ∃ node ∈ h.table ⟨computeHashByFET f, hslot⟩, node.key = f := by
    obtain ⟨node, hnode⟩ := List.exists_mem_of_ne_nil _ (hinv.mem c hc).2
    rw [hkey] at hnode
    obtain ⟨_, hmem, heq⟩ := FetHash.mem_entries.1 hnode
    exact ⟨node, hmem, heq⟩
  have hchain (P : FacEvent → Prop) :
      (∀ node ∈ h.table ⟨computeHashByFET f, hslot⟩, P node.key) ↔
        ∀ c ∈ cs, computeHashByFET c.key = computeHashByFET f → P c.key := by
    constructor
    · intro hall c hc heq
      obtain ⟨node, hnode⟩ := List.exists_mem_of_ne_nil _ (hinv.mem c hc).2
      obtain ⟨hslot', hmem, hkey⟩ := FetHash.mem_entries.1 hnode
      have hsame : (⟨computeHashByFET c.key, hslot'⟩ : Fin hashsz) = ⟨computeHashByFET f, hslot⟩ :=
        Fin.ext heq
      have hmem' : node ∈ h.table ⟨computeHashByFET f, hslot⟩ := hsame ▸ hmem
      exact hkey ▸ hall node hmem'
    · intro hall node hnode
      obtain ⟨heq, c, hc, hkey⟩ := hinv.slot _ node hnode
      exact hkey ▸ hall c hc (hkey ▸ heq)
  rw [hfind]
  constructor
  · rintro ⟨res, hres, -, hnone⟩ ⟨c, hc, hkey⟩
    rw [Option.some.injEq] at hres
    subst hres
    refine (hchain fun g => f.eventType - g.eventType ≤ 2 ^ 31).1 ?_
    rw [← findFETInHashList_some (hinv.sorted _) (hentry hc hkey)]
    exact Option.ne_none_iff_exists'.1 fun hno => hnone hno c hc hkey
  · intro hnear
    refine ⟨_, rfl, fun node hnode => hspec hnode, fun hnone c hc hkey => ?_⟩
    have hall := (hchain fun g => f.eventType - g.eventType ≤ 2 ^ 31).2 (hnear ⟨c, hc, hkey⟩)
    obtain ⟨node, hfound⟩ := (findFETInHashList_some (hinv.sorted _) (hentry hc hkey)).2 hall
    rw [hnone] at hfound
    cases hfound

/-- What the calls have to be like for a pair: no sum is the least `int`, no
event type in its chain is too far below, and `addFETToHash` is not called
for it when there was a call for it before. -/
structure Fine (cs : List FetCall) (f : FacEvent) : Prop where
  fits : f.Fits
  allFit : ∀ c ∈ cs, c.key.Fits
  near : (∃ c ∈ cs, c.key = f) → ∀ c ∈ cs, computeHashByFET c.key = computeHashByFET f →
    f.eventType - c.key.eventType ≤ 2 ^ 31
  once : ∀ pre fet post, cs = pre ++ .fet f fet :: post → ∀ c ∈ pre, c.key ≠ f

theorem Fine.of_snoc (h : Fine (cs ++ [c]) f) : Fine cs f := by
  refine ⟨h.fits, fun c' hc' => h.allFit c' (List.mem_append_left _ hc'), ?_, ?_⟩
  · rintro ⟨c', hc', hkey⟩ c'' hc''
    exact h.near ⟨c', List.mem_append_left _ hc', hkey⟩ c'' (List.mem_append_left _ hc'')
  · intro pre fet post heq
    exact h.once pre fet (post ++ [c]) (by rw [heq, List.append_assoc, List.cons_append])

theorem Fine.entries_le_one (hfine : Fine cs f) (hcalls : fetCalls cs = .ok h) :
    (h.entries f).length ≤ 1 := by
  induction cs using List.reverseRecOn generalizing h with
  | nil =>
    cases hcalls
    unfold FetHash.entries
    split
    · exact Nat.zero_le _
    · exact Nat.zero_le _
  | append_singleton cs c ih =>
    rw [fetCalls_snoc] at hcalls
    cases hpre : fetCalls cs with
    | error e =>
      rw [hpre] at hcalls
      cases hcalls
    | ok h₀ =>
      rw [hpre] at hcalls
      have hle := ih hfine.of_snoc hpre
      have hinv := fetInv_of_calls hpre
      have hmoved := FetHash.call_ok hcalls
      rcases hmoved.entries f with heq | ⟨hkey, heq⟩
      · omega
      · -- there was no entry for the pair before
        have hnone : ∀ c' ∈ cs, c'.key ≠ f := by
          intro c' hc' hc'key
          cases c with
          | fet g fet =>
            change f = g at hkey
            subst hkey
            exact hfine.once cs fet [] rfl c' hc' hc'key
          | template g t =>
            change f = g at hkey
            subst hkey
            obtain ⟨res, hfind, hsome, hno⟩ := (hinv.found_iff hfine.fits).2 hfine.of_snoc.near
            cases hmoved with
            | stored htable _ _ =>
              unfold FetHash.entries at heq
              rw [htable] at heq
              omega
            | added node _ _ hres _ =>
              have hfind' := hres f t rfl
              change findFETInHash f h₀ = _ at hfind'
              rw [hfind', Option.some.injEq] at hfind
              exact hno hfind.symm c' hc' hc'key
        have hempty : h₀.entries f = [] := by
          by_contra hne
          obtain ⟨node, hnode⟩ := List.exists_mem_of_ne_nil _ hne
          obtain ⟨c', hc', hc'key⟩ := hinv.exists_call hnode
          exact hnone c' hc' hc'key
        rw [heq, hempty]
        rfl

/-- A second entry is made if `addFETToHash` is called again. -/
theorem once_of_entries (hcalls : fetCalls cs = .ok h) (hle : (h.entries f).length ≤ 1)
    {pre post : List FetCall} {fet : Fet} (heq : cs = pre ++ .fet f fet :: post) :
    ∀ c ∈ pre, c.key ≠ f := by
  rintro c hc rfl
  have heq' : cs = (pre ++ [.fet c.key fet]) ++ post := by
    rw [heq, List.append_assoc]
    rfl
  rw [heq'] at hcalls
  obtain ⟨h₁, hcalls₁, hle₁⟩ := fetCalls_append hcalls
  obtain ⟨h₀, hcalls₀, -⟩ := fetCalls_append hcalls₁
  rw [fetCalls_snoc, hcalls₀] at hcalls₁
  change h₀.call (.fet c.key fet) = .ok h₁ at hcalls₁
  have hpos := List.length_pos_iff.2 ((fetInv_of_calls hcalls₀).mem c hc).2
  have hadded := (FetHash.call_ok hcalls₁).entries_added fun _ _ hno => nomatch hno
  change (h₁.entries c.key).length = (h₀.entries c.key).length + 1 at hadded
  have := hle₁ c.key
  omega

/-- The only way to leave the table is a sum that does not fit. -/
theorem fetCalls_outOfBounds (hfit : ∀ c ∈ cs, c.key.Fits) : fetCalls cs ≠ .error .outOfBounds := by
  induction cs using List.reverseRecOn with
  | nil => exact fun hno => nomatch hno
  | append_singleton cs c ih =>
    intro hno
    have hfit' : ∀ c ∈ cs, c.key.Fits := fun c' hc' => hfit c' (List.mem_append_left _ hc')
    have hslot := (computeHashByFET_lt c.key).2 (hfit c (List.mem_append_right _ (List.mem_singleton_self c)))
    rw [fetCalls_snoc] at hno
    cases hpre : fetCalls cs with
    | error e =>
      rw [hpre] at hno
      exact ih hfit' (hpre.trans hno)
    | ok h₀ =>
      rw [hpre] at hno
      change h₀.call c = _ at hno
      cases c with
      | fet g fet =>
        change computeHashByFET g < hashsz at hslot
        unfold FetHash.call addFETToHash at hno
        dsimp only at hno
        rw [dif_pos hslot] at hno
        cases hno
      | template g t =>
        change computeHashByFET g < hashsz at hslot
        unfold FetHash.call addTemplateToFETHash findFETInHash addFETToHash at hno
        dsimp only at hno
        rw [dif_pos hslot, dif_pos hslot] at hno
        dsimp only at hno
        split at hno
        · rename_i heq
          cases heq
        · split at hno
          · cases hno
          · cases hno
        · cases hno

def Abort.isAssertion : Except Abort FetHash → Bool
  | .error .assertion => true
  | _ => false

/-- The entry for exactly a facility and an event type is found whenever
one was added, and no second one is made, if and only if no sum is the
least `int`, no event type in the chain is too far below, and `addFETToHash`
is not called again for what is there. -/
theorem fetCalls_answers_iff (cs : List FetCall) (f : FacEvent)
    (habort : fetCalls cs ≠ .error .assertion) :
    (computeHashByFET f < hashsz ∧ ∃ h, fetCalls cs = .ok h ∧ h.Answers cs f) ↔ Fine cs f := by
  constructor
  · rintro ⟨hslot, h, hcalls, hfound, hle⟩
    have hinv := fetInv_of_calls hcalls
    have hfits := (computeHashByFET_lt f).1 hslot
    exact ⟨hfits, fun c hc => (hinv.mem c hc).1, (hinv.found_iff hfits).1 hfound,
      fun pre fet post heq => once_of_entries hcalls hle heq⟩
  · intro hfine
    refine ⟨(computeHashByFET_lt f).2 hfine.fits, ?_⟩
    cases hcalls : fetCalls cs with
    | error e =>
      cases e with
      | assertion => exact absurd hcalls habort
      | outOfBounds => exact absurd hcalls (fetCalls_outOfBounds hfine.allFit)
    | ok h =>
      exact ⟨h, rfl, ((fetInv_of_calls hcalls).found_iff hfine.fits).2 hfine.near,
        hfine.entries_le_one hcalls⟩

end Runs

def facEvent (fac : Nat) (ev : Int) (hfac : fac < 2 ^ 32 := by decide) (hev : IsInt32 ev := by decide) :
    FacEvent := ⟨fac, ev, hfac, hev⟩

/-- Two calls for the same pair, and one for another pair with the same slot. -/
theorem fetCalls_answers_pair : computeHashByFET (facEvent 8 1) < hashsz ∧ ∃ h,
      fetCalls [.fet (facEvent 8 1) ⟨none, none, true⟩, .fet (facEvent 7 2) ⟨none, none, true⟩,
        .template (facEvent 8 1) 5] = .ok h ∧
      h.Answers [.fet (facEvent 8 1) ⟨none, none, true⟩, .fet (facEvent 7 2) ⟨none, none, true⟩,
        .template (facEvent 8 1) 5] (facEvent 8 1) := by
  have habort : Abort.isAssertion (fetCalls [.fet (facEvent 8 1) ⟨none, none, true⟩,
      .fet (facEvent 7 2) ⟨none, none, true⟩, .template (facEvent 8 1) 5]) = false := by decide
  refine (fetCalls_answers_iff _ _ fun hno => ?_).2 ⟨by decide, by decide, fun _ => by decide, ?_⟩
  · rw [hno] at habort
    cases habort
  intro pre fet post heq
  rcases pre with - | ⟨a, - | ⟨b, - | ⟨c, pre⟩⟩⟩
  · exact fun _ hno => absurd hno List.not_mem_nil
  · simp [facEvent] at heq
  · simp at heq
  · simp at heq

/-- There is a pair without a slot. And the pair of the first of two calls is
not found any more after the second, for a pair with the same slot whose
event type is so far below that the difference is no `int`. -/
theorem fetCalls_not_answered : ¬computeHashByFET (facEvent 0 (-2 ^ 31)) < hashsz ∧
      ¬(computeHashByFET (facEvent 2 31) < hashsz ∧ ∃ h,
        fetCalls [.fet (facEvent 2 31) ⟨none, none, true⟩,
          .fet (facEvent 1 (-2 ^ 31)) ⟨none, none, true⟩] = .ok h ∧
        h.Answers [.fet (facEvent 2 31) ⟨none, none, true⟩,
          .fet (facEvent 1 (-2 ^ 31)) ⟨none, none, true⟩] (facEvent 2 31)) := by
  refine ⟨by decide, ?_⟩
  rintro ⟨-, h, hcalls, ⟨res, hfind, -, hnone⟩, -⟩
  have hlost : (fetCalls [.fet (facEvent 2 31) ⟨none, none, true⟩,
      .fet (facEvent 1 (-2 ^ 31)) ⟨none, none, true⟩]).toOption.map (findFETInHash (facEvent 2 31)) =
        some (some none) := by decide
  rw [hcalls] at hlost
  change some (findFETInHash (facEvent 2 31) h) = some (some none) at hlost
  rw [hfind] at hlost
  exact hnone (Option.some.inj (Option.some.inj hlost)) _ List.mem_cons_self rfl

end Evlog.Tmplmgmt
