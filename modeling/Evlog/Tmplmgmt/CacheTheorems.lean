/-
Evlog.Tmplmgmt.CacheTheorems — what reading and releasing a template does
to the others.

The first clone of a template stays in the cache while it is handed out:
whoever reads the template then is handed out the same clone (`Mgr.busy`).
When it is released its master is in the cache again, and every clone after
it is a new one.

`FetHash.Sound` is about the hash table, `Mgr.Inv` about the cache and the
templates that are handed out. A read keeps them where nobody has the clone
in the cache (`readTemplate_spec`), and so does a release
(`releaseTemplate_spec`); both leave the other templates as they are.
-/
import Evlog.Tmplmgmt.Cache

namespace Evlog.Tmplmgmt

open Evlog.Lib

/-! ## The hash table -/

namespace FetHash

variable {h h' : FetHash} {f g : FacEvent} {a b : Nat}

def chain (h : FetHash) (f : FacEvent) : List FetNode :=
  if hslot : computeHashByFET f < hashsz then h.table ⟨computeHashByFET f, hslot⟩ else []

def Entry (h : FetHash) (f : FacEvent) (a : Nat) : Prop := (⟨f, a⟩ : FetNode) ∈ h.chain f

/-- No event type of the chain is too far from this one, either way. -/
def Near (h : FetHash) (f : FacEvent) : Prop :=
  ∀ node ∈ h.chain f, f.eventType - node.key.eventType ≤ 2 ^ 31 ∧
    node.key.eventType - f.eventType ≤ 2 ^ 31

instance (h : FetHash) (f : FacEvent) : Decidable (h.Near f) :=
  inferInstanceAs (Decidable (∀ node ∈ h.chain f, _ ∧ _))

/-- The chains are in order and close together; each pair has one entry at
most, and each FET is that of one pair. -/
structure Sound (h : FetHash) : Prop where
  sorted : ∀ i, (h.table i).Pairwise FetNode.TypeLe
  slot : ∀ i, ∀ node ∈ h.table i, computeHashByFET node.key = i
  near : ∀ i, ∀ x ∈ h.table i, ∀ y ∈ h.table i, x.key.eventType - y.key.eventType ≤ 2 ^ 31
  one : ∀ f a b, h.Entry f a → h.Entry f b → a = b
  key : ∀ f g a, h.Entry f a → h.Entry g a → f = g
  lt : ∀ f a, h.Entry f a → a < h.fets.length
  owned : ∀ a, a < h.fets.length → ∃ f, h.Entry f a

theorem sound_empty : Sound .empty where
  sorted _ := List.Pairwise.nil
  slot _ _ hno := absurd hno List.not_mem_nil
  near _ _ hno := absurd hno List.not_mem_nil
  one f a b hno := by
    unfold Entry chain at hno
    split at hno <;> cases hno
  key f g a hno := by
    unfold Entry chain at hno
    split at hno <;> cases hno
  lt f a hno := by
    unfold Entry chain at hno
    split at hno <;> cases hno
  owned a hno := absurd hno (Nat.not_lt_zero a)

theorem chain_eq (hfits : f.Fits) :
    h.chain f = h.table ⟨computeHashByFET f, (computeHashByFET_lt f).2 hfits⟩ :=
  dif_pos ((computeHashByFET_lt f).2 hfits)

theorem Entry.fits (he : h.Entry f a) : f.Fits := by
  unfold Entry chain at he
  split at he
  · rename_i hslot
    exact (computeHashByFET_lt f).1 hslot
  · cases he

theorem Sound.near_entry (hs : h.Sound) (he : h.Entry f a) : h.Near f := by
  intro node hnode
  have hmem : (⟨f, a⟩ : FetNode) ∈ h.chain f := he
  rw [chain_eq he.fits] at hmem hnode
  exact ⟨hs.near _ _ hmem _ hnode, hs.near _ _ hnode _ hmem⟩

/-- What is looked for is found, where nothing is too far away. -/
theorem Sound.find (hs : h.Sound) (hfits : f.Fits) (hnear : h.Near f) :
    (findFETInHash f h = some none ∧ ∀ a, ¬ h.Entry f a) ∨
      ∃ a, findFETInHash f h = some (some ⟨f, a⟩) ∧ h.Entry f a := by
  have hslot := (computeHashByFET_lt f).2 hfits
  have hfind : findFETInHash f h = some (findFETInHashList f (h.chain f)) := by
    rw [chain_eq hfits]
    exact dif_pos hslot
  cases hres : findFETInHashList f (h.chain f) with
  | none =>
    refine .inl ⟨hfind.trans (congrArg some hres), fun a he => ?_⟩
    have hsorted : (h.chain f).Pairwise FetNode.TypeLe := by
      rw [chain_eq hfits]
      exact hs.sorted _
    obtain ⟨node, hnode⟩ := (findFETInHashList_some hsorted ⟨_, he, rfl⟩).2 fun node hnode =>
      (hnear node hnode).1
    rw [hres] at hnode
    cases hnode
  | some node =>
    have hspec := hres
    rw [findFETInHashList_eq] at hspec
    obtain ⟨hmem, hhit⟩ := search_spec hspec
    obtain ⟨key, addr⟩ := node
    obtain rfl : key = f := (f.hit_iff _).1 hhit
    exact .inr ⟨addr, hfind.trans (congrArg some hres), hmem⟩

theorem Sound.find_entry (hs : h.Sound) (he : h.Entry f a) : findFETInHash f h = some (some ⟨f, a⟩) := by
  rcases hs.find he.fits (hs.near_entry he) with ⟨-, hno⟩ | ⟨b, hfind, he'⟩
  · exact absurd he (hno a)
  · rw [hfind, hs.one f a b he he']

theorem Sound.find_none (hs : h.Sound) (hfits : f.Fits) (hnear : h.Near f)
    (hno : ∀ a, ¬ h.Entry f a) : findFETInHash f h = some none := by
  rcases hs.find hfits hnear with ⟨hfind, -⟩ | ⟨a, -, he⟩
  · exact hfind
  · exact absurd he (hno a)

theorem Sound.setFets (hs : h.Sound) {fets : List Fet} (hlen : fets.length = h.fets.length) :
    Sound { h with fets := fets } where
  sorted := hs.sorted
  slot := hs.slot
  near := hs.near
  one := hs.one
  key := hs.key
  lt f a he := hlen ▸ hs.lt f a he
  owned a ha := hs.owned a (hlen ▸ ha)

theorem mem_added (hslot : computeHashByFET f < hashsz) {i : Fin hashsz} {node : FetNode} :
    node ∈ h.table.add FetNode.TypeLe (fun _ => ⟨computeHashByFET f, hslot⟩) ⟨f, a⟩ i ↔
      (i.val = computeHashByFET f ∧ node = ⟨f, a⟩) ∨ node ∈ h.table i := by
  rw [(Chains.add_perm ..).mem_iff]
  by_cases hi : (⟨computeHashByFET f, hslot⟩ : Fin hashsz) = i
  · rw [if_pos hi, List.mem_cons]
    have hval : i.val = computeHashByFET f := (congrArg Fin.val hi).symm
    simp only [hval, true_and]
  · rw [if_neg hi]
    have hval : i.val ≠ computeHashByFET f := fun heq => hi (Fin.ext heq.symm)
    simp only [hval, false_and, false_or]

/-- A FET is added for a pair that has none. -/
theorem Sound.add (hs : h.Sound) (hfits : f.Fits) (hnear : h.Near f) (hno : ∀ a, ¬ h.Entry f a)
    (fet : Fet) :
    ∃ h', addFETToHash h f fet = some h' ∧ h'.Sound ∧ h'.fets = h.fets ++ [fet] ∧
      ∀ g a, h'.Entry g a ↔ (g = f ∧ a = h.fets.length) ∨ h.Entry g a := by
  have hslot := (computeHashByFET_lt f).2 hfits
  obtain ⟨table, htable⟩ : ∃ table, table = h.table.add FetNode.TypeLe
    (fun _ => ⟨computeHashByFET f, hslot⟩) ⟨f, h.fets.length⟩ := ⟨_, rfl⟩
  have hadd : addFETToHash h f fet = some ⟨table, h.fets ++ [fet]⟩ := by
    unfold addFETToHash
    rw [dif_pos hslot]
    dsimp only
    rw [insertFETIntoHashList_eq, htable]
    rfl
  have hmem {i : Fin hashsz} {node : FetNode} : node ∈ table i ↔
      (i.val = computeHashByFET f ∧ node = ⟨f, h.fets.length⟩) ∨ node ∈ h.table i := by
    rw [htable]
    exact mem_added hslot
  have hentry (g : FacEvent) (a : Nat) : Entry ⟨table, h.fets ++ [fet]⟩ g a ↔
      (g = f ∧ a = h.fets.length) ∨ h.Entry g a := by
    by_cases hg : g.Fits
    · unfold Entry
      rw [chain_eq hg, chain_eq hg, hmem, FetNode.mk.injEq]
      exact or_congr_left ⟨fun heq => heq.2, fun heq => ⟨congrArg computeHashByFET heq.1, heq⟩⟩
    · refine iff_of_false (fun he => hg he.fits) ?_
      rintro (⟨rfl, -⟩ | he)
      · exact hg hfits
      · exact hg he.fits
  refine ⟨_, hadd, ?_, rfl, hentry⟩
  have hchain {i : Fin hashsz} (hi : i.val = computeHashByFET f) : h.chain f = h.table i := by
    rw [chain_eq hfits]
    exact congrArg h.table (Fin.ext hi.symm)
  constructor
  case sorted =>
    intro i
    change (table i).Pairwise _
    rw [htable]
    exact Chains.add_sorted _ _ hs.sorted _ i
  case slot =>
    intro i node hnode
    rcases hmem.1 hnode with ⟨hi, rfl⟩ | hnode
    · exact hi.symm
    · exact hs.slot i node hnode
  case near =>
    intro i x hx y hy
    rcases hmem.1 hx with ⟨hi, rfl⟩ | hx'
    · rcases hmem.1 hy with ⟨-, rfl⟩ | hy'
      · dsimp only
        omega
      · exact (hnear y (hchain hi ▸ hy')).1
    · rcases hmem.1 hy with ⟨hi, rfl⟩ | hy'
      · exact (hnear x (hchain hi ▸ hx')).2
      · exact hs.near i x hx' y hy'
  case one =>
    intro g a b ha hb
    rcases (hentry g a).1 ha with ⟨rfl, rfl⟩ | ha'
    · rcases (hentry g b).1 hb with ⟨-, rfl⟩ | hb'
      · rfl
      · exact absurd hb' (hno b)
    · rcases (hentry g b).1 hb with ⟨rfl, rfl⟩ | hb'
      · exact absurd ha' (hno a)
      · exact hs.one g a b ha' hb'
  case key =>
    intro g g' a ha hb
    rcases (hentry g a).1 ha with ⟨rfl, rfl⟩ | ha'
    · rcases (hentry g' _).1 hb with ⟨rfl, -⟩ | hb'
      · rfl
      · exact absurd (hs.lt _ _ hb') (Nat.lt_irrefl _)
    · rcases (hentry g' a).1 hb with ⟨rfl, rfl⟩ | hb'
      · exact absurd (hs.lt _ _ ha') (Nat.lt_irrefl _)
      · exact hs.key g g' a ha' hb'
  case lt =>
    intro g a ha
    rw [List.length_append, List.length_singleton]
    rcases (hentry g a).1 ha with ⟨-, rfl⟩ | ha'
    · exact Nat.lt_succ_self _
    · exact Nat.lt_succ_of_lt (hs.lt g a ha')
  case owned =>
    intro a ha
    rw [List.length_append, List.length_singleton] at ha
    rcases Nat.lt_succ_iff_lt_or_eq.1 ha with hlt | rfl
    · obtain ⟨g, he⟩ := hs.owned a hlt
      exact ⟨g, (hentry g a).2 (.inr he)⟩
    · exact ⟨f, (hentry f _).2 (.inl ⟨rfl, rfl⟩)⟩

theorem chain_congr (heq : computeHashByFET g = computeHashByFET f) : h.chain g = h.chain f := by
  unfold chain
  simp only [heq]

theorem Sound.near_iff (hs : h.Sound) (hfits : f.Fits) :
    h.Near f ↔ ∀ g a, h.Entry g a → computeHashByFET g = computeHashByFET f →
      f.eventType - g.eventType ≤ 2 ^ 31 ∧ g.eventType - f.eventType ≤ 2 ^ 31 := by
  constructor
  · intro hall g a he heq
    have hmem : (⟨g, a⟩ : FetNode) ∈ h.chain g := he
    rw [chain_congr heq] at hmem
    exact hall _ hmem
  · intro hall node hnode
    have hmem := hnode
    rw [chain_eq hfits] at hmem
    have hslot := hs.slot _ node hmem
    refine hall node.key node.addr ?_ hslot
    unfold Entry
    rwa [chain_congr hslot]

theorem near_toDefault (h : FetHash) (f : FacEvent) : h.Near f.toDefault := by
  intro node _
  have hint := node.key.isInt32
  unfold IsInt32 at hint
  change -1 - node.key.eventType ≤ _ ∧ node.key.eventType - -1 ≤ _
  omega

end FetHash

/-! ## Templates in memory -/

namespace Mgr

variable {R : Type} {m m' m'' : Mgr R} {t : Nat} {tm : Template R} {k : FacEvent} {held : List Nat}

def Has (m : Mgr R) (t : Nat) (tm : Template R) : Prop := m.tmpls[t]? = some tm ∧ tm.freed = false

def IsMaster (m : Mgr R) (k : FacEvent) (t : Nat) : Prop :=
  ∃ tm, m.Has t tm ∧ tm.master = none ∧ tm.populated = none ∧ tm.file.key = k

def IsClone (m : Mgr R) (k : FacEvent) (t : Nat) : Prop :=
  ∃ tm master, m.Has t tm ∧ tm.refCount = 0 ∧ tm.file.key = k ∧ tm.master = some master ∧
    m.IsMaster k master

theorem deref_eq (h : m.Has t tm) : m.deref t = .ok tm := by
  unfold deref
  rw [h.1]
  dsimp only
  rw [h.2]
  rfl

theorem Has.lt (h : m.Has t tm) : t < m.tmpls.length := (List.getElem?_eq_some_iff.1 h.1).1

theorem Has.unique {tm' : Template R} (h : m.Has t tm) (h' : m.Has t tm') : tm = tm' :=
  Option.some.inj (h.1.symm.trans h'.1)

theorem IsMaster.not_clone (h : m.IsMaster k t) {k' : FacEvent} : ¬ m.IsClone k' t := by
  rintro ⟨tm, master, hhas, -, -, hmaster, -⟩
  obtain ⟨tm', hhas', hnone, -⟩ := h
  rw [hhas.unique hhas', hnone] at hmaster
  cases hmaster

/-- What becomes of the templates, but for those excepted: clones stay as
they are, and of a master nothing changes but the count. -/
def Evolves (m m' : Mgr R) (except : Nat → Prop) : Prop :=
  ∀ t tm, m.Has t tm → ¬ except t →
    ∃ tm', m'.Has t tm' ∧ tm'.file = tm.file ∧ tm'.master = tm.master ∧
      tm'.populated = tm.populated ∧ (tm.master ≠ none → tm' = tm)

theorem Evolves.refl (m : Mgr R) (except : Nat → Prop) : Evolves m m except :=
  fun _ tm h _ => ⟨tm, h, rfl, rfl, rfl, fun _ => rfl⟩

variable {except : Nat → Prop}

theorem Evolves.trans (h : Evolves m m' except) (h' : Evolves m' m'' except) :
    Evolves m m'' except := by
  intro t tm hhas hex
  obtain ⟨tm', hhas', hfile, hmaster, hpop, hsame⟩ := h t tm hhas hex
  obtain ⟨tm'', hhas'', hfile', hmaster', hpop', hsame'⟩ := h' t tm' hhas' hex
  refine ⟨tm'', hhas'', hfile'.trans hfile, hmaster'.trans hmaster, hpop'.trans hpop, fun hne => ?_⟩
  rw [hsame' (by rwa [hmaster]), hsame hne]

theorem Evolves.of_tmpls (htmpls : m'.tmpls = m.tmpls) (except : Nat → Prop) : Evolves m m' except := by
  intro t tm hhas _
  refine ⟨tm, ⟨?_, hhas.2⟩, rfl, rfl, rfl, fun _ => rfl⟩
  rw [htmpls]
  exact hhas.1

theorem Evolves.isMaster (h : Evolves m m' except) (hm : m.IsMaster k t) (hex : ¬ except t) :
    m'.IsMaster k t := by
  obtain ⟨tm, hhas, hnone, hpop, hkey⟩ := hm
  obtain ⟨tm', hhas', hfile, hmaster, hpop', -⟩ := h t tm hhas hex
  exact ⟨tm', hhas', hmaster.trans hnone, hpop'.trans hpop, by rw [hfile, hkey]⟩

theorem Evolves.isClone (h : Evolves m m' except) (hc : m.IsClone k t) (hex : ¬ except t)
    (hmasters : ∀ t k, m.IsMaster k t → ¬ except t) : m'.IsClone k t := by
  obtain ⟨tm, master, hhas, hcount, hkey, hmaster, hm⟩ := hc
  obtain ⟨tm', hhas', -, -, -, hsame⟩ := h t tm hhas hex
  obtain rfl := hsame (by rw [hmaster]; exact Option.some_ne_none _)
  exact ⟨tm', master, hhas', hcount, hkey, hmaster, h.isMaster hm (hmasters _ _ hm)⟩

theorem evolves_push (m : Mgr R) (tm : Template R) (except : Nat → Prop) :
    Evolves m { m with tmpls := m.tmpls ++ [tm] } except := by
  intro t tm' hhas _
  refine ⟨tm', ⟨?_, hhas.2⟩, rfl, rfl, rfl, fun _ => rfl⟩
  dsimp only
  rw [List.getElem?_append_left hhas.lt]
  exact hhas.1

theorem evolves_put (m : Mgr R) {tm' : Template R} (hhas : m.Has t tm)
    (h : ¬ except t → tm.master = none ∧ tm'.freed = false ∧ tm'.file = tm.file ∧
      tm'.master = tm.master ∧ tm'.populated = tm.populated) : Evolves m (m.put t tm') except := by
  intro u um hu hex
  by_cases heq : u = t
  · subst heq
    obtain rfl := hhas.unique hu
    obtain ⟨hnone, hfreed, hfile, hmaster, hpop⟩ := h hex
    refine ⟨tm', ⟨?_, hfreed⟩, hfile, hmaster, hpop, fun hne => absurd hnone hne⟩
    unfold put
    dsimp only
    rw [List.getElem?_set_self hu.lt]
  · refine ⟨um, ⟨?_, hu.2⟩, rfl, rfl, rfl, fun _ => rfl⟩
    unfold put
    dsimp only
    rw [List.getElem?_set_ne (Ne.symm heq)]
    exact hu.1

/-! ### What holds of the cache -/

/-- A FET, for what it is found by: it says that there is no template, or
has another FET that has one, or a master, or a clone that is handed out. -/
inductive FetOk (m : Mgr R) (held : List Nat) (k : FacEvent) : Fet → Prop
  | notThere : FetOk m held k ⟨none, none, true⟩
  | default {d t : Nat} (hentry : m.hash.Entry k.toDefault d)
      (hfet : m.hash.fets[d]? = some ⟨some t, none, false⟩) : FetOk m held k ⟨none, some d, false⟩
  | master {t : Nat} (h : m.IsMaster k t) : FetOk m held k ⟨some t, none, false⟩
  | clone {t : Nat} (h : m.IsClone k t) (hheld : t ∈ held) : FetOk m held k ⟨some t, none, false⟩

/-- The templates that are handed out are different clones. -/
structure Inv (m : Mgr R) (held : List Nat) : Prop where
  sound : m.hash.Sound
  nodup : held.Nodup
  clones : ∀ t ∈ held, ∃ k a, m.IsClone k t ∧ m.hash.Entry k a
  fets : ∀ k a fet, m.hash.Entry k a → m.hash.fets[a]? = some fet → FetOk m held k fet

def Kept (m m' : Mgr R) (held : List Nat) : Prop := ∀ t ∈ held, m'.tmpls[t]? = m.tmpls[t]?

theorem Kept.refl (m : Mgr R) (held : List Nat) : Kept m m held := fun _ _ => rfl

theorem Kept.trans (h : Kept m m' held) (h' : Kept m' m'' held) : Kept m m'' held :=
  fun t ht => (h' t ht).trans (h t ht)

theorem inv_start : Inv (start : Mgr R) [] :=
  ⟨FetHash.sound_empty, List.nodup_nil, fun _ hno => absurd hno List.not_mem_nil,
    fun _ a _ _ hfet => absurd hfet (by simp [start, FetHash.empty])⟩

theorem Inv.perm {held' : List Nat} (h : Inv m held) (hperm : held.Perm held') : Inv m held' where
  sound := h.sound
  nodup := hperm.nodup_iff.1 h.nodup
  clones t ht := h.clones t (hperm.mem_iff.2 ht)
  fets k a fet he hfet := by
    cases h.fets k a fet he hfet with
    | notThere => exact .notThere
    | default hentry hd => exact .default hentry hd
    | master hm => exact .master hm
    | clone hc hheld => exact .clone hc (hperm.mem_iff.1 hheld)

theorem Inv.isClone (h : m.Inv held) : ∀ t ∈ held, ∃ k, m.IsClone k t := by
  intro t ht
  obtain ⟨k, -, hc, -⟩ := h.clones t ht
  exact ⟨k, hc⟩

theorem Evolves.kept (h : Evolves m m' except) (hclones : ∀ t ∈ held, ∃ k, m.IsClone k t)
    (hex : ∀ t ∈ held, ¬ except t) : Kept m m' held := by
  intro t ht
  obtain ⟨k, tm, master, hhas, -, -, hmaster, -⟩ := hclones t ht
  obtain ⟨tm', hhas', -, -, -, hsame⟩ := h t tm hhas (hex t ht)
  rw [hhas'.1, hhas.1, hsame (by rw [hmaster]; exact Option.some_ne_none _)]

/-- Where no template is excepted, a FET that was fine is fine. -/
theorem FetOk.evolves {held' : List Nat} {fet : Fet} (hok : FetOk m held k fet)
    (h : Evolves m m' fun _ => False) (hheld : ∀ t ∈ held, t ∈ held')
    (hentry : ∀ g a, m.hash.Entry g a → m'.hash.Entry g a)
    (hfets : ∀ (d : Nat) fet, m.hash.fets[d]? = some fet → m'.hash.fets[d]? = some fet) :
    FetOk m' held' k fet := by
  cases hok with
  | notThere => exact .notThere
  | default he hd => exact .default (hentry _ _ he) (hfets _ _ hd)
  | master hm => exact .master (h.isMaster hm id)
  | clone hc ht => exact .clone (h.isClone hc id fun _ _ _ => id) (hheld _ ht)

/-! ### Clones -/

/-- A master is cloned. -/
theorem cloneTemplate_spec (h : m.IsMaster k t) :
    ∃ m', m.cloneTemplate t = .ok (m.tmpls.length, m') ∧ m'.hash = m.hash ∧
      Evolves m m' (fun _ => False) ∧ m'.IsClone k m.tmpls.length := by
  obtain ⟨tm, hhas, hnone, hpop, hkey⟩ := h
  obtain ⟨counted, hcounted⟩ : ∃ c, c = m.put t { tm with refCount := tm.refCount + 1 } := ⟨_, rfl⟩
  have hlength : counted.tmpls.length = m.tmpls.length := by
    rw [hcounted]
    exact List.length_set
  have hput : Evolves m counted fun _ => False := by
    rw [hcounted]
    exact evolves_put m hhas fun _ => ⟨hnone, hhas.2, rfl, rfl, rfl⟩
  have hpush := evolves_push counted ⟨tm.file, some t, 0, none, false⟩ fun _ => False
  refine ⟨{ counted with tmpls := counted.tmpls ++ [⟨tm.file, some t, 0, none, false⟩] }, ?_, ?_,
    hput.trans hpush, ⟨tm.file, some t, 0, none, false⟩, t, ⟨?_, rfl⟩, rfl, hkey, rfl, ?_⟩
  · unfold cloneTemplate
    rw [deref_eq hhas]
    dsimp only [bind, Except.bind]
    rw [if_neg (by simp [hnone, hpop]), ← hcounted, hlength]
  · rw [hcounted]
    rfl
  · dsimp only
    rw [← hlength, List.getElem?_append_right le_rfl, Nat.sub_self]
    rfl
  · exact (hput.trans hpush).isMaster ⟨tm, hhas, hnone, hpop, hkey⟩ id

theorem Inv.evolve (hinv : m.Inv held) (h : Evolves m m' fun _ => False) (hhash : m'.hash = m.hash) :
    m'.Inv held where
  sound := hhash ▸ hinv.sound
  nodup := hinv.nodup
  clones t ht := by
    obtain ⟨k, a, hc, he⟩ := hinv.clones t ht
    exact ⟨k, a, h.isClone hc id fun _ _ _ => id, hhash ▸ he⟩
  fets k a fet he hfet := by
    rw [hhash] at he hfet
    exact (hinv.fets k a fet he hfet).evolves h (fun _ => id) (fun _ _ => hhash ▸ id)
      (fun _ _ => hhash ▸ id)

theorem Inv.hand (hinv : m.Inv held) (hc : m.IsClone k t) {a : Nat} (he : m.hash.Entry k a)
    (hno : t ∉ held) : m.Inv (t :: held) where
  sound := hinv.sound
  nodup := List.nodup_cons.2 ⟨hno, hinv.nodup⟩
  clones := List.forall_mem_cons.2 ⟨⟨k, a, hc, he⟩, hinv.clones⟩
  fets k a fet he hfet := (hinv.fets k a fet he hfet).evolves (.refl _ _)
    (fun _ => List.mem_cons_of_mem _) (fun _ _ => id) (fun _ _ => id)

theorem Inv.lt (hinv : m.Inv held) (ht : t ∈ held) : t < m.tmpls.length := by
  obtain ⟨k, a, ⟨tm, master, hhas, -⟩, -⟩ := hinv.clones t ht
  exact hhas.lt

/-- A FET is added, and clones of that pair are handed out. -/
theorem Inv.addHash (hinv : m.Inv held) (hfits : k.Fits) (hnear : m.hash.Near k)
    (hno : ∀ a, ¬ m.hash.Entry k a) (new : List Nat) (hnew : ∀ t ∈ new, m.IsClone k t)
    (hnodup : (new ++ held).Nodup) {fet : Fet} (hok : FetOk m (new ++ held) k fet) :
    ∃ hash, addFETToHash m.hash k fet = some hash ∧ Inv { m with hash := hash } (new ++ held) ∧
      hash.fets = m.hash.fets ++ [fet] ∧
      ∀ g a, hash.Entry g a ↔ (g = k ∧ a = m.hash.fets.length) ∨ m.hash.Entry g a := by
  obtain ⟨hash, hadd, hsound, hfets, hentry⟩ := hinv.sound.add hfits hnear hno fet
  have htmpls : Evolves m { m with hash := hash } fun _ => False := .of_tmpls rfl _
  have hmore (d : Nat) (fet : Fet) (hd : m.hash.fets[d]? = some fet) : hash.fets[d]? = some fet := by
    rw [hfets, List.getElem?_append_left (List.getElem?_eq_some_iff.1 hd).1]
    exact hd
  have hevolves {held' : List Nat} (hheld : ∀ t ∈ held', t ∈ new ++ held) {k : FacEvent} {fet : Fet}
      (hok : FetOk m held' k fet) : FetOk { m with hash := hash } (new ++ held) k fet :=
    hok.evolves htmpls hheld (fun g a he => (hentry g a).2 (.inr he)) hmore
  refine ⟨hash, hadd, ⟨hsound, hnodup, fun t ht => ?_, fun g a fet' he hfet => ?_⟩, hfets, hentry⟩
  · rcases List.mem_append.1 ht with hmem | hmem
    · exact ⟨k, _, htmpls.isClone (hnew t hmem) id fun _ _ _ => id, (hentry k _).2 (.inl ⟨rfl, rfl⟩)⟩
    · obtain ⟨k, a, hc, he⟩ := hinv.clones t hmem
      exact ⟨k, a, htmpls.isClone hc id fun _ _ _ => id, (hentry k a).2 (.inr he)⟩
  · dsimp only at he hfet
    rw [hfets] at hfet
    rcases (hentry g a).1 he with ⟨rfl, rfl⟩ | hold
    · rw [List.getElem?_append_right le_rfl, Nat.sub_self] at hfet
      cases hfet
      exact hevolves (fun _ => id) hok
    · rw [List.getElem?_append_left (hinv.sound.lt g a hold)] at hfet
      exact hevolves (fun _ => List.mem_append_right _) (hinv.fets g a fet' hold hfet)

/-! ## Reading -/

/-- A clone is in the cache, for those who read the template. -/
def busy (m : Mgr R) (k : FacEvent) : Bool :=
  match m.findFet k with
  | .ok (some (_, fet)) => fet.template.any fun t => m.tmpls[t]?.any fun tm => tm.master.isSome
  | _ => false

def known (m : Mgr R) (k : FacEvent) : Bool :=
  match m.findFet k with
  | .ok (some _) => true
  | _ => false

def onDisk (host : Host R) (k : FacEvent) : Bool :=
  ((host.files k).elim (none, false) (searchDirs k)).1.isSome

theorem Inv.findFet_cases (hinv : m.Inv held) (hfits : k.Fits) (hnear : m.hash.Near k) :
    (m.findFet k = .ok none ∧ ∀ a, ¬ m.hash.Entry k a) ∨
      (∃ a, m.findFet k = .ok (some (a, ⟨none, none, true⟩))) ∨
      ∃ a t k', m.findFet k = .ok (some (a, ⟨some t, none, false⟩)) ∧
        m.hash.fets[a]? = some ⟨some t, none, false⟩ ∧
        m.hash.Entry k' a ∧ (k' = k ∨ k' = k.toDefault) ∧
        (m.IsMaster k' t ∨ m.IsClone k' t ∧ t ∈ held) := by
  rcases hinv.sound.find hfits hnear with ⟨hfind, hno⟩ | ⟨a, hfind, he⟩
  · refine .inl ⟨?_, hno⟩
    unfold findFet
    rw [hfind]
  · refine .inr ?_
    obtain ⟨fet, hfet⟩ : ∃ fet, m.hash.fets[a]? = some fet :=
      ⟨_, List.getElem?_eq_getElem (hinv.sound.lt k a he)⟩
    have hown (hdefault : fet.default = none) : m.findFet k = .ok (some (a, fet)) := by
      unfold findFet
      rw [hfind]
      dsimp only
      rw [hfet]
      dsimp only
      rw [hdefault]
    cases hinv.fets k a fet he hfet with
    | notThere => exact .inl ⟨a, hown rfl⟩
    | @default d t hd hfetd =>
      refine .inr ⟨d, t, k.toDefault, ?_, hfetd, hd, .inr rfl, ?_⟩
      · unfold findFet
        rw [hfind]
        dsimp only
        rw [hfet]
        dsimp only
        rw [hfetd]
      · cases hinv.fets _ d _ hd hfetd with
        | master hm => exact .inl hm
        | clone hc hheld => exact .inr ⟨hc, hheld⟩
    | @master t hm => exact .inr ⟨a, t, k, hown rfl, hfet, he, .inl rfl, .inl hm⟩
    | @clone t hc hheld => exact .inr ⟨a, t, k, hown rfl, hfet, he, .inl rfl, .inr ⟨hc, hheld⟩⟩

/-- The clone in the cache is handed out, or it is the master that is in
the cache. -/
theorem isMaster_of_busy {a : Nat} {k' : FacEvent}
    (hfind : m.findFet k = .ok (some (a, ⟨some t, none, false⟩)))
    (hor : m.IsMaster k' t ∨ m.IsClone k' t ∧ t ∈ held) (hfree : m.busy k = false) :
    m.IsMaster k' t := by
  rcases hor with hm | ⟨⟨tm, master, hhas, -, -, hmaster, -⟩, -⟩
  · exact hm
  · unfold busy at hfree
    rw [hfind] at hfree
    simp [hhas.1, hmaster] at hfree

/-- What has come of a read. -/
structure Handed (m : Mgr R) (held : List Nat) (res : Except Errno Nat) (m' : Mgr R) : Prop where
  kept : Kept m m' held
  inv : m'.Inv ((match res with | .ok t => [t] | .error _ => []) ++ held)

variable {flags : MgmtFlags}

theorem findEvlogTemplate_spec (hflags : flags.reuse1Clone = false) (hinv : m.Inv held)
    (hfits : k.Fits) (hnear : m.hash.Near k) (hfree : m.busy k = false) :
    (m.findEvlogTemplate flags k true = .ok (none, false, m) ∧ m.known k = false ∧
        ∀ a, ¬ m.hash.Entry k a) ∨
      m.findEvlogTemplate flags k true = .ok (none, true, m) ∨
      ∃ t m' a u, m.findEvlogTemplate flags k true = .ok (some t, false, m') ∧
        Handed m held (.ok t) m' ∧ m'.hash = m.hash ∧
        (m.hash.Entry k a ∨ m.hash.Entry k.toDefault a) ∧
        m.hash.fets[a]? = some ⟨some u, none, false⟩ := by
  unfold findEvlogTemplate
  rcases hinv.findFet_cases hfits hnear with ⟨hfind, hno⟩ | ⟨a, hfind⟩ |
    ⟨a, t, k', hfind, hfet, hentry, hkey, hor⟩
  · refine .inl ⟨?_, ?_, hno⟩
    · rw [hfind]
      rfl
    · unfold known
      rw [hfind]
  · refine .inr (.inl ?_)
    rw [hfind]
    rfl
  · refine .inr (.inr ?_)
    have hm := isMaster_of_busy hfind hor hfree
    obtain ⟨m', hclone, hhash, hevolves, hc⟩ := cloneTemplate_spec hm
    obtain ⟨tm, hhas, hnone, -⟩ := hm
    have howner : m.hash.Entry k a ∨ m.hash.Entry k.toDefault a := by
      rcases hkey with rfl | rfl
      · exact .inl hentry
      · exact .inr hentry
    refine ⟨m.tmpls.length, m', a, t, ?_, ⟨hevolves.kept hinv.isClone fun _ _ => id, ?_⟩, hhash, howner, hfet⟩
    · rw [hfind]
      dsimp only [bind, Except.bind]
      rw [deref_eq hhas]
      dsimp only
      rw [hnone, if_pos rfl, if_pos rfl, hclone]
      dsimp only
      rw [hflags]
      rfl
    · exact (hinv.evolve hevolves hhash).hand hc (hhash ▸ hentry) fun hmem =>
        absurd (hinv.lt hmem) (Nat.lt_irrefl _)

theorem addFet_spec (hinv : m.Inv held) (hfits : k.Fits) (hnear : m.hash.Near k)
    (hno : ∀ a, ¬ m.hash.Entry k a) {fet : Fet} (hok : FetOk m held k fet) :
    ∃ m', m.addFet k fet = .ok m' ∧ m'.Inv held ∧ m'.tmpls = m.tmpls := by
  obtain ⟨hash, hadd, hinv', -, -⟩ :=
    hinv.addHash hfits hnear hno [] (fun _ h => nomatch h) hinv.nodup hok
  refine ⟨{ m with hash := hash }, ?_, hinv', rfl⟩
  unfold addFet
  rw [hadd]

variable {file : TmplFile R}

/-- A template that is read from its file is handed out as a clone, and
the clone is in the cache. -/
theorem handOut_spec (hinv : m.Inv held) (hfits : k.Fits) (hnear : m.hash.Near k)
    (hno : ∀ a, ¬ m.hash.Entry k a) (hkey : file.key = k) :
    ∃ t m', m.handOut file true = .ok (t, m') ∧ Handed m held (.ok t) m' ∧
      m'.hash.fets = m.hash.fets ++ [⟨some t, none, false⟩] ∧
      ∀ g a, m'.hash.Entry g a ↔ (g = k ∧ a = m.hash.fets.length) ∨ m.hash.Entry g a := by
  obtain ⟨m₁, hm₁⟩ : ∃ m₁ : Mgr R, m₁ = { m with tmpls := m.tmpls ++ [⟨file, none, 0, none, false⟩] } :=
    ⟨_, rfl⟩
  have hread : Evolves m m₁ fun _ => False := by
    rw [hm₁]
    exact evolves_push m _ _
  have hmaster : m₁.IsMaster k m.tmpls.length := by
    refine ⟨⟨file, none, 0, none, false⟩, ⟨?_, rfl⟩, rfl, rfl, hkey⟩
    rw [hm₁]
    dsimp only
    rw [List.getElem?_append_right le_rfl, Nat.sub_self]
    rfl
  obtain ⟨m₂, hclone, hhash₂, hevolves₂, hc⟩ := cloneTemplate_spec hmaster
  have hhash : m₂.hash = m.hash := hhash₂.trans (by rw [hm₁])
  have hevolves := hread.trans hevolves₂
  have hlength : m₁.tmpls.length = m.tmpls.length + 1 := by
    rw [hm₁]
    exact List.length_append
  have hfresh : m₁.tmpls.length ∉ held := fun hmem => by
    have := hinv.lt hmem
    omega
  obtain ⟨hash, hadd, hinv', hfets, hentry⟩ := (hinv.evolve hevolves hhash).addHash hfits
    (hhash ▸ hnear) (hhash ▸ hno) [m₁.tmpls.length] (List.forall_mem_singleton.2 hc)
    (List.nodup_cons.2 ⟨hfresh, hinv.nodup⟩) (.clone hc List.mem_cons_self)
  rw [hhash] at hadd hfets hentry
  refine ⟨m₁.tmpls.length, { m₂ with hash := hash }, ?_, ⟨?_, hinv'⟩, hfets, hentry⟩
  · unfold handOut readTemplateFile
    dsimp only
    rw [← hm₁, if_pos rfl, hclone]
    dsimp only [bind, Except.bind]
    unfold addTemplateToFETHash
    rw [hkey, hhash, hinv.sound.find_none hfits hnear hno]
    dsimp only
    rw [hadd]
  · exact (hevolves.trans (.of_tmpls rfl _)).kept hinv.isClone fun _ _ => id

/-- What a read asks of the table and of the cache: that the slot is one of
the table and nothing in it is too far away, and that the clone in the
cache, if it is one, is not handed out. -/
structure ReadOk (m : Mgr R) (host : Host R) (k : FacEvent) : Prop where
  fits : k.Fits
  near : m.hash.Near k
  free : m.busy k = false
  default : m.known k = false → onDisk host k = false →
    k.toDefault.Fits ∧ m.busy k.toDefault = false

theorem toDefault_of_default (h : k.eventType = evlDefaultEventType) : k.toDefault = k := by
  obtain ⟨fac, ev, hfac, hev⟩ := k
  cases h
  rfl

theorem searchDirs_key {files : List (DiskFile R)} (h : (searchDirs k files).1 = some file) :
    file.key = k := by
  induction files with
  | nil => cases h
  | cons x rest ih =>
    cases x with
    | missing => exact ih h
    | unreadable => exact ih h
    | template file' =>
      unfold searchDirs at h
      split at h
      · rename_i hkey
        cases h
        exact hkey
      · exact ih h

theorem search_key {host : Host R}
    (h : ((host.files k).elim (none, false) (searchDirs k)).1 = some file) : file.key = k := by
  cases hfiles : host.files k with
  | none =>
    rw [hfiles] at h
    cases h
  | some files =>
    rw [hfiles] at h
    exact searchDirs_key h

theorem Handed.failed (hinv : m'.Inv held) (hkept : Kept m m' held) (e : Errno) :
    Handed m held (.error e) m' := ⟨hkept, hinv⟩

theorem Kept.of_tmpls (h : m'.tmpls = m.tmpls) : Kept m m' held := fun _ _ => by rw [h]

/-- The default template is read, or is not there. Then it has a FET of
its own, and the other FETs are as they were. -/
theorem readDefault_spec (hreuse : flags.reuse1Clone = false) (hignore : flags.ignoreAll = false)
    (host : Host R) (hdefault : k.toDefault = k) (hinv : m.Inv held) (hfits : k.Fits)
    (hfree : m.busy k = false) :
    ∃ res m', readTemplateOr none flags host m k true = .ok (res, m') ∧ Handed m held res m' ∧
      (∀ g a, m'.hash.Entry g a → m.hash.Entry g a ∨ g = k) ∧
      ∀ t, res = .ok t → ∃ d u, m'.hash.Entry k d ∧ m'.hash.fets[d]? = some ⟨some u, none, false⟩ := by
  have hnear : m.hash.Near k := hdefault ▸ FetHash.near_toDefault m.hash k
  unfold readTemplateOr
  rw [hignore, if_neg Bool.false_ne_true]
  rcases findEvlogTemplate_spec hreuse hinv hfits hnear hfree with ⟨hfind, -, hno⟩ | hfind |
    ⟨t, m', a, u, hfind, hhanded, hhash, hentry, hfet⟩
  · rw [hfind]
    dsimp only [bind, Except.bind]
    obtain ⟨found, hfound⟩ : ∃ found, found = (host.files k).elim (none, false) (searchDirs k) := ⟨_, rfl⟩
    rw [← hfound]
    obtain ⟨- | file, unreadable⟩ := found
    · obtain ⟨m', hadd, hinv', htmpls⟩ := addFet_spec hinv hfits hnear hno .notThere
      refine ⟨.error (if unreadable then .eio else .enoent), m', ?_, .failed hinv' (.of_tmpls htmpls) _,
        fun g a he => ?_, fun t ht => nomatch ht⟩
      · unfold noSuchTemplate
        dsimp only
        rw [hadd]
        rfl
      · obtain ⟨hash, hadd', -, -, hentry⟩ := hinv.addHash hfits hnear hno []
          (fun _ h => nomatch h) hinv.nodup .notThere
        unfold addFet at hadd
        rw [hadd'] at hadd
        cases hadd
        rcases (hentry g a).1 he with ⟨rfl, -⟩ | hold
        · exact .inr rfl
        · exact .inl hold
    · have hkey : file.key = k := search_key (congrArg Prod.fst hfound.symm)
      obtain ⟨t, m', hout, hhanded, hfets, hentry⟩ := handOut_spec hinv hfits hnear hno hkey
      refine ⟨.ok t, m', ?_, hhanded, fun g a he => ?_, fun t' _ => ⟨m.hash.fets.length, t, ?_, ?_⟩⟩
      · dsimp only
        rw [hout]
      · rcases (hentry g a).1 he with ⟨rfl, -⟩ | hold
        · exact .inr rfl
        · exact .inl hold
      · exact (hentry _ _).2 (.inl ⟨rfl, rfl⟩)
      · rw [hfets, List.getElem?_append_right le_rfl, Nat.sub_self]
        rfl
  · rw [hfind]
    exact ⟨.error .enoent, m, rfl, .failed hinv (.refl _ _) _, fun _ _ he => .inl he,
      fun t ht => nomatch ht⟩
  · rw [hfind]
    refine ⟨.ok t, m', rfl, hhanded, fun _ _ he => .inl (hhash ▸ he), fun _ _ => ⟨a, u, ?_, ?_⟩⟩
    · rw [hhash]
      rw [hdefault, or_self] at hentry
      exact hentry
    · rw [hhash]
      exact hfet

theorem toDefault_toDefault (k : FacEvent) : k.toDefault.toDefault = k.toDefault := rfl

/-- The default template was read, and the pair itself has no FET. -/
theorem near_of_read (hinv : m.Inv held) (hfits : k.Fits) (hnear : m.hash.Near k)
    (hno : ∀ a, ¬ m.hash.Entry k a) (hne : k.eventType ≠ evlDefaultEventType)
    (hsound : m'.hash.Sound) (hentry : ∀ g a, m'.hash.Entry g a → m.hash.Entry g a ∨ g = k.toDefault) :
    m'.hash.Near k ∧ ∀ a, ¬ m'.hash.Entry k a := by
  constructor
  · rw [hsound.near_iff hfits]
    intro g a he heq
    rcases hentry g a he with hold | rfl
    · exact (hinv.sound.near_iff hfits).1 hnear g a hold heq
    · have hint := k.isInt32
      unfold IsInt32 at hint
      change k.eventType - -1 ≤ _ ∧ -1 - k.eventType ≤ _
      omega
  · intro a he
    rcases hentry k a he with hold | heq
    · exact hno a hold
    · exact hne (congrArg FacEvent.eventType heq)

/-- There is no template for the event type: the default one is read. -/
theorem noSuchTemplate_spec (hreuse : flags.reuse1Clone = false) (hignore : flags.ignoreAll = false)
    (host : Host R) (hinv : m.Inv held) (hfits : k.Fits) (hnear : m.hash.Near k)
    (hno : ∀ a, ¬ m.hash.Entry k a) (hne : k.eventType ≠ evlDefaultEventType)
    (hfits' : k.toDefault.Fits) (hfree' : m.busy k.toDefault = false) (unreadable : Bool) :
    ∃ res m', noSuchTemplate (some fun m => readTemplateOr none flags host m k.toDefault true) m k
      unreadable = .ok (res, m') ∧ Handed m held res m' := by
  obtain ⟨res, m', hread, hhanded, hentry, hloaded⟩ :=
    readDefault_spec hreuse hignore host (toDefault_toDefault k) hinv hfits' hfree'
  obtain ⟨hnear', hno'⟩ := near_of_read hinv hfits hnear hno hne hhanded.inv.sound hentry
  unfold noSuchTemplate
  dsimp only
  rw [hread]
  dsimp only [bind, Except.bind]
  cases res with
  | error e =>
    obtain ⟨m'', hadd, hinv'', htmpls⟩ := addFet_spec hhanded.inv hfits hnear' hno' .notThere
    dsimp only
    rw [hadd]
    exact ⟨_, m'', rfl, .failed hinv'' (hhanded.kept.trans (.of_tmpls htmpls)) _⟩
  | ok t =>
    obtain ⟨d, u, hd, hfet⟩ := hloaded t rfl
    obtain ⟨m'', hadd, hinv'', htmpls⟩ :=
      addFet_spec hhanded.inv hfits hnear' hno' (.default hd hfet)
    dsimp only
    rw [hhanded.inv.sound.find_entry hd]
    dsimp only
    rw [hadd]
    exact ⟨_, m'', rfl, hhanded.kept.trans (.of_tmpls htmpls), hinv''⟩

/-- A template is read: it is a clone that nobody has, and the others
stay as they are. -/
theorem readTemplate_spec (hreuse : flags.reuse1Clone = false) (host : Host R) (hinv : m.Inv held)
    (hok : flags.ignoreAll = false → m.ReadOk host k) :
    ∃ res m', m.readTemplate flags host k true = .ok (res, m') ∧ Handed m held res m' := by
  cases hignore : flags.ignoreAll with
  | true =>
    refine ⟨.error .enoent, m, ?_, .failed hinv (.refl _ _) _⟩
    unfold readTemplate readTemplateOr
    rw [hignore, if_pos rfl, if_pos rfl, ite_self]
  | false =>
    obtain ⟨hfits, hnear, hfree, hdefault⟩ := hok hignore
    unfold readTemplate
    by_cases hne : k.eventType = evlDefaultEventType
    · rw [if_pos hne]
      obtain ⟨res, m', hread, hhanded, -⟩ :=
        readDefault_spec hreuse hignore host (toDefault_of_default hne) hinv hfits hfree
      exact ⟨res, m', hread, hhanded⟩
    · rw [if_neg hne]
      generalize hfallback : (some fun m => readTemplateOr none flags host m k.toDefault true) = fallback
      unfold readTemplateOr
      rw [hignore, if_neg Bool.false_ne_true]
      rcases findEvlogTemplate_spec hreuse hinv hfits hnear hfree with ⟨hfind, hknown, hno⟩ | hfind |
        ⟨t, m', a, u, hfind, hhanded, -⟩
      · rw [hfind]
        dsimp only [bind, Except.bind]
        obtain ⟨found, hfound⟩ :
          ∃ found, found = (host.files k).elim (none, false) (searchDirs k) := ⟨_, rfl⟩
        rw [← hfound]
        obtain ⟨- | file, unreadable⟩ := found
        · obtain ⟨hfits', hfree'⟩ := hdefault hknown (by rw [onDisk, ← hfound]; rfl)
          rw [← hfallback]
          exact noSuchTemplate_spec hreuse hignore host hinv hfits hnear hno hne hfits' hfree' _
        · have hkey : file.key = k := search_key (congrArg Prod.fst hfound.symm)
          obtain ⟨t, m', hout, hhanded, -⟩ := handOut_spec hinv hfits hnear hno hkey
          dsimp only
          rw [hout]
          exact ⟨.ok t, m', rfl, hhanded⟩
      · rw [hfind]
        exact ⟨.error .enoent, m, rfl, .failed hinv (.refl _ _) _⟩
      · rw [hfind]
        exact ⟨.ok t, m', rfl, hhanded⟩

/-! ## Releasing -/

theorem Inv.putClone (hinv : m.Inv (t :: held)) (hhas : m.Has t tm) {u : Template R}
    (hfile : u.file = tm.file) (hmaster : u.master = tm.master) (hcount : u.refCount = tm.refCount)
    (hfreed : u.freed = false) :
    (m.put t u).Inv (t :: held) ∧ (m.put t u).Has t u ∧ Kept m (m.put t u) held := by
  have hevolves : Evolves m (m.put t u) (· = t) := evolves_put m hhas fun hne => absurd rfl hne
  have hhas' : (m.put t u).Has t u := by
    refine ⟨?_, hfreed⟩
    unfold put
    dsimp only
    rw [List.getElem?_set_self hhas.lt]
  obtain ⟨k, a, hc, he⟩ := hinv.clones t List.mem_cons_self
  have hmasters (v : Nat) (k' : FacEvent) (hv : m.IsMaster k' v) : v ≠ t := by
    rintro rfl
    exact hv.not_clone hc
  have hclone {k : FacEvent} {v : Nat} (hv : m.IsClone k v) : (m.put t u).IsClone k v := by
    by_cases heq : v = t
    · subst heq
      obtain ⟨um, master, humem, hucount, hukey, humaster, hm⟩ := hv
      obtain rfl := hhas.unique humem
      exact ⟨u, master, hhas', hcount.trans hucount, by rw [hfile, hukey], hmaster.trans humaster,
        hevolves.isMaster hm (hmasters _ _ hm)⟩
    · exact hevolves.isClone hv heq hmasters
  refine ⟨⟨hinv.sound, hinv.nodup, fun v hv => ?_, fun k a fet he hfet => ?_⟩, hhas',
    hevolves.kept (fun v hv => hinv.isClone v (List.mem_cons_of_mem t hv)) fun v hv => ?_⟩
  · obtain ⟨k, a, hc, he⟩ := hinv.clones v hv
    exact ⟨k, a, hclone hc, he⟩
  · cases hinv.fets k a fet he hfet with
    | notThere => exact .notThere
    | default hd hfetd => exact .default hd hfetd
    | master hm => exact .master (hevolves.isMaster hm (hmasters _ _ hm))
    | clone hu hheld => exact .clone (hclone hu) hheld
  · rintro rfl
    exact (List.nodup_cons.1 hinv.nodup).1 hv

theorem freeTemplate_spec (hhas : m.Has t tm) (hcount : tm.refCount = 0) {master : Nat}
    (hmaster : tm.master = some master) (hm : m.IsMaster k master) :
    ∃ m', m.freeTemplate t = .ok m' ∧ m'.hash = m.hash ∧ Evolves m m' (· = t) := by
  obtain ⟨m₁, hm₁⟩ : ∃ m₁, m₁ = m.put t { tm with populated := none, freed := true } := ⟨_, rfl⟩
  have hfreed : Evolves m m₁ (· = t) := by
    rw [hm₁]
    exact evolves_put m hhas fun hne => absurd rfl hne
  obtain ⟨mm, hmm, hnone, -⟩ := hm
  have hne : master ≠ t := by
    rintro rfl
    rw [hmm.unique hhas, hmaster] at hnone
    cases hnone
  have hmm₁ : m₁.Has master mm := by
    refine ⟨?_, hmm.2⟩
    rw [hm₁]
    unfold put
    dsimp only
    rw [List.getElem?_set_ne (Ne.symm hne)]
    exact hmm.1
  refine ⟨m₁.put master { mm with refCount := mm.refCount - 1 }, ?_, ?_, hfreed.trans ?_⟩
  · unfold freeTemplate
    rw [deref_eq hhas]
    dsimp only [bind, Except.bind]
    rw [if_neg (not_not_intro hcount), ← hm₁, hmaster]
    dsimp only
    unfold tmplDecRef
    rw [deref_eq hmm₁]
    rfl
  · rw [hm₁]
    rfl
  · exact evolves_put m₁ hmm₁ fun _ => ⟨hnone, hmm.2, rfl, rfl, rfl⟩

/-- A clone is freed: the cache has its master again if it had the
clone. -/
theorem freeCached_spec (hinv : m.Inv (t :: held)) :
    ∃ m', m.freeCached t = .ok m' ∧ m'.Inv held ∧ Kept m m' held := by
  obtain ⟨k, a, hc, he⟩ := hinv.clones t List.mem_cons_self
  have hclone := hc
  obtain ⟨tm, master, hhas, hcount, hkey, hmaster, hm⟩ := hc
  obtain ⟨fet, hfet⟩ : ∃ fet, m.hash.fets[a]? = some fet :=
    ⟨_, List.getElem?_eq_getElem (hinv.sound.lt k a he)⟩
  obtain ⟨m₁, hm₁⟩ : ∃ m₁, m₁ =
      if fet.template = some t then m.putFet a { fet with template := tm.master } else m := ⟨_, rfl⟩
  have htmpls : m₁.tmpls = m.tmpls := by
    rw [hm₁]
    split <;> rfl
  have hentry (g : FacEvent) (b : Nat) : m₁.hash.Entry g b ↔ m.hash.Entry g b := by
    rw [hm₁]
    split <;> exact Iff.rfl
  have hsound : m₁.hash.Sound := by
    rw [hm₁]
    split
    · exact hinv.sound.setFets List.length_set
    · exact hinv.sound
  have hsame : Evolves m m₁ fun _ => False := .of_tmpls htmpls _
  have hhas₁ : m₁.Has t tm := ⟨htmpls ▸ hhas.1, hhas.2⟩
  obtain ⟨m', hfree, hhash, hevolves⟩ := freeTemplate_spec hhas₁ hcount hmaster (hsame.isMaster hm id)
  have hall : Evolves m m' (· = t) := (Evolves.of_tmpls htmpls _).trans hevolves
  have hmasters (u : Nat) (k' : FacEvent) (hu : m.IsMaster k' u) : u ≠ t := by
    rintro rfl
    exact hu.not_clone hclone
  have hothers (u : Nat) (hu : u ∈ held) : u ≠ t := by
    rintro rfl
    exact (List.nodup_cons.1 hinv.nodup).1 hu
  refine ⟨m', ?_, ?_, hall.kept (fun u hu => hinv.isClone u (List.mem_cons_of_mem t hu)) hothers⟩
  · unfold freeCached
    rw [deref_eq hhas]
    dsimp only [bind, Except.bind]
    rw [hkey, hinv.sound.find_entry he]
    dsimp only
    rw [hfet]
    dsimp only
    rw [← hm₁, hfree]
  have hfets (g : FacEvent) (b : Nat) (fet' : Fet) (hg : m.hash.Entry g b)
      (hb : m.hash.fets[b]? = some fet') (ht : fet'.template = some t) : b = a := by
    cases hinv.fets g b fet' hg hb with
    | notThere => cases ht
    | default => cases ht
    | master hu =>
      cases ht
      exact absurd hclone hu.not_clone
    | clone hu =>
      cases ht
      obtain ⟨tm', -, hhas', -, hkey', -⟩ := hu
      obtain rfl := hhas.unique hhas'
      exact hinv.sound.one g b a hg (by rwa [← hkey', hkey])
  have hold (b : Nat) (hb : fet.template = some t → b ≠ a) : m'.hash.fets[b]? = m.hash.fets[b]? := by
    rw [hhash, hm₁]
    split
    · rename_i hcached
      exact List.getElem?_set_ne (Ne.symm (hb hcached))
    · rfl
  have hnew (hcached : fet.template = some t) :
      m'.hash.fets[a]? = some ⟨some master, none, false⟩ := by
    have hfull : fet = ⟨some t, none, false⟩ := by
      cases hinv.fets k a fet he hfet with
      | notThere => cases hcached
      | default => cases hcached
      | master => cases hcached; rfl
      | clone => cases hcached; rfl
    rw [hhash, hm₁, if_pos hcached, hfull, hmaster]
    exact List.getElem?_set_self (hinv.sound.lt k a he)
  have hkeep (g : FacEvent) (b : Nat) (fet' : Fet) (hg : m.hash.Entry g b)
      (hb : m.hash.fets[b]? = some fet') (hne : fet'.template ≠ some t) : FetOk m' held g fet' := by
    cases hinv.fets g b fet' hg hb with
    | notThere => exact .notThere
    | @default d u hd hfetd =>
      have hd' : m'.hash.Entry g.toDefault d := by
        rw [hhash]
        exact (hentry _ _).2 hd
      by_cases hda : fet.template = some t ∧ d = a
      · obtain ⟨hcached, rfl⟩ := hda
        exact .default hd' (hnew hcached)
      · exact .default hd' ((hold d fun hcached heq => hda ⟨hcached, heq⟩).trans hfetd)
    | master hu => exact .master (hall.isMaster hu (hmasters _ _ hu))
    | @clone u hu hheld =>
      have hut : u ≠ t := fun heq => hne (congrArg some heq)
      exact .clone (hall.isClone hu hut hmasters) ((List.mem_cons.1 hheld).resolve_left hut)
  refine ⟨hhash ▸ hsound, (List.nodup_cons.1 hinv.nodup).2, fun u hu => ?_, fun g b fet' hg hb => ?_⟩
  · obtain ⟨k', a', hu', he'⟩ := hinv.clones u (List.mem_cons_of_mem t hu)
    refine ⟨k', a', hall.isClone hu' (hothers u hu) hmasters, ?_⟩
    rw [hhash]
    exact (hentry _ _).2 he'
  · rw [hhash, hentry] at hg
    by_cases hba : fet.template = some t ∧ b = a
    · obtain ⟨hcached, rfl⟩ := hba
      rw [hnew hcached] at hb
      cases hb
      rw [hinv.sound.key g k b hg he]
      exact .master (hall.isMaster hm (hmasters _ _ hm))
    · rw [hold b fun hcached heq => hba ⟨hcached, heq⟩] at hb
      refine hkeep g b fet' hg hb fun ht => hba ?_
      obtain rfl := hfets g b fet' hg hb ht
      rw [hfet] at hb
      cases hb
      exact ⟨ht, rfl⟩

/-- A template is released: the others stay as they are, and the cache
has its master again if it had the clone. -/
theorem releaseTemplate_spec (hreuse : flags.reuse1Clone = false) (hinv : m.Inv (t :: held)) :
    ∃ m', m.releaseTemplate flags t = .ok m' ∧ m'.Inv held ∧ Kept m m' held := by
  obtain ⟨k, a, ⟨tm, master, hhas, hcount, hkey, hmaster, hm⟩, he⟩ :=
    hinv.clones t List.mem_cons_self
  have hfreed (m₁ : Mgr R) : (if tm.master.isSome ∧ flags.reuse1Clone then .ok m₁ else m₁.freeCached t) =
      m₁.freeCached t := if_neg (by simp [hreuse])
  obtain ⟨m₁, hrelease, hinv₁, hkept₁⟩ : ∃ m₁, m.releaseTemplate flags t = m₁.freeCached t ∧
      m₁.Inv (t :: held) ∧ Kept m m₁ held := by
    unfold releaseTemplate
    rw [deref_eq hhas]
    dsimp only [bind, Except.bind]
    rw [if_neg (not_not_intro hcount)]
    cases flags.lazyDepop with
    | true => exact ⟨m, hfreed m, hinv, .refl _ _⟩
    | false =>
      obtain ⟨depop, hdepop⟩ : ∃ depop : Template R, depop = { tm with populated := none } := ⟨_, rfl⟩
      obtain ⟨hinv₁, -, hkept⟩ := hinv.putClone hhas (u := depop) (by rw [hdepop]) (by rw [hdepop])
        (by rw [hdepop]) (by rw [hdepop]; exact hhas.2)
      refine ⟨m.put t depop, ?_, hinv₁, hkept⟩
      rw [if_neg Bool.false_ne_true]
      unfold depopulateTemplate
      rw [deref_eq hhas, ← hfreed, hdepop]
      rfl
  obtain ⟨m', hfree, hinv', hkept'⟩ := freeCached_spec hinv₁
  exact ⟨m', hrelease.trans hfree, hinv', hkept₁.trans hkept'⟩

end Mgr

end Evlog.Tmplmgmt
