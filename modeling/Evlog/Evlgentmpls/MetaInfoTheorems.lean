/-
Evlog.Evlgentmpls.MetaInfoTheorems — one template for each event type.

The element that keeps a list may change with each element that is added.
`UpTo` is what holds between two turns of the loop: among the elements that
are done, each class of equal facility and event type has one element that
is not `nthDup`, and that one has the class on its list.

The list is in order if `compare_info` orders the class, which it does as long
as no difference of two lines is too large for an `int`. For two elements
alone `Before` is the order in which they are put. The list is in order exactly
when `Before` is an order, on each class (`prepareMetaInfo_grouped`).
-/
import Evlog.Evlgentmpls.MetaInfo

namespace Evlog.Evlgentmpls

open Evlog.Lib Evlog.Lib.ListHeap Evlog.Posix

variable {nel : Nat} {version : Version} {behind : Fin nel → List UInt8} {info : Fin nel → EvlogInfo}

/-! ## The order of `compare_info` -/

theorem line_sub_nonpos {a b : Int32} (h : 0 ≤ (a - b).toInt) : (b - a).toInt ≤ 0 := by
  rw [Int32.toInt_sub] at h ⊢
  simp only [Int.bmod_def] at h ⊢
  omega

theorem compareInfo_self (i : Fin nel) : compareInfo version info i i = 0 := by
  have hself : ∀ s : CString, CString.strcmp s s = 0 := fun s => CString.strcmp_eq.2 rfl
  have hline : ((info i).pos.line - (info i).pos.line).toInt = 0 := by
    rw [Int32.sub_self]
    rfl
  cases version with
  | v1 => exact hline
  | v2 => simp only [compareInfo, hself, if_true, hline]

/-- An element that does not come before another is not behind it when the two
are compared the other way round. -/
theorem compareInfo_nonpos {i j : Fin nel} (h : ¬ compareInfo version info i j < 0) :
    compareInfo version info j i ≤ 0 := by
  have hfile : CString.strcmp (info j).pos.file (info i).pos.file
      = -CString.strcmp (info i).pos.file (info j).pos.file := CString.compareBytes_neg ..
  have hfun : CString.strcmp (info j).pos.function (info i).pos.function
      = -CString.strcmp (info i).pos.function (info j).pos.function := CString.compareBytes_neg ..
  have hline := line_sub_nonpos (a := (info i).pos.line) (b := (info j).pos.line)
  cases version with
  | v1 => exact hline (not_lt.1 h)
  | v2 =>
    simp only [compareInfo, hfile, hfun, Int.neg_eq_zero] at h ⊢
    split_ifs at h ⊢
    · exact hline (not_lt.1 h)
    · omega
    · omega

variable (version info) in
/-- Of two elements, the first is put in front. -/
def Before (i j : Fin nel) : Prop :=
  if i < j then ¬ compareInfo version info j i < 0 else compareInfo version info i j < 0

variable (version info) in
/-- The order the list of duplicates is to have: by `compare_info`, and among
equals by the place in the array. -/
def InOrder (i j : Fin nel) : Prop :=
  compareInfo version info i j ≤ 0 ∧ (compareInfo version info i j = 0 → i ≤ j)

theorem before_asymm {i j : Fin nel} (hij : Before version info i j) : ¬ Before version info j i := by
  unfold Before at hij ⊢
  rcases lt_trichotomy i j with h | rfl | h
  · rw [if_pos h] at hij
    rwa [if_neg h.asymm]
  · rw [if_neg (lt_irrefl i), compareInfo_self] at hij
    exact absurd hij (lt_irrefl 0)
  · rw [if_neg h.asymm] at hij
    rwa [if_pos h, not_not]

theorem Before.inOrder {i j : Fin nel} (h : Before version info i j) : InOrder version info i j := by
  unfold Before at h
  split_ifs at h with hij
  · exact ⟨compareInfo_nonpos h, fun _ => hij.le⟩
  · exact ⟨h.le, fun hzero => absurd h (by omega)⟩

theorem InOrder.before {i j : Fin nel} (h : InOrder version info i j) (hne : i ≠ j)
    (hscanned : i < j → ¬ compareInfo version info j i < 0) : Before version info i j := by
  unfold Before
  split_ifs with hij
  · exact hscanned hij
  · refine lt_of_le_of_ne h.1 fun hzero => ?_
    have := h.2 hzero
    omega

/-! ## The elements that are done -/

def LogMetaInfo.event (mi : LogMetaInfo nel) : UInt32 × Int32 := (mi.facility, mi.eventType)

theorem duplicateInfo_iff {mi mj : LogMetaInfo nel} : duplicateInfo mi mj = true ↔ mi.event = mj.event := by
  simp [duplicateInfo, LogMetaInfo.event, and_comm]

variable (version behind info) in
def eventOf (i : Fin nel) : UInt32 × Int32 := (newMetaInfo version behind info i).event

/-- The elements of which `j` is to be the first: those on its list, or itself
alone. -/
def members (j : Fin nel) (r : List (Nat × Fin nel)) : List (Fin nel) :=
  if r = [] then [j] else r.map Prod.snd

variable (version behind info) in
/-- `compare_info` orders the elements of each event. -/
def Orderly : Prop :=
  ∀ i j k, eventOf version behind info i = eventOf version behind info j →
    eventOf version behind info j = eventOf version behind info k →
    Before version info i j → Before version info j k → Before version info i k

variable (version behind info) in
/-- Of the first `k` elements, those of the event of `j`, with `j` in front:
none is behind one that it comes before, and if `compare_info` orders them they
are in order. -/
structure Group (k : Nat) (j : Fin nel) (ms : List (Fin nel)) : Prop where
  head : ms.head? = some j
  nodup : ms.Nodup
  scanned : ms.Pairwise fun i i' => i < i' → ¬ compareInfo version info i' i < 0
  sorted : Orderly version behind info → ms.Pairwise fun i i' => Before version info i i'
  mem : ∀ i, i ∈ ms ↔ i.val < k ∧ eventOf version behind info i = eventOf version behind info j

variable (version behind info) in
/-- What `mif[j]` is when `k` elements are done and its list is `r`. -/
structure Entry (k : Nat) (j : Fin nel) (mj : LogMetaInfo nel) (r : List (Nat × Fin nel)) : Prop where
  made : mj = { newMetaInfo version behind info j with dups := headAddr r, dupStatus := mj.dupStatus }
  unique : mj.dupStatus = .unique → r = []
  first : mj.dupStatus = .firstDup → 2 ≤ r.length
  nth : mj.dupStatus = .nthDup → r = []
  group : mj.dupStatus ≠ .nthDup → Group version behind info k j (members j r)

variable (version behind info) in
/-- The first `k` elements are done. -/
structure UpTo (k : Nat) (s : Prepared nel) (rs : Nat → List (Nat × Fin nel)) : Prop where
  length : s.mif.length = k
  family : Family s.heap rs
  nodes : ∀ q, s.heap q ≠ none → q < s.nodes
  entry : ∀ j : Fin nel, j.val < k → ∃ mj, s.mif[j.val]? = some mj ∧ Entry version behind info k j mj (rs j)
  fresh : ∀ m, k ≤ m → rs m = []
  kept : ∀ i : Fin nel, i.val < k → ∃ (j : Fin nel) (mj : LogMetaInfo nel), s.mif[j.val]? = some mj ∧
    mj.dupStatus ≠ .nthDup ∧ eventOf version behind info j = eventOf version behind info i
  alone : ∀ (i j : Fin nel) (mi mj : LogMetaInfo nel), s.mif[i.val]? = some mi → s.mif[j.val]? = some mj →
    mi.dupStatus ≠ .nthDup → mj.dupStatus ≠ .nthDup →
    eventOf version behind info i = eventOf version behind info j → i = j

variable {k : Nat} {s s' : Prepared nel} {rs rs' : Nat → List (Nat × Fin nel)} {i j : Fin nel}
  {mi mj : LogMetaInfo nel} {r : List (Nat × Fin nel)} {ms : List (Fin nel)}

theorem Entry.event (h : Entry version behind info k j mj r) : mj.event = eventOf version behind info j := by
  rw [h.made]
  rfl

theorem Group.exists_rest (h : Group version behind info k j ms) : ∃ rest, ms = j :: rest := by
  cases ms with
  | nil => exact absurd h.head (by simp)
  | cons a rest =>
    have hhead := h.head
    rw [List.head?_cons, Option.some_inj] at hhead
    exact ⟨rest, by rw [hhead]⟩

theorem Group.exists_other (h : Group version behind info k j ms) (hlen : 2 ≤ ms.length) :
    ∃ i ∈ ms, i ≠ j := by
  obtain ⟨rest, rfl⟩ := h.exists_rest
  cases rest with
  | nil => simp at hlen
  | cons b rest =>
    refine ⟨b, by simp, ?_⟩
    rintro rfl
    exact (List.nodup_cons.1 h.nodup).1 List.mem_cons_self

/-- An element of another event does not belong to the group. -/
theorem Group.later (h : Group version behind info k j ms) (hi : i.val = k)
    (hne : eventOf version behind info i ≠ eventOf version behind info j) :
    Group version behind info (k + 1) j ms := by
  refine ⟨h.head, h.nodup, h.scanned, h.sorted, fun i' => ?_⟩
  rw [h.mem i']
  constructor
  · rintro ⟨hlt, heq⟩
    exact ⟨by omega, heq⟩
  · rintro ⟨hlt, heq⟩
    refine ⟨?_, heq⟩
    have hi' : i' ≠ i := fun h => hne (h ▸ heq)
    have := Fin.val_ne_of_ne hi'
    omega

theorem Entry.later (h : Entry version behind info k j mj r) (hi : i.val = k)
    (hne : mj.dupStatus ≠ .nthDup → eventOf version behind info i ≠ eventOf version behind info j) :
    Entry version behind info (k + 1) j mj r :=
  ⟨h.made, h.unique, h.first, h.nth, fun hstatus => (h.group hstatus).later hi (hne hstatus)⟩

theorem UpTo.lt (h : UpTo version behind info k s rs) (hj : s.mif[j.val]? = some mj) : j.val < k := by
  obtain ⟨hlt, -⟩ := List.getElem?_eq_some_iff.1 hj
  rw [← h.length]
  exact hlt

theorem UpTo.entry_of (h : UpTo version behind info k s rs) (hj : s.mif[j.val]? = some mj) :
    Entry version behind info k j mj (rs j) := by
  obtain ⟨mj', hj', hentry⟩ := h.entry j (h.lt hj)
  rw [hj, Option.some_inj] at hj'
  rw [hj']
  exact hentry

/-! ## One turn -/

theorem group_single (hi : i.val = k)
    (hnew : ∀ j : Fin nel, j.val < k → eventOf version behind info j ≠ eventOf version behind info i) :
    Group version behind info (k + 1) i [i] := by
  refine ⟨rfl, by simp, by simp, fun _ => by simp, fun i' => ?_⟩
  rw [List.mem_singleton]
  constructor
  · rintro rfl
    exact ⟨by omega, rfl⟩
  · rintro ⟨hlt, heq⟩
    by_contra hne
    have hval := Fin.val_ne_of_ne hne
    exact hnew i' (by omega) heq

theorem UpTo.push (h : UpTo version behind info k s rs) (hi : i.val = k)
    (hnew : ∀ j mj, s.mif[j.val]? = some mj → mj.dupStatus ≠ .nthDup →
      eventOf version behind info j ≠ eventOf version behind info i)
    (hmif : s'.mif = s.mif ++ [newMetaInfo version behind info i]) (hheap : s'.heap = s.heap)
    (hnodes : s'.nodes = s.nodes) : UpTo version behind info (k + 1) s' rs := by
  have hold : ∀ j : Fin nel, j.val < k → s'.mif[j.val]? = s.mif[j.val]? := by
    intro j hj
    rw [hmif, List.getElem?_append_left (h.length ▸ hj)]
  have hat : s'.mif[i.val]? = some (newMetaInfo version behind info i) := by
    rw [hmif, hi, ← h.length]
    simp
  have hnone : ∀ j : Fin nel, j.val < k → eventOf version behind info j ≠ eventOf version behind info i := by
    intro j hj heq
    obtain ⟨j', mj', hj', hstatus, heq'⟩ := h.kept j hj
    exact hnew j' mj' hj' hstatus (heq'.trans heq)
  -- at an index of the new array is an old element or the new one
  have hcases : ∀ (m : Fin nel) (mm : LogMetaInfo nel), s'.mif[m.val]? = some mm →
      s.mif[m.val]? = some mm ∨ m = i := by
    intro m mm hm
    by_cases hmk : m.val < k
    · exact .inl ((hold m hmk).symm.trans hm)
    · obtain ⟨hlt, -⟩ := List.getElem?_eq_some_iff.1 hm
      rw [hmif, List.length_append, h.length, List.length_singleton] at hlt
      exact .inr (Fin.ext (by omega))
  refine ⟨by simp [hmif, h.length], hheap ▸ h.family, hnodes ▸ hheap ▸ h.nodes, fun j hj => ?_,
    fun m hm => h.fresh m (by omega), fun j hj => ?_, fun m m' mm mm' hm hm' hs hs' heq => ?_⟩
  · rcases Nat.lt_succ_iff_lt_or_eq.1 hj with hj | hj
    · obtain ⟨mj, hmj, hentry⟩ := h.entry j hj
      exact ⟨mj, (hold j hj).trans hmj, hentry.later hi fun _ => (hnone j hj).symm⟩
    · obtain rfl : j = i := Fin.ext (hj.trans hi.symm)
      have hempty : rs j.val = [] := h.fresh j.val (by omega)
      refine ⟨_, hat, ?_⟩
      rw [hempty]
      refine ⟨rfl, fun _ => rfl, fun hfirst => ?_, fun _ => rfl, fun _ => ?_⟩
      · exact absurd hfirst (by simp [newMetaInfo])
      · exact group_single hi hnone
  · rcases Nat.lt_succ_iff_lt_or_eq.1 hj with hj | hj
    · obtain ⟨j', mj', hj', hstatus, heq⟩ := h.kept j hj
      exact ⟨j', mj', (hold j' (h.lt hj')).trans hj', hstatus, heq⟩
    · obtain rfl : j = i := Fin.ext (hj.trans hi.symm)
      exact ⟨j, _, hat, by simp [newMetaInfo], rfl⟩
  · rcases hcases m mm hm with hmold | rfl
    · rcases hcases m' mm' hm' with hmold' | rfl
      · exact h.alone m m' mm mm' hmold hmold' hs hs' heq
      · exact absurd heq (hnew m mm hmold hs)
    · rcases hcases m' mm' hm' with hmold' | rfl
      · exact absurd heq.symm (hnew m' mm' hmold' hs')
      · rfl

/-- Of the new element and the one that was kept, `w` has the list now. -/
theorem UpTo.settle (h : UpTo version behind info k s rs) (hi : i.val = k)
    (hj : s.mif[j.val]? = some mj) (hstatus : mj.dupStatus ≠ .nthDup)
    (heq : eventOf version behind info j = eventOf version behind info i) {w l : Fin nel}
    (hwl : w = i ∧ l = j ∨ w = j ∧ l = i) {mw ml : LogMetaInfo nel}
    (hw : Entry version behind info (k + 1) w mw r) (hwstatus : mw.dupStatus = .firstDup)
    (hl : Entry version behind info (k + 1) l ml []) (hlstatus : ml.dupStatus = .nthDup)
    (hlen : s'.mif.length = k + 1)
    (hmif : ∀ m : Fin nel, s'.mif[m.val]? =
      if m = w then some mw else if m = l then some ml else s.mif[m.val]?)
    (hfam : Family s'.heap rs')
    (hrs : ∀ m : Nat, rs' m = if m = w.val then r else if m = l.val then [] else rs m)
    (hnodes : ∀ q, s'.heap q ≠ none → q < s'.nodes) : UpTo version behind info (k + 1) s' rs' := by
  have hjk := h.lt hj
  have hother : ∀ m : Fin nel, m ≠ w → m ≠ l → m ≠ i ∧ m ≠ j := by
    intro m hmw hml
    rcases hwl with ⟨rfl, rfl⟩ | ⟨rfl, rfl⟩
    · exact ⟨hmw, hml⟩
    · exact ⟨hml, hmw⟩
  have hkey : eventOf version behind info w = eventOf version behind info i := by
    rcases hwl with ⟨rfl, -⟩ | ⟨rfl, -⟩
    · rfl
    · exact heq
  have hwat : s'.mif[w.val]? = some mw := by rw [hmif, if_pos rfl]
  -- what is kept is `w` or is kept as before, with another event
  have hcases : ∀ (m : Fin nel) (mm : LogMetaInfo nel), s'.mif[m.val]? = some mm →
      mm.dupStatus ≠ .nthDup → m = w ∨ s.mif[m.val]? = some mm ∧
        eventOf version behind info m ≠ eventOf version behind info i := by
    intro m mm hm hs
    rw [hmif] at hm
    by_cases hmw : m = w
    · exact .inl hmw
    rw [if_neg hmw] at hm
    by_cases hml : m = l
    · rw [if_pos hml, Option.some_inj] at hm
      exact absurd hlstatus (hm ▸ hs)
    rw [if_neg hml] at hm
    exact .inr ⟨hm, fun hsame => (hother m hmw hml).2
      (h.alone m j mm mj hm hj hs hstatus (hsame.trans heq.symm))⟩
  refine ⟨hlen, hfam, hnodes, fun m hm => ?_, fun m hm => ?_, fun m hm => ?_,
    fun m m' mm mm' hm hm' hs hs' hsame => ?_⟩
  · by_cases hmw : m = w
    · rw [hmif, hrs, if_pos hmw, if_pos (congrArg Fin.val hmw)]
      exact ⟨mw, rfl, hmw ▸ hw⟩
    by_cases hml : m = l
    · rw [hmif, hrs, if_neg hmw, if_pos hml, if_neg (Fin.val_ne_of_ne hmw), if_pos (congrArg Fin.val hml)]
      exact ⟨ml, rfl, hml ▸ hl⟩
    obtain ⟨hmi, hmj⟩ := hother m hmw hml
    have hmk : m.val < k := by
      have := Fin.val_ne_of_ne hmi
      omega
    obtain ⟨mm, hat, hentry⟩ := h.entry m hmk
    rw [hmif, hrs, if_neg hmw, if_neg hml, if_neg (Fin.val_ne_of_ne hmw), if_neg (Fin.val_ne_of_ne hml)]
    exact ⟨mm, hat, hentry.later hi fun hmstatus hkeys =>
      hmj (h.alone m j mm mj hat hj hmstatus hstatus (hkeys.symm.trans heq.symm))⟩
  · have hmw : m ≠ w.val := by
      rcases hwl with ⟨rfl, -⟩ | ⟨rfl, -⟩ <;> omega
    have hml : m ≠ l.val := by
      rcases hwl with ⟨-, rfl⟩ | ⟨-, rfl⟩ <;> omega
    rw [hrs, if_neg hmw, if_neg hml]
    exact h.fresh m (by omega)
  · by_cases hsame : eventOf version behind info m = eventOf version behind info i
    · exact ⟨w, mw, hwat, by simp [hwstatus], hkey.trans hsame.symm⟩
    have hmk : m.val < k := by
      have := Fin.val_ne_of_ne fun hmi : m = i => hsame (hmi ▸ rfl)
      omega
    obtain ⟨j', mj', hj', hstatus', heq'⟩ := h.kept m hmk
    refine ⟨j', mj', ?_, hstatus', heq'⟩
    have hne : j' ≠ i ∧ j' ≠ j :=
      ⟨fun hji => hsame (heq'.symm.trans (hji ▸ rfl)), fun hjj => hsame (heq'.symm.trans (hjj ▸ heq))⟩
    have hjw : j' ≠ w ∧ j' ≠ l := by
      rcases hwl with ⟨rfl, rfl⟩ | ⟨rfl, rfl⟩
      · exact hne
      · exact hne.symm
    rw [hmif, if_neg hjw.1, if_neg hjw.2]
    exact hj'
  · rcases hcases m mm hm hs with rfl | ⟨hmold, hne⟩
    · rcases hcases m' mm' hm' hs' with rfl | ⟨-, hne'⟩
      · rfl
      · exact absurd (hsame.symm.trans hkey) hne'
    · rcases hcases m' mm' hm' hs' with rfl | ⟨hmold', -⟩
      · exact absurd (hsame.trans hkey) hne
      · exact h.alone m m' mm mm' hmold hmold' hs hs' hsame

/-- The list that an element is added to: the one there is, or a new one. -/
theorem UpTo.exists_list (h : UpTo version behind info k s rs) (hj : s.mif[j.val]? = some mj)
    (hstatus : mj.dupStatus ≠ .nthDup) :
    ∃ heap nodes dups r, dupsOf s mj = (heap, nodes, dups) ∧
      Family heap (Function.update rs j.val ((dups, j) :: r)) ∧ (∀ q, heap q ≠ none → q < nodes) ∧
      Group version behind info k j (((dups, j) :: r).map Prod.snd) := by
  have hentry := h.entry_of hj
  have hgroup := hentry.group hstatus
  have hdups : mj.dups = headAddr (rs j.val) := by rw [hentry.made]
  have hinfo : mj.info = j := by
    rw [hentry.made]
    rfl
  rw [dupsOf, hdups, hinfo]
  cases hr : rs j.val with
  | nil =>
    rw [hr] at hgroup
    have hfree : s.heap s.nodes = none := by
      by_contra hne
      exact absurd (h.nodes _ hne) (lt_irrefl _)
    refine ⟨_, _, _, [], rfl, h.family.mkListNode hfree hr j, fun q hq => ?_, hgroup⟩
    by_cases hqn : q = s.nodes
    · omega
    · rw [mkListNode, store_of_ne _ _ hqn] at hq
      have := h.nodes q hq
      omega
  | cons n r =>
    obtain ⟨a, d⟩ := n
    rw [hr] at hgroup
    obtain rfl : d = j := by simpa [members] using hgroup.head
    have hsame : Function.update rs d.val ((a, d) :: r) = rs := by rw [← hr, Function.update_eq_self]
    refine ⟨s.heap, s.nodes, a, r, rfl, ?_, h.nodes, hgroup⟩
    rw [hsame]
    exact h.family

/-- The group of `j` with the new element in it. -/
theorem Group.insert {n : Nat × Fin nel} {r' : List (Nat × Fin nel)}
    (h : Group version behind info k j (r.map Prod.snd)) (hi : i.val = k)
    (heq : eventOf version behind info j = eventOf version behind info i) {p : Nat}
    (hr' : insertInOrder (fun i j => compareInfo version info i j < 0) (p, i) r = n :: r')
    (hn : n.2 = i ∨ n.2 = j) : Group version behind info (k + 1) n.2 ((n :: r').map Prod.snd) := by
  have hkey : eventOf version behind info n.2 = eventOf version behind info i := by
    rcases hn with hn | hn
    · rw [hn]
    · rw [hn, heq]
  have hold : ∀ m ∈ r, m.2 < i ∧ eventOf version behind info m.2 = eventOf version behind info i := by
    intro m hm
    obtain ⟨hlt, hsame⟩ := (h.mem m.2).1 (List.mem_map_of_mem hm)
    exact ⟨Fin.lt_def.2 (by omega), hsame.trans heq⟩
  have hless : ∀ m ∈ r, compareInfo version info i m.2 < 0 → Before version info i m.2 := by
    intro m hm hm'
    rwa [Before, if_neg (hold m hm).1.asymm]
  refine ⟨rfl, ?_, ?_, fun horderly => ?_, fun i' => ?_⟩
  · have hperm := (insertInOrder_perm (fun i j => compareInfo version info i j < 0) (p, i) r).map Prod.snd
    rw [hr'] at hperm
    refine hperm.nodup_iff.2 (List.nodup_cons.2 ⟨fun hin => ?_, h.nodup⟩)
    obtain ⟨m, hm, hmi⟩ := List.mem_map.1 hin
    exact absurd (hold m hm).1 (by rw [hmi]; exact lt_irrefl i)
  · rw [← hr']
    refine insertInOrder_pairwise _ (fun m hm _ hlt => ?_) (fun m _ b hb _ _ hlt => ?_)
      (fun m _ hm _ => by simpa using hm) h.scanned
    · exact absurd hlt (hold m hm).1.asymm
    · exact absurd hlt (hold b hb).1.asymm
  · rw [← hr']
    refine insertInOrder_pairwise _ (fun m hm hm' => hless m hm (by simpa using hm'))
      (fun m hm b hb hm' hmb => ?_) (fun m hm hm' => ?_) (h.sorted horderly)
    · exact horderly i m.2 b.2 (hold m hm).2.symm ((hold m hm).2.trans (hold b hb).2.symm)
        (hless m hm (by simpa using hm')) hmb
    · rw [Before, if_pos (hold m hm).1]
      simpa using hm'
  · have hperm := (insertInOrder_perm (fun i j => compareInfo version info i j < 0) (p, i) r).map Prod.snd
    rw [hr'] at hperm
    rw [hperm.mem_iff, List.map_cons, List.mem_cons, h.mem i', hkey, heq]
    constructor
    · rintro (rfl | ⟨hlt, hsame⟩)
      · exact ⟨by omega, rfl⟩
      · exact ⟨by omega, hsame⟩
    · rintro ⟨hlt, hsame⟩
      by_cases hii : i' = i
      · exact .inl hii
      · have := Fin.val_ne_of_ne hii
        exact .inr ⟨by omega, hsame⟩

variable (version info) in
/-- The new element is first on the list, or the one that was stays it. -/
theorem addDup_some {h : ListHeap (Fin nel)} {nodes dups : Nat}
    (hring : Ring h ((dups, j) :: r)) (hnodes : ∀ q, h q ≠ none → q < nodes) (i : Fin nel) :
    ∃ h' n r', addDup version info h nodes dups nodes i = some (h', n.1) ∧ (n.2 = i ∨ n.2 = j) ∧
      insertInOrder (fun i j => compareInfo version info i j < 0) (nodes, i) ((dups, j) :: r) = n :: r' ∧
      Changes h ((dups, j) :: r) h' (n :: r') ∧ (∃ m, h' n.1 = some m ∧ m.data = n.2) ∧
      r' ≠ [] ∧ ∀ q, h' q ≠ none → q < nodes + 1 := by
  have hfree : h nodes = none := by
    by_contra hne
    exact absurd (hnodes _ hne) (lt_irrefl _)
  have hfuel : r.length < nodes := hring.length_le hnodes
  obtain ⟨h', hadd, hchanges⟩ :=
    addInOrder_some (fun i j => compareInfo version info i j < 0) hring hfree i hfuel
  obtain ⟨n, r', hr', hn⟩ : ∃ n r', insertInOrder (fun i j => compareInfo version info i j < 0) (nodes, i)
      ((dups, j) :: r) = n :: r' ∧ (n.2 = i ∨ n.2 = j) := by
    cases hless : decide (compareInfo version info i j < 0) with
    | true => exact ⟨_, _, insertInOrder_of_less hless r, .inl rfl⟩
    | false => exact ⟨_, _, insertInOrder_of_not_less hless r, .inr rfl⟩
  have hperm := insertInOrder_perm (fun i j => compareInfo version info i j < 0) (nodes, i) ((dups, j) :: r)
  rw [hr'] at hadd hchanges hperm
  refine ⟨h', n, r', hadd, hn, hr', hchanges, ⟨_, hchanges.ring.head.1, rfl⟩, ?_, fun q hq => ?_⟩
  · have hlen := hperm.length_eq
    rintro rfl
    simp at hlen
  · -- what is beyond is in neither ring
    by_contra hlt
    have hnone : h q = none := by
      by_contra hne
      have := hnodes q hne
      omega
    have hold : q ∉ ((dups, j) :: r).map Prod.fst := fun hin => hring.ne_none hin hnone
    have hnew : q ∉ (n :: r').map Prod.fst := by
      rw [(hperm.map Prod.fst).mem_iff, List.map_cons, List.mem_cons, not_or]
      exact ⟨by omega, hold⟩
    rw [hchanges.frame q hold hnew] at hq
    exact hq hnone

/-- What is found at an index of `mif` with one element changed and one added. -/
theorem getElem?_turn (h : UpTo version behind info k s rs) (hi : i.val = k) (hj : j.val < k)
    (x y : LogMetaInfo nel) (m : Fin nel) : (s.mif.set j.val x ++ [y])[m.val]? =
      if m = i then some y else if m = j then some x else s.mif[m.val]? := by
  have hlen : (s.mif.set j.val x).length = k := by rw [List.length_set, h.length]
  by_cases hmi : m = i
  · rw [if_pos hmi, hmi, hi, ← hlen, List.getElem?_concat_length]
  rw [if_neg hmi]
  have hmi := Fin.val_ne_of_ne hmi
  by_cases hlt : m.val < k
  · rw [List.getElem?_append_left (hlen ▸ hlt)]
    by_cases hmj : m = j
    · rw [if_pos hmj, hmj, List.getElem?_set_self (h.length ▸ hj)]
    · rw [if_neg hmj, List.getElem?_set_ne (Ne.symm (Fin.val_ne_of_ne hmj))]
  · have hmj : m ≠ j := by
      rintro rfl
      exact hlt hj
    rw [if_neg hmj, List.getElem?_eq_none (by simp [h.length]; omega),
      List.getElem?_eq_none (by rw [h.length]; omega)]

theorem entry_first {n : Nat × Fin nel} (hne : r ≠ [])
    (hgroup : Group version behind info (k + 1) n.2 ((n :: r).map Prod.snd)) :
    Entry version behind info (k + 1) n.2
      { newMetaInfo version behind info n.2 with dups := some n.1, dupStatus := .firstDup } (n :: r) := by
  refine ⟨rfl, fun h => ?_, fun _ => ?_, fun h => ?_, fun _ => hgroup⟩
  · simp at h
  · have := List.length_pos_iff.2 hne
    rw [List.length_cons]
    omega
  · simp at h

theorem entry_nth (k : Nat) (l : Fin nel) : Entry version behind info k l
      { newMetaInfo version behind info l with dups := none, dupStatus := .nthDup } [] := by
  refine ⟨rfl, fun _ => rfl, fun h => ?_, fun _ => rfl, fun h => ?_⟩
  · simp at h
  · simp at h

theorem isDupOf_upTo (h : UpTo version behind info k s rs) (hi : i.val = k)
    (hj : s.mif[j.val]? = some mj) (hstatus : mj.dupStatus ≠ .nthDup)
    (heq : eventOf version behind info j = eventOf version behind info i) :
    ∃ s' rs', isDupOf version info s i (newMetaInfo version behind info i) j.val mj = some s' ∧
      UpTo version behind info (k + 1) s' rs' := by
  obtain ⟨heap, nodes, dups, r, hlist, hfam, hnodes, hgroup⟩ := h.exists_list hj hstatus
  have hring := hfam.ring j.val
  rw [Function.update_self] at hring
  obtain ⟨heap', n, r', hadd, hn, hr', hchanges, ⟨m, hm, hdata⟩, hne, hnodes'⟩ :=
    addDup_some version info hring hnodes i
  have hfam' : Family heap' (Function.update rs j.val (n :: r')) := by
    rw [← Function.update_self j.val ((dups, j) :: r) rs] at hchanges
    have := hfam.update hchanges
    rwa [Function.update_idem] at this
  have hgroup' := hgroup.insert hi heq hr' hn
  have hjk := h.lt hj
  have hij : i ≠ j := fun hij => by
    have := congrArg Fin.val hij
    omega
  have hmj : ∀ dups status, ({ mj with dups := dups, dupStatus := status } : LogMetaInfo nel)
      = { newMetaInfo version behind info j with dups := dups, dupStatus := status } := by
    intro dups status
    rw [(h.entry_of hj).made]
  have hfirst := entry_first hne hgroup'
  have hlength : ∀ x y : LogMetaInfo nel, (s.mif.set j.val x ++ [y]).length = k + 1 := by
    intro x y
    rw [List.length_append, List.length_set, h.length]
    rfl
  simp only [isDupOf, hlist]
  rw [hadd]
  dsimp only [Option.bind_some]
  rw [hm, Option.map_some, hdata, hmj, hmj]
  by_cases hni : n.2 = i
  · rw [if_pos hni]
    rw [hni] at hfirst
    refine ⟨_, (Function.update rs j.val (n :: r')) ∘ Equiv.swap i.val j.val, rfl, ?_⟩
    refine h.settle hi hj hstatus heq (.inl ⟨rfl, rfl⟩) hfirst rfl (entry_nth (k + 1) j) rfl (hlength _ _)
      (getElem?_turn h hi hjk _ _) (hfam'.swap _ _) (fun q => ?_) hnodes'
    -- the list goes from j to i
    rw [Function.comp_apply, Equiv.swap_apply_def]
    split
    · exact Function.update_self ..
    · rename_i hqi
      split
      · rw [Function.update_of_ne (Fin.val_ne_of_ne hij)]
        exact h.fresh _ (by omega)
      · rename_i hqj
        exact Function.update_of_ne hqj ..
  · rw [if_neg hni]
    have hnj : n.2 = j := hn.resolve_left hni
    rw [hnj] at hfirst
    refine ⟨_, Function.update rs j.val (n :: r'), rfl, ?_⟩
    refine h.settle hi hj hstatus heq (.inr ⟨rfl, rfl⟩) hfirst rfl (entry_nth (k + 1) i) rfl (hlength _ _)
      (fun m => ?_) hfam' (fun q => ?_) hnodes'
    · rw [getElem?_turn h hi hjk]
      by_cases hmj : m = j
      · rw [if_pos hmj, if_pos hmj, if_neg (hmj ▸ Ne.symm hij)]
      · rw [if_neg hmj, if_neg hmj]
        rfl
    · by_cases hqj : q = j.val
      · rw [if_pos hqj, hqj, Function.update_self]
      · rw [if_neg hqj, Function.update_of_ne hqj]
        split
        · rename_i hqi
          exact h.fresh q (by omega)
        · rfl

/-- A turn of the loop takes the next element to the ones that are done. -/
theorem prepareStep_upTo (h : UpTo version behind info k s rs) (hi : i.val = k) :
    ∃ s' rs', prepareStep version behind info s i = some s' ∧ UpTo version behind info (k + 1) s' rs' := by
  unfold prepareStep
  dsimp only
  generalize (if (evlGenFacilityCode (info i).facility.bytes).isNone then s.errors + 1 else s.errors) = errors
  cases hfind : s.mif.findIdx? fun mj => mj.dupStatus ≠ .nthDup && duplicateInfo (newMetaInfo version behind info i) mj with
  | none =>
    refine ⟨⟨s.mif ++ [newMetaInfo version behind info i], s.heap, s.nodes, errors⟩, rs, rfl,
      h.push hi (fun j mj hj hstatus heq => ?_) rfl rfl rfl⟩
    have hno := List.findIdx?_eq_none_iff.1 hfind mj (List.mem_of_getElem? hj)
    have hdup : duplicateInfo (newMetaInfo version behind info i) mj = true := by
      rw [duplicateInfo_iff, (h.entry_of hj).event]
      exact heq.symm
    simp [hstatus, hdup] at hno
  | some j =>
    obtain ⟨hjlen, hyes, -⟩ := List.findIdx?_eq_some_iff_getElem.1 hfind
    have hjk : j < k := h.length ▸ hjlen
    obtain ⟨j, rfl⟩ : ∃ j' : Fin nel, j'.val = j := ⟨⟨j, by omega⟩, rfl⟩
    have hj : s.mif[j.val]? = some s.mif[j.val] := List.getElem?_eq_getElem hjlen
    generalize s.mif[j.val] = mj at hyes hj
    have hstatus : mj.dupStatus ≠ .nthDup := by
      have := (Bool.and_eq_true_iff.1 hyes).1
      simpa using this
    have heq : eventOf version behind info j = eventOf version behind info i := by
      have hdup := duplicateInfo_iff.1 (Bool.and_eq_true_iff.1 hyes).2
      rw [← (h.entry_of hj).event]
      exact hdup.symm
    dsimp only
    rw [hj]
    have herrors : UpTo version behind info k { s with errors := errors } rs :=
      ⟨h.length, h.family, h.nodes, h.entry, h.fresh, h.kept, h.alone⟩
    exact isDupOf_upTo herrors hi hj hstatus heq

/-! ## The whole array -/

theorem prepareSteps_upTo (is : List (Fin nel)) (his : is.map Fin.val = List.range' k is.length)
    (h : UpTo version behind info k s rs) :
    ∃ s' rs', is.foldlM (prepareStep version behind info) s = some s' ∧
      UpTo version behind info (k + is.length) s' rs' := by
  induction is generalizing k s rs with
  | nil => exact ⟨s, rs, rfl, h⟩
  | cons i is ih =>
    rw [List.map_cons, List.length_cons, List.range'_succ, List.cons.injEq] at his
    obtain ⟨s₁, rs₁, hstep, hnext⟩ := prepareStep_upTo h his.1
    obtain ⟨s', rs', hrun, hlast⟩ := ih his.2 hnext
    refine ⟨s', rs', ?_, ?_⟩
    · rw [List.foldlM_cons, hstep]
      exact hrun
    · rw [List.length_cons, ← Nat.add_assoc, Nat.add_right_comm]
      exact hlast

variable (version behind info) in
theorem upTo_zero : UpTo version behind info 0 ⟨[], fun _ => none, 0, 0⟩ fun _ => [] := by
  refine ⟨rfl, ⟨fun _ => ⟨by simp, trivial⟩, fun _ _ _ => by simp, fun q hq => absurd rfl hq⟩,
    fun q hq => absurd rfl hq, fun j hj => ?_, fun _ _ => rfl, fun j hj => ?_, fun i j mi mj hi => ?_⟩
  · omega
  · omega
  · simp at hi

variable (version behind info) in
/-- Duplicates are grouped: of each event one element is not `nthDup`, and
it has the elements of the event on its list, unless it is alone. -/
structure Grouped (mif : Fin nel → LogMetaInfo nel) (h : ListHeap (Fin nel))
    (rs : Nat → List (Nat × Fin nel)) : Prop where
  computed : ∀ i, (mif i).info = i ∧ (mif i).event = eventOf version behind info i
  representative : ∀ i, ∃! j, (mif j).dupStatus ≠ .nthDup ∧ (mif j).event = (mif i).event
  lists : Family h rs
  dups : ∀ i, (mif i).dups = headAddr (rs i.val)
  nth : ∀ i, (mif i).dupStatus = .nthDup → (mif i).dups = none
  single : ∀ j, (∀ i, (mif i).event = (mif j).event → i = j) → (mif j).dups = none
  several : ∀ i j, (mif j).dupStatus ≠ .nthDup → i ≠ j → (mif i).event = (mif j).event →
    (∀ m, m ∈ (rs j.val).map Prod.snd ↔ (mif m).event = (mif j).event) ∧
      ((rs j.val).map Prod.snd).Nodup

variable (version info) in
/-- The element that is not `nthDup` is the smallest of its event. -/
def Smallest (mif : Fin nel → LogMetaInfo nel) : Prop :=
  ∀ i j, (mif j).dupStatus ≠ .nthDup → (mif j).event = (mif i).event → InOrder version info j i

variable (version info) in
/-- And the lists are in order. -/
structure Sorted (mif : Fin nel → LogMetaInfo nel) (rs : Nat → List (Nat × Fin nel)) : Prop where
  smallest : Smallest version info mif
  lists : ∀ j, (mif j).dupStatus ≠ .nthDup → ((rs j.val).map Prod.snd).Pairwise (InOrder version info)

section Finished

variable {mif : Fin nel → LogMetaInfo nel}

theorem UpTo.event (h : UpTo version behind info nel s rs)
    (hmif : ∀ i : Fin nel, s.mif[i.val]? = some (mif i)) (j : Fin nel) :
    (mif j).event = eventOf version behind info j := (h.entry_of (hmif j)).event

theorem UpTo.members (h : UpTo version behind info nel s rs)
    (hmif : ∀ i : Fin nel, s.mif[i.val]? = some (mif i)) (hstatus : (mif j).dupStatus ≠ .nthDup) (i : Fin nel) :
    i ∈ Evlgentmpls.members j (rs j.val) ↔ (mif i).event = (mif j).event := by
  rw [((h.entry_of (hmif j)).group hstatus).mem i, h.event hmif, h.event hmif]
  exact and_iff_right i.isLt

theorem UpTo.grouped (h : UpTo version behind info nel s rs)
    (hmif : ∀ i : Fin nel, s.mif[i.val]? = some (mif i)) :
    Grouped version behind info mif s.heap rs := by
  have hentry : ∀ j, Entry version behind info nel j (mif j) (rs j.val) := fun j => h.entry_of (hmif j)
  have hevent := h.event hmif
  have hdups : ∀ j, (mif j).dups = headAddr (rs j.val) := by
    intro j
    rw [(hentry j).made]
  refine ⟨fun i => ⟨?_, hevent i⟩, fun i => ?_, h.family, hdups, fun i hstatus => ?_, fun j halone => ?_,
    fun i j hstatus hij heq => ?_⟩
  · rw [(hentry i).made]
    rfl
  · obtain ⟨j, mj, hj, hstatus, heq⟩ := h.kept i i.isLt
    have hmj : mif j = mj := Option.some_inj.1 ((hmif j).symm.trans hj)
    refine ⟨j, ⟨hmj ▸ hstatus, by rw [hevent, hevent, heq]⟩, fun j' hj' => ?_⟩
    refine h.alone _ _ _ _ (hmif j') (hmif j) hj'.1 (hmj ▸ hstatus) ?_
    rw [heq, ← hevent, hj'.2, hevent]
  · rw [hdups, (hentry i).nth hstatus]
    rfl
  · cases hstatus : (mif j).dupStatus with
    | unique =>
      rw [hdups, (hentry j).unique hstatus]
      rfl
    | nthDup =>
      rw [hdups, (hentry j).nth hstatus]
      rfl
    | firstDup =>
      have hlen := (hentry j).first hstatus
      have hne : rs j.val ≠ [] := by
        rintro hnil
        simp [hnil] at hlen
      have hkept : (mif j).dupStatus ≠ .nthDup := by simp [hstatus]
      obtain ⟨i, hi, hij⟩ := ((hentry j).group hkept).exists_other
        (by rwa [Evlgentmpls.members, if_neg hne, List.length_map])
      exact absurd (halone i ((h.members hmif hkept i).1 hi)) hij
  · have hmem := h.members hmif hstatus
    have hgroup := (hentry j).group hstatus
    have hne : rs j.val ≠ [] := by
      intro hnil
      have hi := (hmem i).2 heq
      rw [Evlgentmpls.members, if_pos hnil, List.mem_singleton] at hi
      exact hij hi
    rw [Evlgentmpls.members, if_neg hne] at hgroup hmem
    exact ⟨hmem, hgroup.nodup⟩

/-- In order are the elements that stand in front of others on the list. -/
theorem UpTo.orderly_of_sorted (h : UpTo version behind info nel s rs)
    (hmif : ∀ i : Fin nel, s.mif[i.val]? = some (mif i)) (hsorted : Sorted version info mif rs) :
    Orderly version behind info := by
  intro a b c hab hbc hbefore hbefore'
  obtain ⟨j, mj, hj, hstatus, heq⟩ := h.kept a a.isLt
  obtain rfl : mj = mif j := Option.some_inj.1 (hj.symm.trans (hmif j))
  have hgroup := (h.entry_of hj).group hstatus
  have hmem : ∀ i, eventOf version behind info i = eventOf version behind info a →
      i ∈ Evlgentmpls.members j (rs j.val) := fun i hi =>
    (h.members hmif hstatus i).2 (by rw [h.event hmif, h.event hmif, hi, heq])
  have hlist : (Evlgentmpls.members j (rs j.val)).Pairwise (InOrder version info) := by
    unfold Evlgentmpls.members
    split_ifs
    · exact List.pairwise_singleton ..
    · exact hsorted.lists j hstatus
  have hpairs : (Evlgentmpls.members j (rs j.val)).Pairwise (Before version info) :=
    (hlist.and (hgroup.scanned.and hgroup.nodup)).imp fun hall => hall.1.before hall.2.2 hall.2.1
  generalize Evlgentmpls.members j (rs j.val) = ms at hmem hpairs
  obtain ⟨ia, hia, rfl⟩ := List.getElem_of_mem (hmem a rfl)
  obtain ⟨ib, hib, rfl⟩ := List.getElem_of_mem (hmem b hab.symm)
  obtain ⟨ic, hic, rfl⟩ := List.getElem_of_mem (hmem c (hab.trans hbc).symm)
  rw [List.pairwise_iff_getElem] at hpairs
  have hlt : ∀ {m n : Nat} (hm : m < ms.length) (hn : n < ms.length),
      Before version info ms[m] ms[n] → m < n := by
    intro m n hm hn hmn
    rcases lt_trichotomy m n with hlt | rfl | hgt
    · exact hlt
    · exact absurd hmn (before_asymm hmn)
    · exact absurd hmn (before_asymm (hpairs n m hn hm hgt))
  exact hpairs ia ic hia hic ((hlt hia hib hbefore).trans (hlt hib hic hbefore'))

theorem UpTo.sorted_of_orderly (h : UpTo version behind info nel s rs)
    (hmif : ∀ i : Fin nel, s.mif[i.val]? = some (mif i)) (horderly : Orderly version behind info) :
    Sorted version info mif rs := by
  refine ⟨fun i j hstatus heq => ?_, fun j hstatus => ?_⟩
  · have hgroup := (h.entry_of (hmif j)).group hstatus
    have hi := (h.members hmif hstatus i).2 heq.symm
    obtain ⟨rest, hrest⟩ := hgroup.exists_rest
    rw [hrest] at hi
    rcases List.mem_cons.1 hi with rfl | hi
    · exact ⟨(compareInfo_self i).le, fun _ => le_refl i⟩
    · have hpairs := hgroup.sorted horderly
      rw [hrest] at hpairs
      exact ((List.pairwise_cons.1 hpairs).1 i hi).inOrder
  · have hpairs := ((h.entry_of (hmif j)).group hstatus).sorted horderly
    unfold Evlgentmpls.members at hpairs
    split_ifs at hpairs with hnil
    · rw [hnil]
      exact .nil
    · exact hpairs.imp fun hbefore => hbefore.inOrder

end Finished

theorem UpTo.freeMetaInfo (h : UpTo version behind info nel s rs) (mif : Fin nel → LogMetaInfo nel)
    (hmif : s.mif = List.ofFn mif) : freeMetaInfo s = some fun _ => none := by
  have hfuel : ∀ m, (rs m).length ≤ s.nodes := fun m => (h.family.ring m).length_le h.nodes
  have hfree := h.family.freeLists hfuel (List.range nel) List.nodup_range fun m hm => by
    by_contra hout
    exact hm (h.fresh m (by simpa using hout))
  have hdups : s.mif.map LogMetaInfo.dups = (List.range nel).map fun m => headAddr (rs m) := by
    rw [hmif, List.map_ofFn, ← List.map_coe_finRange_eq_range, List.map_map, ← List.ofFn_eq_map]
    refine congrArg List.ofFn (funext fun i => ?_)
    have hi : s.mif[i.val]? = some (mif i) := by simp [hmif]
    have hentry := h.entry_of hi
    rw [Function.comp_apply, hentry.made]
    rfl
  rw [← hdups, List.foldlM_map] at hfree
  exact hfree

variable (version behind info) in
theorem prepareMetaInfo_upTo : ∃ s mif rs, prepareMetaInfo version behind info = some s ∧
    s.mif = List.ofFn mif ∧ (∀ i : Fin nel, s.mif[i.val]? = some (mif i)) ∧
    UpTo version behind info nel s rs := by
  obtain ⟨s, rs, hrun, h⟩ := prepareSteps_upTo (List.finRange nel) (by simp [List.range_eq_range'])
    (upTo_zero version behind info)
  rw [Nat.zero_add, List.length_finRange] at h
  obtain ⟨mif, hmif⟩ : ∃ mif : Fin nel → LogMetaInfo nel, s.mif = List.ofFn mif := by
    refine ⟨fun i => s.mif.get (i.cast h.length.symm), ?_⟩
    exact (List.ofFn_get s.mif).symm.trans (List.ofFn_congr h.length _)
  exact ⟨s, mif, rs, hrun, hmif, fun i => by simp [hmif], h⟩

/-- `prepare_meta_info` comes to an end with the duplicates grouped. One
template is created for each event, and `free_meta_info` frees the lists, and
each of their nodes once. The element that is kept is the smallest and the
lists are in order exactly when `compare_info` orders the elements of each
event. -/
theorem prepareMetaInfo_grouped (version : Version) (behind : Fin nel → List UInt8)
    (info : Fin nel → EvlogInfo) :
    ∃ s mif rs, prepareMetaInfo version behind info = some s ∧ s.mif = List.ofFn mif ∧
      Grouped version behind info mif s.heap rs ∧
      ((createdFor s.mif).map LogMetaInfo.event).Nodup ∧
      (∀ i, (mif i).event ∈ (createdFor s.mif).map LogMetaInfo.event) ∧
      freeMetaInfo s = some (fun _ => none) ∧
      (Sorted version info mif rs ↔ Orderly version behind info) := by
  obtain ⟨s, mif, rs, hrun, hmif, hat, h⟩ := prepareMetaInfo_upTo version behind info
  have hgrouped := h.grouped hat
  refine ⟨s, mif, rs, hrun, hmif, hgrouped, ?_, fun i => ?_, h.freeMetaInfo mif hmif,
    h.orderly_of_sorted hat, h.sorted_of_orderly hat⟩
  · rw [createdFor, hmif, List.ofFn_eq_map, List.filter_map, List.map_map]
    refine List.Nodup.map_on (fun i hi j hj heq => ?_) ((List.nodup_finRange nel).filter _)
    have hi : (mif i).dupStatus ≠ .nthDup := by simpa using hi
    have hj : (mif j).dupStatus ≠ .nthDup := by simpa using hj
    exact (hgrouped.representative j).unique ⟨hi, heq⟩ ⟨hj, rfl⟩
  · obtain ⟨j, ⟨hstatus, heq⟩, -⟩ := hgrouped.representative i
    rw [← heq, createdFor, hmif]
    refine List.mem_map_of_mem (List.mem_filter.2 ⟨List.mem_ofFn.2 ⟨j, rfl⟩, ?_⟩)
    simpa using hstatus

/-- One call in one function, at lines of which the first and the last are too
far apart for an `int`. -/
def farLines (i : Fin 3) : EvlogInfo where
  format := ⟨[0x6d], by decide⟩
  facility := ⟨[0x75], by decide⟩
  pos := { line := [-2000000000, 0, 2000000000][i], function := ⟨[0x66], by decide⟩
           file := ⟨[0x63], by decide⟩ }

/-- None of the three can be kept as the smallest. -/
theorem farLines_not_smallest : ∃ s mif, prepareMetaInfo .v1 (fun _ => []) farLines = some s ∧
    s.mif = List.ofFn mif ∧ ¬ Smallest .v1 farLines mif := by
  obtain ⟨s, mif, rs, hrun, hmif, hat, h⟩ := prepareMetaInfo_upTo .v1 (fun _ => []) farLines
  refine ⟨s, mif, hrun, hmif, fun hsmallest => ?_⟩
  have hone : ∀ i j, (mif i).event = (mif j).event := fun i j => by
    rw [h.event hat, h.event hat]
    rfl
  obtain ⟨j, mj, hj, hstatus, -⟩ := h.kept 0 (by decide)
  obtain rfl : mj = mif j := Option.some_inj.1 (hj.symm.trans (hat j))
  -- `compare_info` puts line 0 behind the first, the last behind 0, and the last before the first
  have hle : ∀ i, compareInfo .v1 farLines j i ≤ 0 := fun i => (hsmallest i j hstatus (hone j i)).1
  have hfirst : j = 0 := by
    have h0 := hle 0
    have h1 := hle 1
    fin_cases j
    · rfl
    · exact absurd h0 (by decide)
    · exact absurd h1 (by decide)
  subst hfirst
  have hgroup := (h.entry_of hj).group hstatus
  have hlast := (h.members hat hstatus 2).2 (hone 2 0)
  obtain ⟨rest, hrest⟩ := hgroup.exists_rest
  have hscanned := hgroup.scanned
  rw [hrest] at hlast hscanned
  have hin : (2 : Fin 3) ∈ rest := (List.mem_cons.1 hlast).resolve_left (by decide)
  exact (List.pairwise_cons.1 hscanned).1 2 hin (by decide) (by decide)

end Evlog.Evlgentmpls
