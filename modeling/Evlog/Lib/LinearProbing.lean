/-
Evlog.Lib.LinearProbing — hash tables with open addressing.

A table is a list of slots, each empty or with an element in it. A key is
looked for from its home slot on, slot by slot and round the end, until the
slot is empty or has the key in it, or the home slot comes again
(`probe`). Every probe ends, at the first stop or nowhere (`probe_eq`).

`Reachable` is the invariant: between its home and its slot an element meets
no stop. It makes the keys of a table different and every element the one
that its key finds (`probe_of_mem`), and adding an element at the end of its
probe keeps it (`Reachable.set`). Without room there is no end, and elements
that are added one by one to an empty table of another size are all there
afterwards (`addAll_spec`).
-/
import Mathlib.Tactic
import Mathlib.Data.List.ReduceOption

namespace Evlog.Lib.LinearProbing

variable {α κ : Type} (key : α → κ) (home : κ → Nat)

/-! ## Slots -/

def slotAt (t : List (Option α)) (k : κ) (d : Nat) : Nat := (home k + d) % t.length

section

variable {home} {t : List (Option α)} {k : κ}

variable (home) in
theorem slotAt_lt (hn : 0 < t.length) (k : κ) (d : Nat) : slotAt home t k d < t.length :=
  Nat.mod_lt _ hn

variable (home) in
/-- Every slot is at a distance that is less than the size. -/
theorem exists_slotAt {j : Nat} (hj : j < t.length) (k : κ) : ∃ d < t.length, slotAt home t k d = j := by
  have hn : 0 < t.length := by omega
  have hhome := Nat.mod_lt (home k) hn
  refine ⟨(j + (t.length - home k % t.length)) % t.length, Nat.mod_lt _ hn, ?_⟩
  calc slotAt home t k ((j + (t.length - home k % t.length)) % t.length)
      = (home k % t.length + (j + (t.length - home k % t.length))) % t.length := by
        rw [slotAt, Nat.add_mod_mod, Nat.mod_add_mod]
    _ = (j + t.length) % t.length := by congr 1; omega
    _ = j := by rw [Nat.add_mod_right, Nat.mod_eq_of_lt hj]

theorem slotAt_inj {d d' : Nat} (hd : d < t.length) (hd' : d' < t.length)
    (h : slotAt home t k d = slotAt home t k d') : d = d' := by
  have hmod : d ≡ d' [MOD t.length] := Nat.ModEq.add_left_cancel' (home k) h
  rwa [Nat.ModEq, Nat.mod_eq_of_lt hd, Nat.mod_eq_of_lt hd'] at hmod

end

/-! ## Probing -/

variable [DecidableEq κ]

/-- The loop: from `slot` on, until `best` comes again. `none` is a loop that
has not come to its end, or a slot that the table does not have. -/
def probeFrom (t : List (Option α)) (k : κ) (best : Nat) : Nat → Nat → Option (Option Nat)
  | 0, _ => none
  | fuel + 1, slot =>
    match t[slot]? with
    | none => none
    | some none => some (some slot)
    | some (some a) =>
      if key a = k then some (some slot)
      else
        let next := (slot + 1) % t.length
        if next = best then some none else probeFrom t k best fuel next

/-- The slot where a key is, or else where it would be added. -/
def probe (t : List (Option α)) (k : κ) : Option (Option Nat) :=
  probeFrom key t k (home k % t.length) t.length (home k % t.length)

/-- The probe for a key stops at a distance from its home. -/
def stops (t : List (Option α)) (k : κ) (d : Nat) : Bool :=
  match t[slotAt home t k d]? with
  | some (some a) => key a = k
  | _ => true

variable {key home} {t : List (Option α)} {k : κ}

variable {d j : Nat}

theorem probeFrom_eq (hn : 0 < t.length) {fuel : Nat} (hfuel : fuel + d = t.length)
    (hpos : 0 < fuel) :
    probeFrom key t k (home k % t.length) fuel (slotAt home t k d)
      = some (((List.range' d fuel).find? (stops key home t k)).map (slotAt home t k)) := by
  induction fuel generalizing d with
  | zero => omega
  | succ fuel ih =>
    have hlt : slotAt home t k d < t.length := slotAt_lt home hn k d
    rw [probeFrom, List.range'_succ, List.find?_cons]
    have hget : t[slotAt home t k d]? = some t[slotAt home t k d] := List.getElem?_eq_getElem hlt
    have hstops : stops key home t k d = match t[slotAt home t k d] with
        | some a => decide (key a = k)
        | none => true := by
      rw [stops, hget]
      cases t[slotAt home t k d] <;> rfl
    rw [hget, hstops]
    cases t[slotAt home t k d] with
    | none => rfl
    | some a =>
      dsimp only
      by_cases hk : key a = k
      · rw [if_pos hk, decide_eq_true hk]
        rfl
      · rw [if_neg hk, decide_eq_false hk]
        have hnext : (slotAt home t k d + 1) % t.length = slotAt home t k (d + 1) := by
          rw [slotAt, Nat.mod_add_mod, slotAt, Nat.add_assoc]
        rw [hnext]
        by_cases hend : fuel = 0
        · subst hend
          have hbest : slotAt home t k (d + 1) = home k % t.length := by
            rw [slotAt, show d + 1 = t.length by omega, Nat.add_mod_right]
          rw [if_pos hbest]
          rfl
        · have hbest : slotAt home t k (d + 1) ≠ home k % t.length := by
            intro h
            have h0 : slotAt home t k (d + 1) = slotAt home t k 0 := h
            have := slotAt_inj (by omega) (by omega) h0
            omega
          rw [if_neg hbest, ih (by omega) (by omega)]

theorem probe_eq (hn : 0 < t.length) (k : κ) : probe key home t k
      = some (((List.range t.length).find? (stops key home t k)).map (slotAt home t k)) := by
  have h : probeFrom key t k (home k % t.length) t.length (slotAt home t k 0)
      = some (((List.range' 0 t.length).find? (stops key home t k)).map (slotAt home t k)) :=
    probeFrom_eq hn rfl hn
  rwa [← List.range_eq_range', show slotAt home t k 0 = home k % t.length from rfl] at h

/-! ## The invariant -/

/-- Between its home and its slot no probe for the key of an element stops. -/
def Reachable (key : α → κ) (home : κ → Nat) (t : List (Option α)) : Prop :=
  ∀ (j : Nat) (a : α), t[j]? = some (some a) →
    ∃ d < t.length, slotAt home t (key a) d = j ∧ ∀ d' < d, stops key home t (key a) d' = false

theorem stops_eq_false_iff : stops key home t k d = false ↔
    ∃ a, t[slotAt home t k d]? = some (some a) ∧ key a ≠ k := by
  unfold stops
  split
  · next a ha => simp [ha]
  · next h =>
    simp only [Bool.true_eq_false, false_iff, not_exists, not_and]
    intro a ha
    exact absurd ha (h a)

theorem find?_range_eq_some {p : Nat → Bool} {n : Nat} (hd : d < n) (hp : p d = true)
    (hlt : ∀ d' < d, p d' = false) : (List.range n).find? p = some d := by
  rw [List.find?_range_eq_some]
  exact ⟨hp, List.mem_range.2 hd, fun d' hd' => by simp [hlt d' hd']⟩

variable {a : α}

theorem probe_of_mem (h : Reachable key home t) (ha : t[j]? = some (some a)) :
    probe key home t (key a) = some (some j) := by
  obtain ⟨d, hd, hslot, hfirst⟩ := h j a ha
  have hstop : stops key home t (key a) d = true := by
    rw [stops, hslot, ha]
    exact decide_eq_true rfl
  rw [probe_eq (by omega), find?_range_eq_some hd hstop hfirst, Option.map_some, hslot]

variable (key home) in
/-- Where a probe ends: at an element of the key, or at a free slot, or
nowhere if every slot has an element of another key. -/
theorem probe_cases (hn : 0 < t.length) (k : κ) :
    (∃ d < t.length, probe key home t k = some (some (slotAt home t k d)) ∧
        stops key home t k d = true ∧ ∀ d' < d, stops key home t k d' = false) ∨
      (probe key home t k = some none ∧ ∀ j < t.length, ∃ a, t[j]? = some (some a) ∧ key a ≠ k) := by
  rw [probe_eq hn]
  cases hfind : (List.range t.length).find? (stops key home t k) with
  | some d =>
    rw [List.find?_range_eq_some] at hfind
    obtain ⟨hstop, hd, hfirst⟩ := hfind
    exact .inl ⟨d, List.mem_range.1 hd, rfl, hstop, fun d' hd' => by simpa using hfirst d' hd'⟩
  | none =>
    refine .inr ⟨rfl, fun j hj => ?_⟩
    obtain ⟨d, hd, rfl⟩ := exists_slotAt home hj k
    have hno := List.find?_eq_none.1 hfind d (List.mem_range.2 hd)
    exact stops_eq_false_iff.1 (Bool.eq_false_iff.2 hno)

/-! ## Looking up -/

def lookup (key : α → κ) (home : κ → Nat) (t : List (Option α)) (k : κ) : Option α :=
  match probe key home t k with
  | some (some j) => t[j]?.join
  | _ => none

omit [DecidableEq κ] in
theorem mem_reduceOption_iff : a ∈ t.reduceOption ↔ ∃ j : Nat, t[j]? = some (some a) := by
  rw [List.reduceOption_mem_iff, List.mem_iff_getElem?]

omit [DecidableEq κ] in
theorem length_of_taken (h : ∀ j < t.length, ∃ a, t[j]? = some (some a)) :
    t.reduceOption.length = t.length := by
  rw [List.reduceOption_length_eq_iff]
  intro x hx
  obtain ⟨j, hj⟩ := List.mem_iff_getElem?.1 hx
  obtain ⟨a, ha⟩ := h j (List.getElem?_eq_some_iff.1 hj).1
  rw [ha] at hj
  cases hj
  rfl

theorem lookup_eq_some_iff (h : Reachable key home t) (hn : 0 < t.length) :
    lookup key home t k = some a ↔ a ∈ t.reduceOption ∧ key a = k := by
  rw [mem_reduceOption_iff]
  constructor
  · intro hl
    unfold lookup at hl
    rcases probe_cases key home hn k with ⟨d, hd, hprobe, hstop, -⟩ | ⟨hprobe, -⟩
    · rw [hprobe] at hl
      obtain hget := Option.join_eq_some_iff.1 hl
      rw [stops, hget, decide_eq_true_eq] at hstop
      exact ⟨⟨_, hget⟩, hstop⟩
    · rw [hprobe] at hl
      cases hl
  · rintro ⟨⟨j, hj⟩, rfl⟩
    rw [lookup, probe_of_mem h hj]
    dsimp only
    rw [hj]
    rfl

/-! ## Adding -/

/-- The table with an element at the end of its probe; the inner `none` is a
table without room. -/
def add (key : α → κ) (home : κ → Nat) (t : List (Option α)) (a : α) :
    Option (Option (List (Option α))) :=
  (probe key home t (key a)).map fun end? => end?.map fun j => t.set j (some a)

omit [DecidableEq κ] in
theorem reduceOption_set (hj : t[j]? = some none) (a : α) :
    (t.set j (some a)).reduceOption.Perm (a :: t.reduceOption) := by
  obtain ⟨hlt, hget⟩ := List.getElem?_eq_some_iff.1 hj
  have hsplit : t = t.take j ++ none :: t.drop (j + 1) := by
    rw [← hget, List.getElem_cons_drop hlt, List.take_append_drop]
  have hset : t.set j (some a) = t.take j ++ some a :: t.drop (j + 1) :=
    List.set_eq_take_append_cons_drop.trans (if_pos hlt)
  rw [hset]
  conv_rhs => rw [hsplit]
  rw [List.reduceOption_append, List.reduceOption_append, List.reduceOption_cons_of_some,
    List.reduceOption_cons_of_none]
  exact List.perm_middle

/-- A free slot at the end of the probe for its key takes an element. -/
theorem Reachable.set (h : Reachable key home t) (hd : d < t.length)
    (hfree : t[slotAt home t (key a) d]? = some none)
    (hfirst : ∀ d' < d, stops key home t (key a) d' = false) :
    Reachable key home (t.set (slotAt home t (key a) d) (some a)) := by
  have hslotAt : ∀ (k : κ) (e : Nat),
      slotAt home (t.set (slotAt home t (key a) d) (some a)) k e = slotAt home t k e := by
    intro k e
    rw [slotAt, List.length_set]
    rfl
  -- a slot that stopped no probe is not the free one
  have hkeep : ∀ (k : κ) (e : Nat), stops key home t k e = false →
      stops key home (t.set (slotAt home t (key a) d) (some a)) k e = false := by
    intro k e he
    obtain ⟨b, hb, hne⟩ := stops_eq_false_iff.1 he
    refine stops_eq_false_iff.2 ⟨b, ?_, hne⟩
    have hother : slotAt home t (key a) d ≠ slotAt home t k e := by
      intro heq
      rw [← heq, hfree] at hb
      cases hb
    rw [hslotAt, List.getElem?_set_ne hother]
    exact hb
  intro j b hb
  rw [List.length_set]
  by_cases hj : slotAt home t (key a) d = j
  · subst hj
    rw [List.getElem?_set_self (slotAt_lt home (by omega) _ _)] at hb
    cases hb
    exact ⟨d, hd, hslotAt _ _, fun d' hd' => hkeep _ _ (hfirst d' hd')⟩
  · rw [List.getElem?_set_ne hj] at hb
    obtain ⟨e, he, hslot, hfirst'⟩ := h j b hb
    exact ⟨e, he, (hslotAt _ _).trans hslot,
      fun d' hd' => hkeep _ _ (hfirst' d' hd')⟩

/-- An element with a new key is added, or every slot is taken. -/
theorem add_cases (h : Reachable key home t) (hn : 0 < t.length)
    (hnew : ∀ b ∈ t.reduceOption, key b ≠ key a) :
    (∃ t', add key home t a = some (some t') ∧ Reachable key home t' ∧ t'.length = t.length ∧
        t'.reduceOption.Perm (a :: t.reduceOption)) ∨
      (add key home t a = some none ∧ t.reduceOption.length = t.length) := by
  rcases probe_cases key home hn (key a) with ⟨d, hd, hprobe, hstop, hfirst⟩ | ⟨hprobe, hall⟩
  · have hslot := slotAt_lt home hn (key a) d
    have hfree : t[slotAt home t (key a) d]? = some none := by
      rw [stops] at hstop
      rw [List.getElem?_eq_getElem hslot] at hstop ⊢
      cases hget : t[slotAt home t (key a) d] with
      | none => rfl
      | some b =>
        rw [hget] at hstop
        have hmem : b ∈ t.reduceOption :=
          mem_reduceOption_iff.2 ⟨_, (List.getElem?_eq_getElem hslot).trans (congrArg some hget)⟩
        exact absurd (of_decide_eq_true hstop) (hnew b hmem)
    exact .inl ⟨_, by rw [add, hprobe]; rfl, h.set hd hfree hfirst, List.length_set,
      reduceOption_set hfree a⟩
  · exact .inr ⟨by rw [add, hprobe]; rfl, length_of_taken fun j hj => (hall j hj).imp fun _ ha => ha.1⟩

/-! ## Another size -/

/-- The elements one after the other; `none` if one finds no room. -/
def addAll (key : α → κ) (home : κ → Nat) (t : List (Option α)) : List α → Option (List (Option α))
  | [] => some t
  | a :: as => (add key home t a).join.bind fun t' => addAll key home t' as

theorem reachable_replicate (n : Nat) : Reachable key home (List.replicate n none) := by
  intro j a ha
  rw [List.getElem?_replicate] at ha
  split at ha <;> cases ha

/-- With enough room elements of different keys are all there in the end. -/
theorem addAll_spec (as : List α) (h : Reachable key home t) (hn : 0 < t.length)
    (hnodup : ((as ++ t.reduceOption).map key).Nodup)
    (hroom : as.length + t.reduceOption.length ≤ t.length) :
    ∃ t', addAll key home t as = some t' ∧ Reachable key home t' ∧ t'.length = t.length ∧
      t'.reduceOption.Perm (as ++ t.reduceOption) := by
  induction as generalizing t with
  | nil => exact ⟨t, rfl, h, rfl, .refl _⟩
  | cons a as ih =>
    rw [List.length_cons] at hroom
    rw [List.cons_append, List.map_cons, List.nodup_cons] at hnodup
    have hnew : ∀ b ∈ t.reduceOption, key b ≠ key a := by
      intro b hb heq
      exact hnodup.1 (List.mem_map.2 ⟨b, List.mem_append_right _ hb, heq⟩)
    obtain ⟨t₁, hadd, hreach, hlen, hperm⟩ | ⟨-, hfull⟩ := add_cases h hn hnew
    · have hmiddle : (as ++ t₁.reduceOption).Perm (a :: (as ++ t.reduceOption)) :=
        (hperm.append_left as).trans List.perm_middle
      obtain ⟨t₂, hall, hreach₂, hlen₂, hperm₂⟩ := ih hreach (by omega)
        ((hmiddle.map key).nodup_iff.2 (List.nodup_cons.2 hnodup))
        (by rw [hperm.length_eq, List.length_cons]; omega)
      refine ⟨t₂, ?_, hreach₂, hlen₂.trans hlen, hperm₂.trans hmiddle⟩
      rw [addAll, hadd]
      exact hall
    · omega

end Evlog.Lib.LinearProbing
