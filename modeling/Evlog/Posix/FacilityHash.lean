/-
Evlog.Posix.FacilityHash — the hash table of the facility registry
(facreg.c).

A slot whose code is `EMPTY` is empty, whatever else is in it. When a
facility finds no room, the table is copied into one of about twice the
size. The size is an `int`, so that a table that would need more slots than
an `int` can count fails the assertion on the new size.

Strings are without their NUL. The type of a query is left open.

The invariant of a table (`Good`) is that of linear probing, and that no
entry has the code of an empty slot. `addFacToHash` keeps it and adds the one
facility, or the size is no `int` (`addFacToHash_spec`).
-/
import Evlog.Lib.LinearProbing
import Evlog.Posix.Facility
import Mathlib.NumberTheory.Bertrand

namespace Evlog.Posix

open Evlog.Lib

structure Facility (Query : Type) where
  faCode : UInt32
  faName : List UInt8
  faAccessFlags : UInt32
  faFilter : Option (List UInt8)
  faQuery : Option Query

/-- A slot: empty if its code is `EMPTY`. -/
abbrev Slot (Query : Type) := Option (Facility Query)

/-- `_evlFacilityRegistry`; `frHashSize` is the length of the hash. -/
structure FacilityRegistry (Query : Type) where
  frHash : List (Slot Query)
  frNFacilities : Nat

variable {Query : Type}

/-! ## Sizes -/

/-- The loop of `isPrime`. -/
def noDivisorFrom (n : Nat) : Nat → Nat → Bool
  | 0, _ => true
  | fuel + 1, i =>
    if i * i ≤ n then if n % i = 0 then false else noDivisorFrom n fuel (i + 1) else true

/-- `isPrime`. It takes 1 for a prime. -/
def isPrime (n : Nat) : Bool := n ≠ 0 && noDivisorFrom n n 2

/-- The loop of `nextPrimeUp`. -/
def primeFrom : Nat → Nat → Nat
  | 0, n => n
  | fuel + 1, n => if isPrime n then n else primeFrom fuel (n + 1)

/-- `nextPrimeUp`. There is a prime before the double of a number. -/
def nextPrimeUp (n : Nat) : Nat := primeFrom (n + 2) n

/-- The sizes that an `int` can hold. -/
def sizeLimit : Nat := 2 ^ 31

/-! ## The table -/

def findHashSlotFor (fac : UInt32) (hash : List (Slot Query)) : Option (Option Nat) :=
  LinearProbing.probe Facility.faCode UInt32.toNat hash fac

def storeFac (hash : List (Slot Query)) (slot : Nat) (fac : Facility Query) : List (Slot Query) :=
  hash.set slot (if fac.faCode = evlInvalidFacility then none else some fac)

/-- The second loop of `reallocFacHash`, over the slots of the old table. -/
def copyFacs : List (Slot Query) → List (Slot Query) → Option (List (Slot Query))
  | [], newHash => some newHash
  | none :: oldHash, newHash => copyFacs oldHash newHash
  | some fac :: oldHash, newHash =>
    match findHashSlotFor fac.faCode newHash with
    | some (some j) => copyFacs oldHash (storeFac newHash j fac)
    | _ => none

def reallocFacHash (oldHash : List (Slot Query)) (newSize : Nat) : Option (List (Slot Query)) :=
  if oldHash.length ≤ newSize ∧ newSize < sizeLimit ∧ isPrime newSize = true then
    copyFacs oldHash (List.replicate newSize none)
  else none

def addFacToHash (facReg : FacilityRegistry Query) (fac : Facility Query) :
    Option (FacilityRegistry Query) :=
  match findHashSlotFor fac.faCode facReg.frHash with
  | none => none
  | some (some slot) => some ⟨storeFac facReg.frHash slot fac, facReg.frNFacilities + 1⟩
  | some none =>
    -- out of room
    match reallocFacHash facReg.frHash (nextPrimeUp (facReg.frHash.length * 2)) with
    | none => none
    | some hash =>
      match findHashSlotFor fac.faCode hash with
      | some (some slot) => some ⟨storeFac hash slot fac, facReg.frNFacilities + 1⟩
      | _ => none

def allocFacReg (Query : Type) (capacity : Nat) : Option (FacilityRegistry Query) :=
  (reallocFacHash [] (nextPrimeUp capacity)).map fun hash => ⟨hash, 0⟩

/-- The facility of a code, as `getFacNameByCode` and the functions on access
flags find it. The outer `none` is a search without an end. -/
def facByCode (facNum : UInt32) (facReg : FacilityRegistry Query) : Option (Slot Query) :=
  (findHashSlotFor facNum facReg.frHash).map fun
    | none => none
    | some i => facReg.frHash[i]?.join

/-- A registry with some facilities, added one after the other. -/
def addFacs (facReg : FacilityRegistry Query) : List (Facility Query) → Option (FacilityRegistry Query)
  | [] => some facReg
  | fac :: facs => (addFacToHash facReg fac).bind fun facReg => addFacs facReg facs

/-! ## Sizes -/

theorem noDivisorFrom_of_prime {p : Nat} (hp : p.Prime) {fuel i : Nat} (hi : 2 ≤ i) :
    noDivisorFrom p fuel i = true := by
  induction fuel generalizing i with
  | zero => rfl
  | succ fuel ih =>
    rw [noDivisorFrom]
    split
    · next hle =>
      have hlt : i < p := by nlinarith
      have hno : p % i ≠ 0 := fun h =>
        (hp.eq_one_or_self_of_dvd i (Nat.dvd_of_mod_eq_zero h)).elim (by omega) (by omega)
      rw [if_neg hno]
      exact ih (by omega)
    · rfl

theorem isPrime_of_prime {p : Nat} (hp : p.Prime) : isPrime p = true := by
  rw [isPrime, noDivisorFrom_of_prime hp le_rfl, Bool.and_true]
  exact decide_eq_true hp.ne_zero

theorem primeFrom_spec {fuel n p : Nat} (hp : isPrime p = true) (hn : n ≤ p) (hfuel : p < n + fuel) :
    n ≤ primeFrom fuel n ∧ primeFrom fuel n ≤ p ∧ isPrime (primeFrom fuel n) = true := by
  induction fuel generalizing n with
  | zero => omega
  | succ fuel ih =>
    rw [primeFrom]
    split
    · next h => exact ⟨le_rfl, hn, h⟩
    · next h =>
      have hne : n ≠ p := by
        rintro rfl
        exact h hp
      obtain ⟨h1, h2, h3⟩ := ih (n := n + 1) (by omega) (by omega)
      exact ⟨by omega, h2, h3⟩

theorem nextPrimeUp_spec (n : Nat) :
    n ≤ nextPrimeUp n ∧ nextPrimeUp n ≤ 2 * n + 1 ∧ isPrime (nextPrimeUp n) = true := by
  by_cases hn : n = 0
  · subst hn
    exact ⟨by decide, by decide, by decide⟩
  · obtain ⟨p, hp, hlt, hle⟩ := Nat.exists_prime_lt_and_le_two_mul n hn
    obtain ⟨h1, h2, h3⟩ := primeFrom_spec (isPrime_of_prime hp) hlt.le (show p < n + (n + 2) by omega)
    exact ⟨h1, h2.trans (by omega), h3⟩

theorem nextPrimeUp_pos (n : Nat) : 0 < nextPrimeUp n := by
  have hprime := (nextPrimeUp_spec n).2.2
  rw [isPrime, Bool.and_eq_true, decide_eq_true_eq] at hprime
  omega

/-! ## The invariant -/

/-- A table in which every entry is found, and none looks like an empty slot. -/
structure Good (hash : List (Slot Query)) : Prop where
  pos : 0 < hash.length
  reachable : LinearProbing.Reachable Facility.faCode UInt32.toNat hash
  notEmpty : ∀ fac ∈ hash.reduceOption, fac.faCode ≠ evlInvalidFacility

theorem good_replicate {n : Nat} (hn : 0 < n) : Good (List.replicate n (none : Slot Query)) where
  pos := by rwa [List.length_replicate]
  reachable := LinearProbing.reachable_replicate n
  notEmpty := by simp [List.reduceOption_replicate_none]

/-- The table with a facility in the slot for it; the inner `none` is a table
without room. -/
def place (hash : List (Slot Query)) (fac : Facility Query) : Option (Option (List (Slot Query))) :=
  (findHashSlotFor fac.faCode hash).map fun slot? => slot?.map fun slot => storeFac hash slot fac

variable {fac : Facility Query}

theorem place_eq (hfac : fac.faCode ≠ evlInvalidFacility) (hash : List (Slot Query)) :
    place hash fac = LinearProbing.add Facility.faCode UInt32.toNat hash fac := by
  unfold place LinearProbing.add storeFac
  rw [if_neg hfac]
  rfl

theorem place_cases {hash : List (Slot Query)} (h : Good hash)
    (hfac : fac.faCode ≠ evlInvalidFacility)
    (hnew : ∀ other ∈ hash.reduceOption, other.faCode ≠ fac.faCode) :
    (∃ hash', place hash fac = some (some hash') ∧ Good hash' ∧ hash'.length = hash.length ∧
        hash'.reduceOption.Perm (fac :: hash.reduceOption)) ∨
      (place hash fac = some none ∧ hash.reduceOption.length = hash.length) := by
  rw [place_eq hfac]
  obtain ⟨hash', hadd, hreach, hlen, hperm⟩ | hfull := LinearProbing.add_cases h.reachable h.pos hnew
  · refine .inl ⟨hash', hadd, ⟨hlen ▸ h.pos, hreach, fun other hmem => ?_⟩, hlen, hperm⟩
    rcases List.mem_cons.1 (hperm.mem_iff.1 hmem) with rfl | hmem
    · exact hfac
    · exact h.notEmpty other hmem
  · exact .inr hfull

/-! ## Copying -/

variable {oldHash : List (Slot Query)}

theorem copyFacs_eq {newHash : List (Slot Query)}
    (h : ∀ fac ∈ oldHash.reduceOption, fac.faCode ≠ evlInvalidFacility) :
    copyFacs oldHash newHash
      = LinearProbing.addAll Facility.faCode UInt32.toNat newHash oldHash.reduceOption := by
  induction oldHash generalizing newHash with
  | nil => rfl
  | cons slot oldHash ih =>
    cases slot with
    | none =>
      rw [copyFacs, List.reduceOption_cons_of_none]
      rw [List.reduceOption_cons_of_none] at h
      exact ih h
    | some fac =>
      rw [List.reduceOption_cons_of_some] at h ⊢
      have hplace := place_eq (h fac List.mem_cons_self) newHash
      rw [copyFacs, LinearProbing.addAll, ← hplace, place]
      rcases findHashSlotFor fac.faCode newHash with _ | _ | slot
      · rfl
      · rfl
      · exact ih fun other hmem => h other (List.mem_cons_of_mem _ hmem)

theorem reallocFacHash_some (h : Good oldHash)
    (hnodup : (oldHash.reduceOption.map Facility.faCode).Nodup) {newSize : Nat}
    (hsize : oldHash.length ≤ newSize) (hlimit : newSize < sizeLimit)
    (hprime : isPrime newSize = true) :
    ∃ hash, reallocFacHash oldHash newSize = some hash ∧ Good hash ∧ hash.length = newSize ∧
      hash.reduceOption.Perm oldHash.reduceOption := by
  have hgood : Good (List.replicate newSize (none : Slot Query)) := good_replicate (h.pos.trans_le hsize)
  have hempty : (List.replicate newSize (none : Slot Query)).reduceOption = [] :=
    List.reduceOption_replicate_none
  obtain ⟨hash, hall, hreach, hlen, hperm⟩ := LinearProbing.addAll_spec oldHash.reduceOption
    hgood.reachable hgood.pos (by rwa [hempty, List.append_nil])
    (by
      rw [hempty, List.length_replicate]
      exact (Nat.add_le_add_right (List.reduceOption_length_le _) _).trans (by simpa using hsize))
  rw [hempty, List.append_nil] at hperm
  rw [List.length_replicate] at hlen
  refine ⟨hash, ?_, ⟨by rw [hlen]; exact h.pos.trans_le hsize, hreach, fun fac hmem => ?_⟩, hlen, hperm⟩
  · rw [reallocFacHash, if_pos ⟨hsize, hlimit, hprime⟩, copyFacs_eq h.notEmpty, hall]
  · exact h.notEmpty fac (hperm.mem_iff.1 hmem)

/-! ## Adding -/

/-- A registry whose table is good, with its facilities counted. -/
structure Registry (facs : List (Facility Query)) (facReg : FacilityRegistry Query) : Prop where
  good : Good facReg.frHash
  perm : facReg.frHash.reduceOption.Perm facs
  count : facReg.frNFacilities = facs.length

theorem addFacToHash_eq (facReg : FacilityRegistry Query) (fac : Facility Query) :
    addFacToHash facReg fac =
      match place facReg.frHash fac with
      | none => none
      | some (some hash) => some ⟨hash, facReg.frNFacilities + 1⟩
      | some none =>
        (reallocFacHash facReg.frHash (nextPrimeUp (facReg.frHash.length * 2))).bind fun hash =>
          match place hash fac with
          | some (some hash) => some ⟨hash, facReg.frNFacilities + 1⟩
          | _ => none := by
  unfold addFacToHash place
  rcases findHashSlotFor fac.faCode facReg.frHash with _ | _ | slot
  · rfl
  · cases reallocFacHash facReg.frHash (nextPrimeUp (facReg.frHash.length * 2)) with
    | none => rfl
    | some hash => rcases h : findHashSlotFor fac.faCode hash with _ | _ | slot <;> simp [h]
  · rfl

variable {facs : List (Facility Query)} {facReg : FacilityRegistry Query}

/-- A new facility is added to the others, unless the table would need more
slots than an `int` can count. -/
theorem addFacToHash_spec (h : Registry facs facReg) (hnodup : (facs.map Facility.faCode).Nodup)
    (hfac : fac.faCode ≠ evlInvalidFacility) (hnew : ∀ other ∈ facs, other.faCode ≠ fac.faCode) :
    (∃ facReg', addFacToHash facReg fac = some facReg' ∧ Registry (fac :: facs) facReg' ∧
        (facReg'.frHash.length = facReg.frHash.length ∨ facReg.frHash.length = facs.length ∧
          facReg'.frHash.length = nextPrimeUp (facReg.frHash.length * 2))) ∨
      (addFacToHash facReg fac = none ∧ facReg.frHash.length = facs.length ∧
        sizeLimit ≤ nextPrimeUp (facReg.frHash.length * 2)) := by
  have hnew' : ∀ other ∈ facReg.frHash.reduceOption, other.faCode ≠ fac.faCode :=
    fun other hmem => hnew other (h.perm.mem_iff.1 hmem)
  have hcount : facReg.frNFacilities + 1 = (fac :: facs).length := by rw [h.count, List.length_cons]
  rw [addFacToHash_eq]
  obtain ⟨hash, hplace, hgood, hlen, hperm⟩ | ⟨hplace, hfull⟩ := place_cases h.good hfac hnew'
  · rw [hplace]
    exact .inl ⟨_, rfl, ⟨hgood, hperm.trans (h.perm.cons fac), hcount⟩, .inl hlen⟩
  · rw [hplace]
    have hfacs : facReg.frHash.length = facs.length := by rw [← hfull, h.perm.length_eq]
    obtain ⟨hle, -, hprime⟩ := nextPrimeUp_spec (facReg.frHash.length * 2)
    have hpos := h.good.pos
    by_cases hlimit : nextPrimeUp (facReg.frHash.length * 2) < sizeLimit
    · have hnodup' : (facReg.frHash.reduceOption.map Facility.faCode).Nodup :=
        (h.perm.map _).nodup_iff.2 hnodup
      obtain ⟨hash, hrealloc, hgood, hlen, hperm⟩ :=
        reallocFacHash_some h.good hnodup' (by omega) hlimit hprime
      have hnew'' : ∀ other ∈ hash.reduceOption, other.faCode ≠ fac.faCode :=
        fun other hmem => hnew' other (hperm.mem_iff.1 hmem)
      obtain ⟨hash', hplace', hgood', hlen', hperm'⟩ | ⟨-, hfull'⟩ := place_cases hgood hfac hnew''
      · left
        refine ⟨⟨hash', facReg.frNFacilities + 1⟩, ?_, ⟨hgood', ?_, hcount⟩, .inr ⟨hfacs, ?_⟩⟩
        · rw [hrealloc]
          dsimp only [Option.bind_some]
          rw [hplace']
        · exact hperm'.trans ((hperm.trans h.perm).cons fac)
        · exact hlen'.trans hlen
      · have hlength := hperm.length_eq
        omega
    · refine .inr ⟨?_, hfacs, not_lt.1 hlimit⟩
      rw [reallocFacHash, if_neg fun hc => hlimit hc.2.1]
      rfl

theorem allocFacReg_spec (Query : Type) (capacity : Nat) :
    (∃ facReg, allocFacReg Query capacity = some facReg ∧ Registry [] facReg ∧
        facReg.frHash.length = nextPrimeUp capacity) ∨
      (allocFacReg Query capacity = none ∧ sizeLimit ≤ nextPrimeUp capacity) := by
  have hprime := (nextPrimeUp_spec capacity).2.2
  unfold allocFacReg reallocFacHash
  by_cases hlimit : nextPrimeUp capacity < sizeLimit
  · rw [if_pos ⟨Nat.zero_le _, hlimit, hprime⟩]
    refine .inl ⟨_, rfl, ⟨good_replicate (nextPrimeUp_pos capacity), ?_, rfl⟩, List.length_replicate⟩
    rw [List.reduceOption_replicate_none]
  · rw [if_neg fun hc => hlimit hc.2.1]
    exact .inr ⟨rfl, not_lt.1 hlimit⟩

/-! ## Looking up -/

theorem facByCode_eq (h : Good facReg.frHash) (facNum : UInt32) : facByCode facNum facReg
      = some (LinearProbing.lookup Facility.faCode UInt32.toNat facReg.frHash facNum) := by
  unfold facByCode findHashSlotFor LinearProbing.lookup
  rw [LinearProbing.probe_eq h.pos, Option.map_some]
  cases ((List.range facReg.frHash.length).find? _).map _ <;> rfl

/-- A facility of the registry is found, and only by its own code. -/
theorem facByCode_spec (h : Registry facs facReg) (facNum : UInt32) (fac : Facility Query) :
    facByCode facNum facReg = some (some fac) ↔ fac ∈ facs ∧ fac.faCode = facNum := by
  rw [facByCode_eq h.good, Option.some.injEq,
    LinearProbing.lookup_eq_some_iff h.good.reachable h.good.pos, h.perm.mem_iff]

theorem facByCode_none (h : Registry facs facReg) {facNum : UInt32}
    (hno : ∀ fac ∈ facs, fac.faCode ≠ facNum) : facByCode facNum facReg = some none := by
  cases hfind : facByCode facNum facReg with
  | none =>
    rw [facByCode_eq h.good] at hfind
    cases hfind
  | some slot =>
    cases slot with
    | none => rfl
    | some fac =>
      obtain ⟨hmem, hcode⟩ := (facByCode_spec h facNum fac).1 hfind
      exact absurd hcode (hno fac hmem)

/-! ## A sequence of additions -/

/-- New facilities of different codes are all added, as long as the size of
the table is an `int`. -/
theorem addFacs_spec {facs done : List (Facility Query)} {facReg : FacilityRegistry Query}
    (h : Registry done facReg) (hnodup : ((facs ++ done).map Facility.faCode).Nodup)
    (hvalid : ∀ fac ∈ facs, fac.faCode ≠ evlInvalidFacility) :
    (∃ facReg', addFacs facReg facs = some facReg' ∧ Registry (facs.reverse ++ done) facReg') ∨
      (addFacs facReg facs = none ∧ 2 ^ 29 < facs.length + done.length) := by
  induction facs generalizing done facReg with
  | nil => exact .inl ⟨facReg, rfl, h⟩
  | cons fac facs ih =>
    rw [List.cons_append, List.map_cons, List.nodup_cons] at hnodup
    have hdone : (done.map Facility.faCode).Nodup :=
      hnodup.2.sublist ((List.sublist_append_right facs done).map _)
    have hnew : ∀ other ∈ done, other.faCode ≠ fac.faCode := by
      intro other hmem heq
      exact hnodup.1 (heq ▸ List.mem_map_of_mem (List.mem_append_right facs hmem))
    obtain ⟨facReg₁, hadd, hreg, -⟩ | ⟨hadd, hlen, hlimit⟩ :=
      addFacToHash_spec h hdone (hvalid fac List.mem_cons_self) hnew
    · have hmiddle : (facs ++ fac :: done).Perm (fac :: (facs ++ done)) := List.perm_middle
      have hnodup' := (hmiddle.map Facility.faCode).nodup_iff.2 (List.nodup_cons.2 hnodup)
      have hrest := ih hreg hnodup' fun other hmem => hvalid other (List.mem_cons_of_mem _ hmem)
      rw [addFacs, hadd, Option.bind_some, List.reverse_cons, List.append_assoc, List.length_cons]
      rw [List.length_cons, Nat.add_comm done.length, ← Nat.add_assoc] at hrest
      exact hrest
    · have hle := (nextPrimeUp_spec (facReg.frHash.length * 2)).2.1
      have hsize : sizeLimit = 2 ^ 31 := rfl
      refine .inr ⟨by rw [addFacs, hadd]; rfl, ?_⟩
      rw [List.length_cons]
      omega

/-- Facilities of different codes, added one after the other, whatever growth
that takes: the table has each of them once, a look-up by code ends and
finds the one that was added under it, or none. Only sizes that are no
`int` stop it. -/
theorem registry_finds_facilities (capacity : Nat) (facs : List (Facility Query))
    (hnodup : (facs.map Facility.faCode).Nodup)
    (hvalid : ∀ fac ∈ facs, fac.faCode ≠ evlInvalidFacility) :
    match (allocFacReg Query capacity).bind (addFacs · facs) with
    | none => 2 ^ 30 ≤ capacity ∨ 2 ^ 29 < facs.length
    | some facReg =>
      facReg.frHash.reduceOption.Perm facs ∧ facReg.frNFacilities = facs.length ∧
        (∀ fac ∈ facs, facByCode fac.faCode facReg = some (some fac)) ∧
        (∀ facNum, (∀ fac ∈ facs, fac.faCode ≠ facNum) → facByCode facNum facReg = some none) := by
  obtain ⟨facReg₀, halloc, hreg, -⟩ | ⟨halloc, hlimit⟩ := allocFacReg_spec Query capacity
  · rw [halloc, Option.bind_some]
    obtain ⟨facReg, hadd, hreg⟩ | ⟨hadd, hlen⟩ := addFacs_spec hreg (by rwa [List.append_nil]) hvalid
    · rw [hadd]
      rw [List.append_nil] at hreg
      refine ⟨hreg.perm.trans facs.reverse_perm, by rw [hreg.count, List.length_reverse], ?_, ?_⟩
      · intro fac hmem
        exact (facByCode_spec hreg _ fac).2 ⟨List.mem_reverse.2 hmem, rfl⟩
      · intro facNum hno
        exact facByCode_none hreg fun fac hmem => hno fac (List.mem_reverse.1 hmem)
    · rw [hadd]
      rw [List.length_nil, Nat.add_zero] at hlen
      exact .inr hlen
  · rw [halloc]
    have hle := (nextPrimeUp_spec capacity).2.1
    have hsize : sizeLimit = 2 ^ 31 := rfl
    exact .inl (by omega)

def facOf (code : UInt32) : Facility Unit := ⟨code, [], 0, none, none⟩

/-- Three facilities in a table of one slot. -/
theorem registry_finds_three :
    ∃ facReg, (allocFacReg Unit 1).bind (addFacs · [facOf 8, facOf 16, facOf 24]) = some facReg ∧
      facByCode 16 facReg = some (some (facOf 16)) ∧ facByCode 32 facReg = some none := by
  have h := registry_finds_facilities 1 [facOf 8, facOf 16, facOf 24] (by decide) (by decide)
  split at h
  · exact absurd h (by decide)
  · next facReg heq =>
    exact ⟨facReg, heq, h.2.2.1 (facOf 16) (by simp), h.2.2.2 32 (by decide)⟩

end Evlog.Posix
