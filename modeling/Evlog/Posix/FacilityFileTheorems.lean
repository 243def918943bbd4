/-
Evlog.Posix.FacilityFileTheorems — what becomes of a registry file.

`Accepted` says of the pieces that `fgets` makes of a file that none of them
counts as an error. `Reached` is the invariant of the loop: the table has
facilities of different codes and names, each from a piece, and as long as
no error is counted it has all that are kept. `evlReadFacilities_spec` puts
the loop and the check for missing facilities together.

A piece that is no entry may be accepted all the same, so the registry says
what the file says only if every line is `Written`
(`facilities_all_or_nothing_iff`).
-/
import Evlog.Lib.SerialList
import Evlog.Posix.FacilityHash
import Evlog.Posix.FacilityLine

namespace Evlog.Posix

open Evlog.Lib

variable {Query : Type}

/-! ## Entries without a code -/

variable {fac : Facility Query}

theorem storeFac_invalid {hash : List (Slot Query)} (h : Good hash)
    (hfac : fac.faCode = evlInvalidFacility) :
    (∃ slot, findHashSlotFor fac.faCode hash = some (some slot) ∧ storeFac hash slot fac = hash) ∨
      findHashSlotFor fac.faCode hash = some none ∧ hash.reduceOption.length = hash.length := by
  unfold findHashSlotFor
  obtain ⟨d, hd, hprobe, hstop, -⟩ | ⟨hprobe, hall⟩ :=
    LinearProbing.probe_cases Facility.faCode UInt32.toNat h.pos fac.faCode
  · refine .inl ⟨_, hprobe, ?_⟩
    have hslot := LinearProbing.slotAt_lt UInt32.toNat h.pos fac.faCode d
    rw [storeFac, if_pos hfac]
    rw [LinearProbing.stops, List.getElem?_eq_getElem hslot] at hstop
    cases hget : hash[LinearProbing.slotAt UInt32.toNat hash fac.faCode d] with
    | none => rw [← hget, List.set_getElem_self]
    | some other =>
      rw [hget] at hstop
      have hmem : other ∈ hash.reduceOption :=
        LinearProbing.mem_reduceOption_iff.2 ⟨_, (List.getElem?_eq_getElem hslot).trans (congrArg some hget)⟩
      exact absurd ((of_decide_eq_true hstop).trans hfac) (h.notEmpty other hmem)
  · exact .inr ⟨hprobe, LinearProbing.length_of_taken fun j hj => (hall j hj).imp fun _ ha => ha.1⟩

/-- The table has just these facilities, however many were counted. -/
structure Holds (facs : List (Facility Query)) (facReg : FacilityRegistry Query) : Prop where
  good : Good facReg.frHash
  perm : facReg.frHash.reduceOption.Perm facs

variable {facs : List (Facility Query)} {facReg : FacilityRegistry Query}

theorem Holds.registry (h : Holds facs facReg) :
    Registry facs ⟨facReg.frHash, facs.length⟩ := ⟨h.good, h.perm, rfl⟩

theorem addFacToHash_count (hash : List (Slot Query)) (n m : Nat) (fac : Facility Query) :
    addFacToHash ⟨hash, n⟩ fac = (addFacToHash ⟨hash, m⟩ fac).map fun facReg => ⟨facReg.frHash, n + 1⟩ := by
  unfold addFacToHash
  dsimp only
  cases findHashSlotFor fac.faCode hash with
  | none => rfl
  | some slot =>
    cases slot with
    | some slot => rfl
    | none =>
      dsimp only
      cases reallocFacHash hash (nextPrimeUp (hash.length * 2)) with
      | none => rfl
      | some hash' =>
        dsimp only
        rcases findHashSlotFor fac.faCode hash' with _ | _ | slot
        · rfl
        · rfl
        · rfl

theorem Holds.add (h : Holds facs facReg) (hnodup : (facs.map Facility.faCode).Nodup)
    (fac : Facility Query) (hfac : fac.faCode ≠ evlInvalidFacility)
    (hnew : ∀ other ∈ facs, other.faCode ≠ fac.faCode) :
    (∃ facReg', addFacToHash facReg fac = some facReg' ∧ Holds (fac :: facs) facReg') ∨
      (addFacToHash facReg fac = none ∧ 2 ^ 29 ≤ facs.length) := by
  rw [addFacToHash_count facReg.frHash facReg.frNFacilities facs.length]
  obtain ⟨facReg', hadd, hreg, -⟩ | ⟨hadd, hlen, hlimit⟩ :=
    addFacToHash_spec h.registry hnodup hfac hnew
  · exact .inl ⟨_, congrArg _ hadd, hreg.good, hreg.perm⟩
  · have hle := (nextPrimeUp_spec (facReg.frHash.length * 2)).2.1
    have hsize : sizeLimit = 2 ^ 31 := rfl
    dsimp only at hlen hlimit
    exact .inr ⟨congrArg _ hadd, by omega⟩

/-- One without a code leaves the table as it is, but for its size. -/
theorem Holds.addInvalid (h : Holds facs facReg) (hnodup : (facs.map Facility.faCode).Nodup)
    (fac : Facility Query) (hfac : fac.faCode = evlInvalidFacility) :
    (∃ facReg', addFacToHash facReg fac = some facReg' ∧ Holds facs facReg') ∨
      (addFacToHash facReg fac = none ∧ 2 ^ 29 ≤ facs.length) := by
  unfold addFacToHash
  obtain ⟨slot, hslot, hstore⟩ | ⟨hslot, hfull⟩ := storeFac_invalid h.good hfac
  · rw [hslot]
    dsimp only
    rw [hstore]
    exact .inl ⟨_, rfl, h.good, h.perm⟩
  · have hlen : facReg.frHash.length = facs.length := by rw [← hfull, h.perm.length_eq]
    have hpos := h.good.pos
    obtain ⟨hle, hdouble, hprime⟩ := nextPrimeUp_spec (facReg.frHash.length * 2)
    rw [hslot]
    dsimp only
    by_cases hlimit : nextPrimeUp (facReg.frHash.length * 2) < sizeLimit
    · obtain ⟨hash, hrealloc, hgood, hlen', hperm⟩ := reallocFacHash_some h.good
        ((h.perm.map _).nodup_iff.2 hnodup) (by omega) hlimit hprime
      rw [hrealloc]
      dsimp only
      obtain ⟨slot, hslot', hstore⟩ | ⟨-, hfull'⟩ := storeFac_invalid hgood hfac
      · rw [hslot']
        dsimp only
        rw [hstore]
        exact .inl ⟨_, rfl, hgood, hperm.trans h.perm⟩
      · have := hperm.length_eq
        omega
    · rw [reallocFacHash, if_neg fun hc => hlimit hc.2.1]
      have hsize : sizeLimit = 2 ^ 31 := rfl
      exact .inr ⟨rfl, by omega⟩

/-! ## What is read -/

def Chunk.entry (piece : Chunk) : Option FacEntry :=
  match readLine piece.line with
  | .entry facNum facName accessFlags filter => some ⟨facNum.toUInt32, facName, accessFlags, filter⟩
  | _ => none

def facOfEntry (busy : Bool) (check : List UInt8 → Except Errno Query) (e : FacEntry) :
    Option (Facility Query) :=
  if e.code = evlInvalidFacility then none
  else (queryFor busy check e.filter).map fun query => ⟨e.code, e.name, e.accessFlags, e.filter, query⟩

def kept (check : List UInt8 → Except Errno Query) (piece : Chunk) : Option (Facility Query) :=
  piece.entry.bind (facOfEntry piece.busy check)

def FacEntry.Clash (e other : FacEntry) : Prop := e.code = other.code ∨ sameName e.name other.name = true

structure ErrorFree (check : List UInt8 → Except Errno Query) (pieces : List Chunk) :
    Prop where
  fields : ∀ piece ∈ pieces, readLine piece.line ≠ .bad
  standard : ∀ piece ∈ pieces, ∀ e ∈ piece.entry, checkPosixFacility e.code e.name = true
  noClash : pieces.Pairwise fun piece later =>
    ∀ fac ∈ kept check piece, ∀ e ∈ later.entry, ¬fac.entry.Clash e

variable {check : List UInt8 → Except Errno Query} {pieces : List Chunk} {piece : Chunk}

theorem errorFree_snoc : ErrorFree check (pieces ++ [piece]) ↔
      ErrorFree check pieces ∧ readLine piece.line ≠ .bad ∧ ∀ e ∈ piece.entry,
        checkPosixFacility e.code e.name = true ∧
          ∀ earlier ∈ pieces, ∀ fac ∈ kept check earlier, ¬fac.entry.Clash e := by
  constructor
  · rintro ⟨hfields, hstandard, hclash⟩
    rw [List.pairwise_append] at hclash
    refine ⟨⟨fun p hp => hfields p (List.mem_append_left _ hp),
      fun p hp => hstandard p (List.mem_append_left _ hp), hclash.1⟩,
      hfields piece (by simp), fun e he => ⟨hstandard piece (by simp) e he, fun earlier hmem fac hfac => ?_⟩⟩
    exact hclash.2.2 earlier hmem piece (by simp) fac hfac e he
  · rintro ⟨⟨hfields, hstandard, hclash⟩, hbad, hentry⟩
    refine ⟨fun p hp => ?_, fun p hp e he => ?_, ?_⟩
    · rcases List.mem_append.1 hp with hp | hp
      · exact hfields p hp
      · rwa [List.mem_singleton.1 hp]
    · rcases List.mem_append.1 hp with hp | hp
      · exact hstandard p hp e he
      · rw [List.mem_singleton.1 hp] at he
        exact (hentry e he).1
    · refine List.pairwise_append.2 ⟨hclash, List.pairwise_singleton _ _, fun earlier hmem p hp fac hfac e he => ?_⟩
      rw [List.mem_singleton.1 hp] at he
      exact (hentry e he).2 earlier hmem fac hfac

/-! ## The loop -/

structure Reached (check : List UInt8 → Except Errno Query) (pieces : List Chunk)
    (facs : List (Facility Query)) (st : Reading Query) : Prop where
  holds : Holds facs st.newFacReg
  noClash : facs.Pairwise fun fac other => ¬other.entry.Clash fac.entry
  length : facs.length ≤ pieces.length
  fromPiece : ∀ fac ∈ facs, ∃ piece ∈ pieces, fac ∈ kept check piece
  clean : st.nErrors = 0 ↔ ErrorFree check pieces
  all : st.nErrors = 0 → ∀ piece ∈ pieces, ∀ fac ∈ kept check piece, fac ∈ facs

variable {st : Reading Query}

theorem Reached.nodup (h : Reached check pieces facs st) : (facs.map Facility.faCode).Nodup := by
  rw [List.Nodup, List.pairwise_map]
  exact h.noClash.imp fun hclash heq => hclash (.inl heq.symm)

/-- A piece without an entry of which nothing is kept and nothing is wrong. -/
theorem Reached.skip (h : Reached check pieces facs st)
    (hclean : ErrorFree check pieces → ErrorFree check (pieces ++ [piece]))
    (hkept : kept check piece = none) :
    Reached check (pieces ++ [piece]) facs st where
  holds := h.holds
  noClash := h.noClash
  length := by
    rw [List.length_append]
    exact h.length.trans (Nat.le_add_right _ _)
  fromPiece fac hfac := by
    obtain ⟨p, hp, hk⟩ := h.fromPiece fac hfac
    exact ⟨p, List.mem_append_left _ hp, hk⟩
  clean := ⟨fun h0 => hclean (h.clean.1 h0), fun hc => h.clean.2 (errorFree_snoc.1 hc).1⟩
  all h0 p hp fac hfac := by
    rcases List.mem_append.1 hp with hp | hp
    · exact h.all h0 p hp fac hfac
    · rw [List.mem_singleton.1 hp, hkept] at hfac
      cases hfac

theorem Reached.badFac (h : Reached check pieces facs st)
    (hbad : ErrorFree check pieces → ¬ErrorFree check (pieces ++ [piece])) :
    Reached check (pieces ++ [piece]) facs st.badFac where
  holds := h.holds
  noClash := h.noClash
  length := by
    rw [List.length_append]
    exact h.length.trans (Nat.le_add_right _ _)
  fromPiece fac hfac := by
    obtain ⟨p, hp, hk⟩ := h.fromPiece fac hfac
    exact ⟨p, List.mem_append_left _ hp, hk⟩
  clean := ⟨fun h0 => absurd h0 (Nat.succ_ne_zero _), fun hc => absurd hc (hbad (errorFree_snoc.1 hc).1)⟩
  all h0 := absurd h0 (Nat.succ_ne_zero _)

theorem Reached.push (h : Reached check pieces facs st) (hkept : kept check piece = some fac)
    (hnew : ∀ other ∈ facs, ¬other.entry.Clash fac.entry)
    (hclean : ErrorFree check pieces → ErrorFree check (pieces ++ [piece]))
    (hholds : Holds (fac :: facs) facReg) :
    Reached check (pieces ++ [piece]) (fac :: facs) { st with newFacReg := facReg } where
  holds := hholds
  noClash := List.pairwise_cons.2 ⟨fun other hmem => hnew other hmem, h.noClash⟩
  length := by
    rw [List.length_cons, List.length_append]
    exact Nat.succ_le_succ h.length
  fromPiece other hmem := by
    rcases List.mem_cons.1 hmem with rfl | hmem
    · exact ⟨piece, by simp, hkept⟩
    · obtain ⟨p, hp, hk⟩ := h.fromPiece other hmem
      exact ⟨p, List.mem_append_left _ hp, hk⟩
  clean := ⟨fun h0 => hclean (h.clean.1 h0), fun hc => h.clean.2 (errorFree_snoc.1 hc).1⟩
  all h0 p hp other hother := by
    rcases List.mem_append.1 hp with hp | hp
    · exact List.mem_cons_of_mem _ (h.all h0 p hp other hother)
    · rw [List.mem_singleton.1 hp, hkept, Option.mem_some] at hother
      exact hother ▸ List.mem_cons_self

/-- A name is looked up among the facilities of the table. -/
theorem Holds.getFacCodeByCIName (h : Holds facs facReg) (name : List UInt8) :
    Evlog.Posix.getFacCodeByCIName name facReg ≠ evlInvalidFacility ↔
      ∃ fac ∈ facs, sameName fac.faName name = true := by
  unfold Evlog.Posix.getFacCodeByCIName
  split
  · next fac hfind =>
    have hmem := List.mem_of_find?_eq_some hfind
    exact ⟨fun _ => ⟨fac, h.perm.mem_iff.1 hmem, by simpa using List.find?_some hfind⟩,
      fun _ => h.good.notEmpty fac hmem⟩
  · next hfind =>
    refine ⟨fun hne => absurd rfl hne, ?_⟩
    rintro ⟨fac, hmem, hname⟩
    exact absurd hname (List.find?_eq_none.1 hfind fac (h.perm.mem_iff.2 hmem))

theorem Holds.facByCode (h : Holds facs facReg) (facNum : UInt32) :
    (∃ fac ∈ facs, fac.faCode = facNum ∧ Evlog.Posix.facByCode facNum facReg = some (some fac)) ∨
      (Evlog.Posix.facByCode facNum facReg = some none ∧ ∀ fac ∈ facs, fac.faCode ≠ facNum) := by
  -- the number of facilities does not matter to a look-up
  have hcount : Evlog.Posix.facByCode facNum facReg
      = Evlog.Posix.facByCode facNum ⟨facReg.frHash, facs.length⟩ := rfl
  by_cases hany : ∃ fac ∈ facs, fac.faCode = facNum
  · obtain ⟨fac, hmem, hcode⟩ := hany
    exact .inl ⟨fac, hmem, hcode, hcount.trans ((facByCode_spec h.registry facNum fac).2 ⟨hmem, hcode⟩)⟩
  · have hno : ∀ fac ∈ facs, fac.faCode ≠ facNum := fun fac hmem hcode => hany ⟨fac, hmem, hcode⟩
    exact .inr ⟨hcount.trans (facByCode_none h.registry hno), hno⟩

variable {e : FacEntry}

/-- An entry is added, or counts as an error, or its filter makes no query. -/
theorem Reached.addEntry (h : Reached check pieces facs st) (hentry : piece.entry = some e)
    (hread : readLine piece.line ≠ .bad) :
    (∃ facs' st', Evlog.Posix.addEntry piece.busy check st e.code e.name e.accessFlags e.filter = some st' ∧
        Reached check (pieces ++ [piece]) facs' st') ∨
      (Evlog.Posix.addEntry piece.busy check st e.code e.name e.accessFlags e.filter = none ∧
        2 ^ 29 ≤ pieces.length) := by
  have hkept : kept check piece = facOfEntry piece.busy check e := by rw [kept, hentry, Option.bind_some]
  -- one of the table that it clashes with
  have hclash : ∀ fac ∈ facs, fac.entry.Clash e →
      ErrorFree check pieces → ¬ErrorFree check (pieces ++ [piece]) := by
    intro fac hmem hclash _ hc
    obtain ⟨earlier, hearlier, hfac⟩ := h.fromPiece fac hmem
    exact ((errorFree_snoc.1 hc).2.2 e hentry).2 earlier hearlier fac hfac hclash
  unfold Evlog.Posix.addEntry
  obtain ⟨fac, hmem, hcode, hfind⟩ | ⟨hfind, hnocode⟩ := h.holds.facByCode e.code
  · rw [hfind, Option.bind_some, if_pos (@Option.isSome_some _ fac)]
    exact .inl ⟨facs, _, rfl, h.badFac (hclash fac hmem (.inl hcode))⟩
  rw [hfind, Option.bind_some, if_neg (by simp)]
  by_cases hname : getFacCodeByCIName e.name st.newFacReg ≠ evlInvalidFacility
  · rw [if_pos hname]
    obtain ⟨fac, hmem, hsame⟩ := (h.holds.getFacCodeByCIName e.name).1 hname
    exact .inl ⟨facs, _, rfl, h.badFac (hclash fac hmem (.inr hsame))⟩
  rw [if_neg hname]
  by_cases hstandard : checkPosixFacility e.code e.name = false
  · rw [if_pos hstandard]
    refine .inl ⟨facs, _, rfl, h.badFac fun _ hc => ?_⟩
    have := ((errorFree_snoc.1 hc).2.2 e hentry).1
    rw [hstandard] at this
    cases this
  rw [if_neg hstandard]
  have hnew : ∀ fac ∈ facs, ¬fac.entry.Clash e := by
    rintro fac hmem (hcode | hsame)
    · exact hnocode fac hmem hcode
    · exact hname ((h.holds.getFacCodeByCIName e.name).2 ⟨fac, hmem, hsame⟩)
  have hclean : ErrorFree check pieces → ErrorFree check (pieces ++ [piece]) := by
    refine fun hc => errorFree_snoc.2 ⟨hc, hread, fun e' he' => ?_⟩
    rw [hentry, Option.mem_some] at he'
    subst he'
    refine ⟨by simpa using hstandard, fun earlier hmem fac hfac => hnew fac ?_⟩
    exact h.all (h.clean.2 hc) earlier hmem fac hfac
  cases hquery : queryFor piece.busy check e.filter with
  | none =>
    have hnone : kept check piece = none := by
      rw [hkept, facOfEntry, hquery, Option.map_none, ite_self]
    exact .inl ⟨facs, st, rfl, h.skip hclean hnone⟩
  | some query =>
    dsimp only
    by_cases hinvalid : e.code = evlInvalidFacility
    · have hnone : kept check piece = none := by rw [hkept, facOfEntry, if_pos hinvalid]
      obtain ⟨facReg, hadd, hholds⟩ | ⟨hadd, hlen⟩ := h.holds.addInvalid h.nodup
        ⟨e.code, e.name, e.accessFlags, e.filter, query⟩ hinvalid
      · rw [hadd]
        exact .inl ⟨facs, _, rfl, { h.skip hclean hnone with holds := hholds }⟩
      · rw [hadd]
        exact .inr ⟨rfl, hlen.trans h.length⟩
    · have hsome : kept check piece = some ⟨e.code, e.name, e.accessFlags, e.filter, query⟩ := by
        rw [hkept, facOfEntry, if_neg hinvalid, hquery, Option.map_some]
      obtain ⟨facReg, hadd, hholds⟩ | ⟨hadd, hlen⟩ := h.holds.add h.nodup
        ⟨e.code, e.name, e.accessFlags, e.filter, query⟩ hinvalid hnocode
      · rw [hadd]
        exact .inl ⟨_, _, rfl, h.push hsome hnew hclean hholds⟩
      · rw [hadd]
        exact .inr ⟨rfl, hlen.trans h.length⟩

theorem Reached.readTurn (h : Reached check pieces facs st) (piece : Chunk) :
    (∃ facs' st', Evlog.Posix.readTurn check st piece = some st' ∧
        Reached check (pieces ++ [piece]) facs' st') ∨
      (Evlog.Posix.readTurn check st piece = none ∧ 2 ^ 29 ≤ pieces.length) := by
  unfold Evlog.Posix.readTurn
  cases hread : readLine piece.line with
  | comment =>
    have hentry : piece.entry = none := by rw [Chunk.entry, hread]
    have hkept : kept check piece = none := by rw [kept, hentry, Option.bind_none]
    refine .inl ⟨facs, st, rfl, h.skip (fun hc => errorFree_snoc.2 ⟨hc, ?_, ?_⟩) hkept⟩
    · rw [hread]
      exact nofun
    · rw [hentry]
      exact nofun
  | bad => exact .inl ⟨facs, _, rfl, h.badFac fun _ hc => (errorFree_snoc.1 hc).2.1 hread⟩
  | entry facNum facName accessFlags filter =>
    have hentry : piece.entry = some ⟨facNum.toUInt32, facName, accessFlags, filter⟩ := by
      rw [Chunk.entry, hread]
    exact h.addEntry hentry (by rw [hread]; exact nofun)

/-- The loop ends, unless the table would need more slots than an `int` can
count. -/
theorem Reached.readTurns {done : List Chunk} (h : Reached check done facs st) (pieces : List Chunk) :
    (∃ facs' st', Evlog.Posix.readTurns check st pieces = some st' ∧
        Reached check (done ++ pieces) facs' st') ∨
      (Evlog.Posix.readTurns check st pieces = none ∧ 2 ^ 29 ≤ (done ++ pieces).length) := by
  induction pieces generalizing done facs st with
  | nil => exact .inl ⟨facs, st, rfl, by rwa [List.append_nil]⟩
  | cons piece pieces ih =>
    rw [Evlog.Posix.readTurns]
    obtain ⟨facs', st', hturn, hreached⟩ | ⟨hturn, hlen⟩ := h.readTurn piece
    · rw [hturn, Option.bind_some]
      have hrest := ih hreached
      rwa [List.append_assoc, List.singleton_append] at hrest
    · rw [hturn]
      refine .inr ⟨rfl, ?_⟩
      rw [List.length_append]
      omega

/-! ## The file -/

def Complete (check : List UInt8 → Except Errno Query) (pieces : List Chunk) : Prop :=
  ∀ nv ∈ evlLinuxFacilities, ∃ piece ∈ pieces, ∃ fac ∈ kept check piece, fac.faCode = nv.1

/-- A file of which nothing counts as an error. -/
structure Accepted (check : List UInt8 → Except Errno Query) (pieces : List Chunk) : Prop where
  clean : ErrorFree check pieces
  complete : Complete check pieces

theorem Holds.missing (h : Holds facs facReg) : missingPosixFacilities facReg = 0 ↔
      ∀ nv ∈ evlLinuxFacilities, ∃ fac ∈ facs, fac.faCode = nv.1 := by
  rw [missingPosixFacilities, List.length_eq_zero_iff, List.filter_eq_nil_iff]
  refine forall₂_congr fun nv _ => ?_
  obtain ⟨fac, hmem, hcode, hfind⟩ | ⟨hfind, hno⟩ := h.facByCode nv.1
  · rw [hfind]
    exact ⟨fun _ => ⟨fac, hmem, hcode⟩, fun _ hnone => by cases hnone⟩
  · rw [hfind]
    refine ⟨fun hsome => absurd rfl hsome, ?_⟩
    rintro ⟨fac, hmem, hcode⟩
    exact absurd hcode (hno fac hmem)

/-- A table with all that is kept of a file. -/
structure Kept (check : List UInt8 → Except Errno Query) (pieces : List Chunk)
    (facs : List (Facility Query)) (facReg : FacilityRegistry Query) : Prop where
  holds : Holds facs facReg
  noClash : facs.Pairwise fun fac other => ¬other.entry.Clash fac.entry
  fromPiece : ∀ fac ∈ facs, ∃ piece ∈ pieces, fac ∈ kept check piece
  all : ∀ piece ∈ pieces, ∀ fac ∈ kept check piece, fac ∈ facs

/-- A file that is accepted makes a table of all that is kept of it, and no
other file makes one. -/
theorem evlReadFacilities_spec (busy : Nat → Bool) (check : List UInt8 → Except Errno Query)
    (faCapacity : Nat) (content : List UInt8) :
    (∃ facs facReg, evlReadFacilities busy check faCapacity (some content) = some (some facReg) ∧
        Accepted check (chunksOf busy content) ∧ Kept check (chunksOf busy content) facs facReg) ∨
      (evlReadFacilities busy check faCapacity (some content) = some none ∧
        ¬Accepted check (chunksOf busy content)) ∨
      (evlReadFacilities busy check faCapacity (some content) = none ∧
        (2 ^ 30 ≤ faCapacity ∨ 2 ^ 29 ≤ (chunksOf busy content).length)) := by
  unfold evlReadFacilities
  dsimp only
  obtain ⟨facReg₀, halloc, hreg, -⟩ | ⟨halloc, hlimit⟩ := allocFacReg_spec Query faCapacity
  · have hstart : Reached check [] [] ⟨facReg₀, 0⟩ :=
      ⟨⟨hreg.good, hreg.perm⟩, List.Pairwise.nil, le_rfl, nofun, ⟨fun _ => ⟨nofun, nofun, .nil⟩, fun _ => rfl⟩,
        fun _ => nofun⟩
    rw [halloc, Option.bind_some]
    obtain ⟨facs, st, hturns, hreached⟩ | ⟨hturns, hlen⟩ := hstart.readTurns (chunksOf busy content)
    · rw [List.nil_append] at hreached
      rw [hturns, Option.map_some]
      by_cases hzero : st.nErrors = 0
      · have hiff : missingPosixFacilities st.newFacReg = 0 ↔ Complete check (chunksOf busy content) := by
          rw [hreached.holds.missing]
          refine forall₂_congr fun nv _ => ⟨?_, ?_⟩
          · rintro ⟨fac, hmem, hcode⟩
            obtain ⟨piece, hpiece, hfac⟩ := hreached.fromPiece fac hmem
            exact ⟨piece, hpiece, fac, hfac, hcode⟩
          · rintro ⟨piece, hpiece, fac, hfac, hcode⟩
            exact ⟨fac, hreached.all hzero piece hpiece fac hfac, hcode⟩
        by_cases hmissing : missingPosixFacilities st.newFacReg = 0
        · rw [if_pos (by omega)]
          exact .inl ⟨facs, _, rfl, ⟨hreached.clean.1 hzero, hiff.1 hmissing⟩,
            hreached.holds, hreached.noClash, hreached.fromPiece, hreached.all hzero⟩
        · rw [if_neg (by omega)]
          exact .inr (.inl ⟨rfl, fun hacc => hmissing (hiff.2 hacc.complete)⟩)
      · rw [if_neg (by omega)]
        exact .inr (.inl ⟨rfl, fun hacc => hzero (hreached.clean.2 hacc.clean)⟩)
    · rw [hturns]
      exact .inr (.inr ⟨rfl, .inr hlen⟩)
  · have hle := (nextPrimeUp_spec faCapacity).2.1
    have hsize : sizeLimit = 2 ^ 31 := rfl
    rw [halloc]
    exact .inr (.inr ⟨rfl, .inl (by omega)⟩)

/-! ## All or nothing -/

def fileLines (content : List UInt8) : List (List UInt8) :=
  fgetsAll isNewline (content.length + 1) content.length content

def entryLines (content : List UInt8) : List (List UInt8) :=
  (fileLines content).filter fun line => line.head? ≠ some 0x23

/-- A registry that says what the file says. -/
structure Loaded (check : List UInt8 → Except Errno Query) (content : List UInt8)
    (facReg : FacilityRegistry Query) : Prop where
  lines : ∃ es, List.Forall₂ (Written check) (entryLines content) es ∧
    es.Pairwise (fun e other => ¬e.Clash other) ∧
    ∀ e ∈ es, ∃ fac, facByCode e.code facReg = some (some fac) ∧ fac.entry = e
  distinct : facReg.frHash.reduceOption.Pairwise fun fac other => ¬fac.entry.Clash other.entry
  standard : ∀ nv ∈ evlLinuxFacilities, ∃ fac, facByCode nv.1 facReg = some (some fac) ∧
    sameName fac.faName (nv.2.toList.map fun c => UInt8.ofNat c.toNat) = true

/-- Either the registry in use stays, or the new one is in use and says what
the file says. -/
def AllOrNothing (busy : Nat → Bool) (check : List UInt8 → Except Errno Query) (content : List UInt8)
    (st : InUse Query) : Option (FacilityRegistry Query) → Prop
  | none => syncFacilities busy check false (some content) st = some st
  | some facReg =>
    syncFacilities busy check false (some content) st = some ⟨some facReg, facReg.frHash.length⟩ ∧
      Loaded check content facReg

/-- A file of which every line that is no comment is well formed, without
clashes, and not read in pieces (or the same entry is read elsewhere). -/
def WellFormed (busy : Nat → Bool) (check : List UInt8 → Except Errno Query) (content : List UInt8) : Prop :=
  ∃ es, List.Forall₂ (fun line e => Written check line e ∧
      (line.length ≤ 199 ∨
        ∃ piece ∈ chunksOf busy content, ∃ fac ∈ kept check piece, fac.entry = e))
      (entryLines content) es ∧
    es.Pairwise fun e other => ¬e.Clash other

theorem sameName_comm (s t : List UInt8) : sameName s t = sameName t s := by
  rw [sameName, sameName, Bool.beq_comm]

theorem FacEntry.Clash.symm {other : FacEntry} (h : e.Clash other) : other.Clash e :=
  h.imp Eq.symm fun hname => by rwa [sameName_comm]

variable {content : List UInt8}

/-- Lines for which there is room are among what is read. -/
theorem mem_chunksOf (busy : Nat → Bool) {line : List UInt8} (hline : line ∈ fileLines content)
    (hfits : line.length ≤ 199) : ∃ piece ∈ chunksOf busy content, piece.line = line := by
  have hfile : FileLines isNewline (content.length + 1) (fileLines content) ∧
      (fileLines content).flatten = content := fgetsAll_fileLines (Nat.succ_pos _) le_rfl
  obtain ⟨hlines, hflatten⟩ := hfile
  have hmem : line ∈ fgetsLines content := by
    have hall : line ∈ fgetsAll isNewline 199 content.length (fileLines content).flatten :=
      hlines.mem_fgetsAll (by rw [hflatten]; exact Nat.lt_succ_self _) (by decide) hline hfits (by rw [hflatten])
    rwa [hflatten] at hall
  obtain ⟨i, hi⟩ := List.mem_iff_getElem?.1 hmem
  refine ⟨⟨busy i, line⟩, List.mem_map.2 ⟨(line, i), ?_, rfl⟩, rfl⟩
  rw [List.mem_zipIdx_iff_getElem?]
  exact hi

/-- A line that is written well is kept, whoever has the lock. -/
theorem kept_of_written (h : Written check piece.line e) (hcomment : piece.line.head? ≠ some 0x23) :
    ∃ fac ∈ kept check piece, fac.entry = e := by
  have hentry : piece.entry = some e := by
    rw [Chunk.entry, readLine_of_written h hcomment]
    dsimp only
    rw [UInt32.toUInt32_toUInt64]
  have hquery : ∃ query, queryFor piece.busy check e.filter = some query := by
    cases hfilter : e.filter with
    | none => exact ⟨none, rfl⟩
    | some filter =>
      obtain ⟨query, hok⟩ := h.filter filter hfilter
      unfold queryFor posixLogQueryCreateOf
      cases piece.busy with
      | true => exact ⟨none, rfl⟩
      | false => exact ⟨some query, by simp only [Bool.false_eq_true, if_false, hok]⟩
  obtain ⟨query, hquery⟩ := hquery
  refine ⟨⟨e.code, e.name, e.accessFlags, e.filter, query⟩, ?_, rfl⟩
  rw [kept, hentry, Option.bind_some, facOfEntry, if_neg h.fields.reserved, hquery]
  rfl

theorem entry_of_kept (h : fac ∈ kept check piece) : fac.entry ∈ piece.entry := by
  rw [kept, Option.mem_def, Option.bind_eq_some_iff] at h
  obtain ⟨e, he, hfac⟩ := h
  unfold facOfEntry at hfac
  split at hfac
  · cases hfac
  · obtain ⟨query, -, rfl⟩ := Option.map_eq_some_iff.1 hfac
    exact he

theorem checkPosixFacility_standard {nv : UInt32 × String} (hnv : nv ∈ evlLinuxFacilities)
    {name : List UInt8} (h : checkPosixFacility nv.1 name = true) :
    sameName name (nv.2.toList.map fun c => UInt8.ofNat c.toNat) = true := by
  have hnodup : (evlLinuxFacilities.map Prod.fst).Nodup := by decide
  unfold checkPosixFacility linuxFacilityByCIName at h
  split at h
  · next posixFacNum hfind =>
    obtain ⟨nv', hfind', rfl⟩ := Option.map_eq_some_iff.1 hfind
    have heq : nv = nv' := List.inj_on_of_nodup_map hnodup hnv (List.mem_of_find?_eq_some hfind')
      (of_decide_eq_true h)
    have hname := List.find?_some hfind'
    rw [heq, sameName_comm]
    exact hname
  · rw [Bool.not_eq_true', List.any_eq_false] at h
    exact absurd (beq_self_eq_true nv.1) (h nv hnv)

/-- The registry of an accepted file that is well formed says what the file
says. -/
theorem Kept.loaded {busy : Nat → Bool} (h : Kept check (chunksOf busy content) facs facReg)
    (hacc : Accepted check (chunksOf busy content)) (hformed : WellFormed busy check content) :
    Loaded check content facReg := by
  have hfind : ∀ fac ∈ facs, facByCode fac.faCode facReg = some (some fac) := fun fac hmem =>
    (facByCode_spec h.holds.registry fac.faCode fac).2 ⟨hmem, rfl⟩
  refine ⟨?_, ?_, ?_⟩
  · obtain ⟨es, hes, hclash⟩ := hformed
    refine ⟨es, hes.imp fun line e hline => hline.1, hclash, fun e he => ?_⟩
    obtain ⟨line, hline, hwritten, hread⟩ := exists_left_of_mem hes he
    have hkept : ∃ piece ∈ chunksOf busy content, ∃ fac ∈ kept check piece, fac.entry = e := by
      rcases hread with hfits | hread
      · rw [entryLines, List.mem_filter, decide_eq_true_eq] at hline
        obtain ⟨piece, hpiece, rfl⟩ := mem_chunksOf busy hline.1 hfits
        exact ⟨piece, hpiece, kept_of_written hwritten hline.2⟩
      · exact hread
    obtain ⟨piece, hpiece, fac, hfac, rfl⟩ := hkept
    exact ⟨fac, hfind fac (h.all piece hpiece fac hfac), rfl⟩
  · refine (h.holds.perm.pairwise_iff fun hno hclash => hno hclash.symm).2 ?_
    exact h.noClash.imp fun hno hclash => hno hclash.symm
  · intro nv hnv
    obtain ⟨piece, hpiece, fac, hfac, hcode⟩ := hacc.complete nv hnv
    have hstandard : checkPosixFacility fac.faCode fac.faName = true :=
      hacc.clean.standard piece hpiece fac.entry (entry_of_kept hfac)
    rw [← hcode, hfind fac (h.all piece hpiece fac hfac)]
    exact ⟨fac, rfl, checkPosixFacility_standard hnv (hcode ▸ hstandard)⟩

theorem Kept.wellFormed {busy : Nat → Bool} (h : Kept check (chunksOf busy content) facs facReg)
    (hloaded : Loaded check content facReg) : WellFormed busy check content := by
  obtain ⟨es, hes, hclash, hfind⟩ := hloaded.lines
  have hkept : ∀ e ∈ es, ∃ piece ∈ chunksOf busy content, ∃ fac ∈ kept check piece, fac.entry = e := by
    intro e he
    obtain ⟨fac, hfac, rfl⟩ := hfind e he
    have hmem := ((facByCode_spec h.holds.registry _ fac).1 hfac).1
    obtain ⟨piece, hpiece, hfac⟩ := h.fromPiece fac hmem
    exact ⟨piece, hpiece, fac, hfac, rfl⟩
  refine ⟨es, ?_, hclash⟩
  clear hclash hfind hloaded
  generalize entryLines content = lines at hes
  induction hes with
  | nil => exact .nil
  | cons hline _ ih =>
    exact .cons ⟨hline, .inr (hkept _ List.mem_cons_self)⟩ (ih fun e he => hkept e (List.mem_cons_of_mem _ he))

/-- A file is loaded as a whole or not at all, and the registry says what the
file says, if and only if the file is not accepted or all its lines are well
formed. That the filter of a line makes no query is no error, and neither is
a bad number; so there are files that are accepted without being well
formed. -/
theorem facilities_all_or_nothing_iff (busy : Nat → Bool) (check : List UInt8 → Except Errno Query)
    (faCapacity : Nat) (content : List UInt8) (old : FacilityRegistry Query) :
    (faCapacity < 2 ^ 30 → (chunksOf busy content).length < 2 ^ 29 →
        ∃ result, evlReadFacilities busy check faCapacity (some content) = some result) ∧
      ∀ result, evlReadFacilities busy check faCapacity (some content) = some result →
        (AllOrNothing busy check content ⟨some old, faCapacity⟩ result ↔
          (Accepted check (chunksOf busy content) → WellFormed busy check content)) := by
  obtain ⟨facs, facReg, hread, hacc, hkept⟩ | ⟨hread, hacc⟩ | ⟨hread, hlimit⟩ :=
    evlReadFacilities_spec busy check faCapacity content
  · refine ⟨fun _ _ => ⟨_, hread⟩, ?_⟩
    rintro result hresult
    obtain rfl : some facReg = result := Option.some.inj (hread.symm.trans hresult)
    have hsync : syncFacilities busy check false (some content) ⟨some old, faCapacity⟩
        = some ⟨some facReg, facReg.frHash.length⟩ := by
      rw [syncFacilities, Bool.and_false, if_neg (by simp), hread, Option.bind_some]
    exact ⟨fun h _ => hkept.wellFormed h.2, fun h => ⟨hsync, hkept.loaded hacc (h hacc)⟩⟩
  · refine ⟨fun _ _ => ⟨_, hread⟩, ?_⟩
    rintro result hresult
    obtain rfl : none = result := Option.some.inj (hread.symm.trans hresult)
    have hsync : syncFacilities busy check false (some content) ⟨some old, faCapacity⟩
        = some ⟨some old, faCapacity⟩ := by
      rw [syncFacilities, Bool.and_false, if_neg (by simp), hread, Option.bind_some]
    exact ⟨fun _ hacc' => absurd hacc' hacc, fun _ => hsync⟩
  · refine ⟨fun hcap hlen => by omega, fun result hresult => ?_⟩
    rw [hread] at hresult
    cases hresult

def noFilter (_ : List UInt8) : Except Errno Unit := .error .einval

/-- The standard facilities, and `200 FS x`. -/
def badFilterFile : List UInt8 :=
  (evlLinuxFacilities.flatMap fun nv =>
    CString.decimal nv.1.toNat ++ 0x20 :: (nv.2.toList.map fun c => UInt8.ofNat c.toNat) ++ [0x0a])
    ++ [0x32, 0x30, 0x30, 0x20, 0x46, 0x53, 0x20, 0x78, 0x0a]

set_option maxRecDepth 20000

/-- The line with the bad filter is dropped, and the rest is in use. -/
theorem badFilter_is_dropped :
    ∃ result, evlReadFacilities (fun _ => false) noFilter 50 (some badFilterFile) = some result ∧
      ¬AllOrNothing (fun _ => false) noFilter badFilterFile ⟨some ⟨[], 0⟩, 50⟩ result := by
  have hread : (evlReadFacilities (fun _ => false) noFilter 50 (some badFilterFile)).map Option.isSome
      = some true := by decide
  obtain ⟨result, hresult, hsome⟩ := Option.map_eq_some_iff.1 hread
  obtain ⟨facReg, rfl⟩ := Option.isSome_iff_exists.1 hsome
  refine ⟨_, hresult, fun h => ?_⟩
  obtain ⟨es, hes, -, -⟩ := h.2.lines
  have hmem : [0x32, 0x30, 0x30, 0x20, 0x46, 0x53, 0x20, 0x78, 0x0a] ∈ entryLines badFilterFile := by
    decide
  obtain ⟨e, -, hwritten⟩ := exists_right_of_mem hes hmem
  have hparams := hwritten.fields.params
  have hcollect : evlCollectOptionalFacParams
      (((evlSplitCmd (lineText [0x32, 0x30, 0x30, 0x20, 0x46, 0x53, 0x20, 0x78, 0x0a]) 6).drop 2).map
        (·.text)) = some (0, some [0x78]) := by decide
  rw [hcollect] at hparams
  obtain ⟨query, hquery⟩ := hwritten.filter [0x78] (by rw [← (Prod.mk.inj (Option.some.inj hparams)).2]; rfl)
  cases hquery

end Evlog.Posix
