/-
Evlog.Evlogmgr.SearchTheorems — does the search find the next record?

`searchForNextGoodRecord` goes on to the next byte where there is no magic,
and where the size behind the record is not the one announced. Where that size
or `log_size` itself is not in the file, it gives up (`Blocks`), and what lies
behind is lost. It is taken in by a header whose announced size agrees with
the one behind it only modulo 2^64 (`Deceives`). Both are said of the header
alone. The search is right if and only if neither comes before the first
record (`Unobstructed`).
-/
import Evlog.Evlogmgr.RepairTheorems
import Mathlib.Order.Nat
import Mathlib.Order.Lattice.Nat

namespace Evlog.Evlogmgr

open Evlog.Lib Evlog.Posix

/-! ## What is meant -/

def HasMagic (content : List UInt8) (offset : Nat) : Prop :=
  offset + 4 ≤ content.length ∧ headMagic content offset &&& 0xffff0000 = logrecMagicHiword

/-- A valid record begins at `offset`: the magic, as many bytes of data as
`log_size` says and the same size behind them, all inside the file. -/
structure ValidAt (content : List UInt8) (offset : Nat) : Prop where
  magic : HasMagic content offset
  inside : offset + recHdrSize + (headSize content offset).toNat + sizeSize ≤ content.length
  trailing : leInt (readAt content (offset + recHdrSize + (headSize content offset).toNat) sizeSize)
    = recHdrSize + (headSize content offset).toNat

/-- The offsets from `start` on at which valid records begin. -/
def goodOffsets (content : List UInt8) (start : Nat) : Set Nat :=
  {offset | start ≤ offset ∧ ValidAt content offset}

/-- The search finds the first valid record, and nothing only if there is
none. -/
structure FindsFirst (content : List UInt8) (start : Nat) : Prop where
  found : ∀ next, searchForNextGoodRecord content start = some next ↔
    IsLeast (goodOffsets content start) next
  missed : searchForNextGoodRecord content start = none ↔ goodOffsets content start = ∅

/-! ## The condition -/

/-- Where the size behind a record is read. If `lseek` fails the file stands
behind `log_size`. -/
def trailPos (content : List UInt8) (offset : Nat) : Nat :=
  (sizeFieldPos offset (headSize content offset)).getD (offset + logSizeOffset + 8)

def Blocks (content : List UInt8) (offset : Nat) : Prop :=
  HasMagic content offset ∧
    (content.length < offset + logSizeOffset + 8 ∨ content.length < trailPos content offset + sizeSize)

/-- A header whose sizes agree modulo 2^64 only, or where `lseek` has failed
in between. -/
def Deceives (content : List UInt8) (offset : Nat) : Prop :=
  HasMagic content offset ∧ offset + logSizeOffset + 8 ≤ content.length ∧
    trailPos content offset + sizeSize ≤ content.length ∧
    sizeMatches (headSize content offset) (leInt (readAt content (trailPos content offset) sizeSize)) ∧
    (leInt (readAt content (trailPos content offset) sizeSize) < recHdrSize ∨
      sizeFieldPos offset (headSize content offset) = none)

/-- No header that blocks or deceives comes before the first valid record, and
none that deceives before one that blocks if there is no valid record. -/
structure Unobstructed (content : List UInt8) (start : Nat) : Prop where
  before : ∀ next, IsLeast (goodOffsets content start) next → ∀ offset, start ≤ offset → offset < next →
    ¬Blocks content offset ∧ ¬Deceives content offset
  none : goodOffsets content start = ∅ → ∀ offset, start ≤ offset → Deceives content offset →
    ∃ earlier, start ≤ earlier ∧ earlier < offset ∧ Blocks content earlier

/-! ## One offset -/

theorem probe_eq (content : List UInt8) (offset : Nat) : probe content offset =
      if content.length < offset + 4 then .stop
      else if headMagic content offset &&& 0xffff0000 = logrecMagicHiword then
        if content.length < offset + logSizeOffset + 8 ∨
            content.length < trailPos content offset + sizeSize then .stop
        else if sizeMatches (headSize content offset)
            (leInt (readAt content (trailPos content offset) sizeSize)) then .found
        else .next
      else .next := by
  have hread : ∀ pos n, 0 < n → ((readAt content pos n).length ≠ n ↔ content.length < pos + n) := by
    intro pos n hn
    rw [Ne, readAt_length_eq_iff hn, Nat.not_le]
  unfold probe trailPos
  dsimp only
  rw [if_congr (hread _ _ (by decide)) rfl rfl]
  refine if_congr Iff.rfl rfl (if_congr Iff.rfl ?_ rfl)
  rw [if_congr (hread _ _ (by decide)) rfl rfl]
  by_cases hcut : content.length < offset + logSizeOffset + 8
  · rw [if_pos hcut, if_pos (.inl hcut)]
  · rw [if_neg hcut]
    refine if_congr ?_ rfl rfl
    rw [hread _ _ (by decide)]
    exact (or_iff_right hcut).symm

variable {content : List UInt8} {offset next : Nat}

theorem probe_stop_iff :
    probe content offset = .stop ↔ content.length < offset + 4 ∨ Blocks content offset := by
  rw [probe_eq]
  unfold Blocks HasMagic
  split_ifs with hend hmagic hcut hmatch
  · simp [hend]
  · exact iff_of_true rfl (.inr ⟨⟨by omega, hmagic⟩, hcut⟩)
  · exact iff_of_false (by simp) fun h => hcut (h.resolve_left hend).2
  · exact iff_of_false (by simp) fun h => hcut (h.resolve_left hend).2
  · exact iff_of_false (by simp) fun h => hmagic (h.resolve_left hend).1.2

theorem sizeFieldPos_eq (offset : Nat) (logSize : UInt64) : sizeFieldPos offset logSize =
      if (offset + logSize.toNat + recHdrSize) % 2 ^ 64 < 2 ^ 63 then
        some ((offset + logSize.toNat + recHdrSize) % 2 ^ 64)
      else none := by
  unfold sizeFieldPos
  rw [Int.bmod_def]
  generalize offset + logSize.toNat + recHdrSize = sum
  dsimp only
  norm_num
  by_cases h : sum % 18446744073709551616 < 9223372036854775808
  · rw [if_pos h, if_pos (by omega), if_pos (by omega)]
    norm_cast
  · rw [if_neg h, if_neg (by omega)]

/-- Where the sizes agree and nothing wraps around, a record ends. -/
theorem trailPos_of_proper (hsize : content.length < 2 ^ 63) (hoffset : offset ≤ content.length)
    (hpos : trailPos content offset + sizeSize ≤ content.length)
    (hmatch : sizeMatches (headSize content offset)
      (leInt (readAt content (trailPos content offset) sizeSize)) = true)
    (hproper : recHdrSize ≤ leInt (readAt content (trailPos content offset) sizeSize))
    (hseek : sizeFieldPos offset (headSize content offset) ≠ none) :
    trailPos content offset = offset + recHdrSize + (headSize content offset).toNat ∧
      leInt (readAt content (trailPos content offset) sizeSize)
        = recHdrSize + (headSize content offset).toNat := by
  have hrange := leInt_range hpos
  have hsizes := eq_of_sizeMatches hrange.2 hproper hmatch
  refine ⟨?_, by omega⟩
  obtain ⟨pos, hsome⟩ := Option.ne_none_iff_exists'.1 hseek
  have htrail : trailPos content offset = pos := by rw [trailPos, hsome, Option.getD_some]
  rw [htrail]
  rw [sizeFieldPos_eq] at hsome
  obtain ⟨hlt, hvalue⟩ := Option.ite_none_right_eq_some.1 hsome
  have hhdr : recHdrSize = 88 := rfl
  have := Option.some.inj hvalue
  omega

theorem probe_found_iff (hsize : content.length < 2 ^ 63) :
    probe content offset = .found ↔ ValidAt content offset ∨ Deceives content offset := by
  constructor
  · intro h
    rw [probe_eq] at h
    split_ifs at h with hend hmagic hcut hmatch
    rw [not_or, Nat.not_lt, Nat.not_lt] at hcut
    obtain ⟨hcut, hpos⟩ := hcut
    have hhas : HasMagic content offset := ⟨by omega, hmagic⟩
    by_cases hodd : leInt (readAt content (trailPos content offset) sizeSize) < recHdrSize ∨
        sizeFieldPos offset (headSize content offset) = none
    · exact .inr ⟨hhas, hcut, hpos, hmatch, hodd⟩
    · rw [not_or, not_lt] at hodd
      obtain ⟨hat, htrailing⟩ := trailPos_of_proper hsize (by omega) hpos hmatch hodd.1 hodd.2
      rw [hat] at hpos htrailing
      exact .inl ⟨hhas, hpos, htrailing⟩
  · rintro (⟨hmagic, hinside, htrailing⟩ | ⟨hmagic, hcut, hpos, hmatch, -⟩)
    · have hat : trailPos content offset = offset + recHdrSize + (headSize content offset).toNat := by
        rw [trailPos, sizeFieldPos_eq, Nat.mod_eq_of_lt (by omega), if_pos (by omega), Option.getD_some]
        omega
      have hmatch : sizeMatches (headSize content offset)
          (leInt (readAt content (trailPos content offset) sizeSize)) = true := by
        rw [hat, htrailing, sizeMatches, beq_iff_eq]
        push_cast
        rw [Int.add_comm]
      rw [probe_eq, if_neg (Nat.not_lt.2 hmagic.1), if_pos hmagic.2, if_neg, if_pos hmatch]
      rw [hat]
      simp only [recHdrSize, logSizeOffset, sizeSize] at hinside ⊢
      omega
    · rw [probe_eq, if_neg (Nat.not_lt.2 hmagic.1), if_pos hmagic.2, if_neg (by omega), if_pos hmatch]

/-! ## The search -/

/-- The search ends where there is something to be found, and has passed
everything in front of it. -/
theorem searchFrom_eq_some_iff {n : Nat} : searchFrom content n offset = some next ↔
      offset ≤ next ∧ next < offset + n ∧ probe content next = .found ∧
        ∀ k, offset ≤ k → k < next → probe content k = .next := by
  induction n generalizing offset with
  | zero =>
    refine iff_of_false (by simp [searchFrom]) ?_
    omega
  | succ n ih =>
    rw [searchFrom]
    cases hprobe : probe content offset with
    | stop =>
      refine iff_of_false (by simp) ?_
      rintro ⟨hle, -, hfound, hpassed⟩
      rcases Nat.eq_or_lt_of_le hle with rfl | hlt
      · simp [hprobe] at hfound
      · simp [hpassed offset le_rfl hlt] at hprobe
    | found =>
      simp only [Option.some.injEq]
      constructor
      · rintro rfl
        exact ⟨le_rfl, by omega, hprobe, fun k _ _ => by omega⟩
      · rintro ⟨hle, -, -, hpassed⟩
        rcases Nat.eq_or_lt_of_le hle with rfl | hlt
        · rfl
        · simp [hpassed offset le_rfl hlt] at hprobe
    | next =>
      rw [ih]
      constructor
      · rintro ⟨hle, hlt, hfound, hpassed⟩
        refine ⟨by omega, by omega, hfound, ?_⟩
        intro k hk hkn
        rcases Nat.eq_or_lt_of_le hk with rfl | hlt
        · exact hprobe
        · exact hpassed k hlt hkn
      · rintro ⟨hle, hlt, hfound, hpassed⟩
        have hne : offset ≠ next := by
          rintro rfl
          simp [hprobe] at hfound
        exact ⟨by omega, by omega, hfound, fun k hk hkn => hpassed k (by omega) hkn⟩

theorem search_eq_some_iff {start : Nat} : searchForNextGoodRecord content start = some next ↔
      start ≤ next ∧ probe content next = .found ∧
        ∀ k, start ≤ k → k < next → probe content k = .next := by
  unfold searchForNextGoodRecord
  rw [searchFrom_eq_some_iff]
  constructor
  · rintro ⟨hle, -, hfound, hpassed⟩
    exact ⟨hle, hfound, hpassed⟩
  · rintro ⟨hle, hfound, hpassed⟩
    have hin := (probe_found hfound).2
    obtain ⟨-, -, hin, -⟩ := hin
    exact ⟨hle, by omega, hfound, hpassed⟩

theorem probe_next (hsize : content.length < 2 ^ 63) (hin : offset + 4 ≤ content.length)
    (hvalid : ¬ValidAt content offset) (hblocks : ¬Blocks content offset)
    (hdeceives : ¬Deceives content offset) : probe content offset = .next := by
  cases hprobe : probe content offset with
  | stop => exact absurd (probe_stop_iff.1 hprobe) (not_or.2 ⟨Nat.not_lt.2 hin, hblocks⟩)
  | found => exact absurd ((probe_found_iff hsize).1 hprobe) (not_or.2 ⟨hvalid, hdeceives⟩)
  | next => rfl

theorem exists_isLeast {s : Set Nat} (h : s.Nonempty) : ∃ n, IsLeast s n :=
  ⟨sInf s, Nat.sInf_mem h, fun _ hn => Nat.sInf_le hn⟩

/-- The search is right if and only if nothing obstructs it. -/
theorem search_finds_first_iff (content : List UInt8) (hsize : content.length < 2 ^ 63) (start : Nat) :
    FindsFirst content start ↔ Unobstructed content start := by
  constructor
  · intro h
    refine ⟨?_, ?_⟩
    · intro next hnext offset hle hlt
      obtain ⟨-, -, hpassed⟩ := search_eq_some_iff.1 ((h.found next).2 hnext)
      have hprobe := hpassed offset hle hlt
      constructor
      · intro hblocks
        simp [probe_stop_iff.2 (.inr hblocks)] at hprobe
      · intro hdeceives
        simp [(probe_found_iff hsize).2 (.inr hdeceives)] at hprobe
    · intro hempty offset hle hdeceives
      by_contra hno
      push Not at hno
      -- The first header that deceives would be found.
      obtain ⟨first, ⟨hfirst, hdec⟩, hleast⟩ :=
        exists_isLeast (s := {k | start ≤ k ∧ Deceives content k}) ⟨offset, hle, hdeceives⟩
      have hfound : searchForNextGoodRecord content start = some first := by
        refine search_eq_some_iff.2 ⟨hfirst, (probe_found_iff hsize).2 (.inr hdec), ?_⟩
        intro k hk hkf
        have hin := hdec.1.1
        have hbefore := hleast (show offset ∈ {k | start ≤ k ∧ Deceives content k} from ⟨hle, hdeceives⟩)
        refine probe_next hsize (by omega) ?_ (hno k hk (by omega)) ?_
        · intro hvalid
          exact Set.notMem_empty k (hempty ▸ ⟨hk, hvalid⟩)
        · intro hdecK
          have := hleast (show k ∈ {k | start ≤ k ∧ Deceives content k} from ⟨hk, hdecK⟩)
          omega
      rw [h.missed.2 hempty] at hfound
      cases hfound
  · intro h
    have hfound : ∀ next, searchForNextGoodRecord content start = some next ↔
        IsLeast (goodOffsets content start) next := by
      intro next
      rw [search_eq_some_iff]
      constructor
      · rintro ⟨hle, hprobe, hpassed⟩
        have hnot : ∀ v ∈ goodOffsets content start, next ≤ v := by
          rintro v ⟨hv, hvalid⟩
          by_contra hlt
          have hnext := hpassed v hv (by omega)
          simp [(probe_found_iff hsize).2 (.inl hvalid)] at hnext
        rcases (probe_found_iff hsize).1 hprobe with hvalid | hdeceives
        · exact ⟨⟨hle, hvalid⟩, hnot⟩
        · rcases (goodOffsets content start).eq_empty_or_nonempty with hempty | hsome
          · obtain ⟨earlier, hstart, hlt, hblocks⟩ := h.none hempty next hle hdeceives
            have hnext := hpassed earlier hstart hlt
            simp [probe_stop_iff.2 (.inr hblocks)] at hnext
          · obtain ⟨v, hv⟩ := exists_isLeast hsome
            rcases Nat.eq_or_lt_of_le (hnot v hv.1) with rfl | hlt
            · exact hv
            · exact absurd hdeceives (h.before v hv next hle hlt).2
      · intro hnext
        obtain ⟨⟨hle, hvalid⟩, hleast⟩ := id hnext
        refine ⟨hle, (probe_found_iff hsize).2 (.inl hvalid), ?_⟩
        intro k hk hlt
        have hin := hvalid.magic.1
        obtain ⟨hblocks, hdeceives⟩ := h.before next hnext k hk hlt
        refine probe_next hsize (by omega) ?_ hblocks hdeceives
        intro hvalidK
        have := hleast ⟨hk, hvalidK⟩
        omega
    refine ⟨hfound, ?_, ?_⟩
    · intro hnone
      by_contra hne
      obtain ⟨v, hv⟩ := exists_isLeast (Set.nonempty_iff_ne_empty.2 hne)
      rw [(hfound v).2 hv] at hnone
      cases hnone
    · intro hempty
      cases hsearch : searchForNextGoodRecord content start with
      | none => rfl
      | some next => exact absurd ((hfound next).1 hsearch).1 (hempty ▸ Set.notMem_empty next)

def plainRecord : List UInt8 := [0, 0, 0xef, 0xfe] ++ List.replicate 84 0 ++ [88, 0, 0, 0]

/-- In front of a record, a magic and a size that is not in the file. -/
def blockedLog : List UInt8 :=
  List.replicate logHeaderSize 0 ++ [0, 0, 0xef, 0xfe, 0, 0, 0, 0, 0xff, 0xff, 0, 0, 0, 0, 0, 0]
    ++ plainRecord

set_option maxRecDepth 20000

/-- The search gives up there, and the repair cuts the log off with the
record. -/
theorem search_gives_up :
    ValidAt blockedLog 56 ∧ searchForNextGoodRecord blockedLog logHeaderSize = none ∧
      ¬FindsFirst blockedLog logHeaderSize ∧
      RepairReturns blockedLog (.done (blockedLog.take logHeaderSize) true) := by
  have hvalid : ValidAt blockedLog 56 := ⟨⟨by decide, by decide⟩, by decide, by decide⟩
  have hnone : searchForNextGoodRecord blockedLog logHeaderSize = none := by decide
  refine ⟨hvalid, hnone, ?_, .machine (by decide) (Machine.returns_of_step (by decide))⟩
  intro h
  have hmem : 56 ∈ goodOffsets blockedLog logHeaderSize := ⟨by decide, hvalid⟩
  rw [h.missed.1 hnone] at hmem
  exact hmem

/-- Nothing obstructs a search that begins at a record. -/
theorem search_finds_first_iff_plain : plainRecord.length < 2 ^ 63 ∧ FindsFirst plainRecord 0 := by
  have hsize : plainRecord.length < 2 ^ 63 := by decide
  have hvalid : 0 ∈ goodOffsets plainRecord 0 := ⟨le_rfl, ⟨by decide, by decide⟩, by decide, by decide⟩
  refine ⟨hsize, (search_finds_first_iff plainRecord hsize 0).2 ⟨?_, ?_⟩⟩
  · intro next hnext offset _ hlt
    have := hnext.2 hvalid
    omega
  · intro hempty
    rw [hempty] at hvalid
    cases hvalid

end Evlog.Evlogmgr
