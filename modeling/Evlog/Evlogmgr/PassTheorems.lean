/-
Evlog.Evlogmgr.PassTheorems — the passes of log repair.

A pass is what happens between two visits of the label `repair_again`:
the walk from the file header on (`Walks`) to the first place where
`validateRec` fails (`StopsAt`), the search from there on, and the records
moved up from what it has found (`movedFrom`). The `step_` lemmas say what
each turn of the machine does in a pass, `Restarts` how one leads to the
next: with what it has moved written over the bad block.
-/
import Evlog.Evlogmgr.RepairTheorems
import Evlog.Evlogmgr.CompactTheorems

namespace Evlog.Evlogmgr

open Evlog.Lib Evlog.Posix Relation
open Evlog.Lib.Machine (Goes)

/-! ## Turns of the two loops -/

def walkingAt (base : List UInt8) (offset : Nat) (status : Bool) : RepairState :=
  { pc := .outer, content := base, stSize := base.length, offset := offset, beginhole := 0
    bytesToProcess := (base.length : Int) - offset, status := status }

/-- The inner loop, with `moved` written over `base` from `start` on. -/
def movingAt (base : List UInt8) (start : Nat) (moved : List UInt8) (offset : Nat) : RepairState :=
  { pc := .inner, content := overlay base start moved, stSize := base.length, offset := offset
    beginhole := start + moved.length, bytesToProcess := (base.length : Int) - offset
    status := true }

def movedAt (base : List UInt8) (start : Nat) (moved : List UInt8) (offset : Nat) : RepairState :=
  { movingAt base start moved offset with pc := .outer }

section Steps

variable {base moved : List UInt8} {start offset next : Nat} {status : Bool}

theorem step_end (h : base.length ≤ offset) :
    repairStep (walkingAt base offset status) = (.inr (.done base status), [base]) := by
  have hpos : ¬ (0 : Int) < base.length - offset := by omega
  simp only [repairStep, walkingAt, repairFinish, hpos, lt_irrefl, if_false, RepairEnd.content]

theorem step_accept (hlt : offset < base.length) (h : validateRec base offset = some next) :
    repairStep (walkingAt base offset status) = (.inl (walkingAt base next status), []) := by
  have hpos : (0 : Int) < base.length - offset := by omega
  simp only [repairStep, walkingAt, h, hpos, if_true, Prod.mk.injEq, Sum.inl.injEq,
    RepairState.mk.injEq, true_and, and_true]
  omega

theorem step_cut (hpos : 0 < offset) (hlt : offset < base.length)
    (h : validateRec base offset = none) (hsearch : searchForNextGoodRecord base offset = none) :
    repairStep (walkingAt base offset status)
      = (.inr (.done (base.take offset) true), [base.take offset]) := by
  have hleft : (0 : Int) < base.length - offset := by omega
  simp only [repairStep, walkingAt, h, hsearch, repairFinish, hleft, hpos, if_true,
    RepairEnd.content]

theorem step_found (hlt : offset < base.length) (h : validateRec base offset = none)
    (hsearch : searchForNextGoodRecord base offset = some next) :
    repairStep (walkingAt base offset status) = (.inl (movingAt base offset [] next), []) := by
  have hpos : (0 : Int) < base.length - offset := by omega
  simp only [repairStep, walkingAt, movingAt, h, hsearch, overlay_nil, hpos, if_true,
    Prod.mk.injEq, Sum.inl.injEq, RepairState.mk.injEq, true_and, and_true, List.length_nil,
    Nat.add_zero]
  omega

/-- The inner loop reads what was in the file before it started. -/
theorem readAt_moving (hstart : start ≤ base.length) (hbehind : start + moved.length ≤ offset)
    (n : Nat) : readAt (overlay base start moved) offset n = readAt base offset n := by
  rw [readAt, drop_overlay hstart hbehind, readAt]

theorem step_short (hstart : start ≤ base.length) (hbehind : start + moved.length ≤ offset)
    (hlt : offset < base.length) (hshort : base.length < offset + recHdrSize) :
    repairStep (movingAt base start moved offset)
      = (.inr (.eio (overlay base start moved)), []) := by
  have hlen : (readAt base offset recHdrSize).length ≠ recHdrSize := by
    rw [ne_eq, readAt_length_eq_iff (by decide)]
    omega
  have hpos : (0 : Int) < base.length - offset := by omega
  simp only [repairStep, movingAt, readAt_moving hstart hbehind, hpos, hlen, ne_eq,
    not_false_eq_true, if_true]

/-- What `getRecLen` makes of a header. -/
theorem getRecLen_head (content : List UInt8) (offset : Nat) :
    getRecLen (PosixLogEntry.ofBytes (readAt content offset recHdrSize))
      = if headMagic content offset &&& 0xffff0000 = logrecMagicHiword then
          (headSize content offset + UInt64.ofNat (recHdrSize + sizeSize)).toUInt32.toInt32
        else -1 := by
  rw [getRecLen, (ofBytes_head content offset).1, (ofBytes_head content offset).2]

variable {bs : List UInt8}

theorem getRecLen_movable (h : movable base offset = some bs) :
    (getRecLen (PosixLogEntry.ofBytes (readAt base offset recHdrSize))).toInt = bs.length := by
  obtain ⟨hmagic, hrange, -, hlen, -⟩ := movable_spec h
  simp only [posixLogEntryMaxlen] at hrange
  have hsum : (headSize base offset + UInt64.ofNat (recHdrSize + sizeSize)).toNat
      = (headSize base offset).toNat + (recHdrSize + sizeSize) := by
    rw [UInt64.toNat_add, UInt64.toNat_ofNat', Nat.mod_eq_of_lt (by decide : recHdrSize + sizeSize < 2 ^ 64)]
    exact Nat.mod_eq_of_lt (by simp only [recHdrSize, sizeSize]; omega)
  rw [getRecLen_head, if_pos hmagic, toInt_narrow (by rw [hsum]; simp only [recHdrSize, sizeSize]; omega),
    hsum, hlen]
  push_cast
  ring

/-- Without a buffer given, the rest of the record is read from the file. -/
theorem moveRecordUp_read (f : OpenFile) (beginhole : Int) (rechdr : List UInt8) {remainder : Nat}
    (hrem : (PosixLogEntry.ofBytes rechdr).logSize.toNat + sizeSize = remainder) :
    moveRecordUp f beginhole rechdr none
      = if (f.read remainder).1.length = remainder then
          moveRecordUp f beginhole rechdr (some (f.read remainder).1)
        else none := by
  simp only [moveRecordUp, hrem]
  split_ifs with hrange hread hread
  · rfl
  · rfl
  · rw [List.take_of_length_le hread.le]
  · rfl

/-- A record that can be moved is added to the moved part. -/
theorem moveRecordUp_movable (hstart : start ≤ base.length)
    (hbehind : start + moved.length ≤ offset) (h : movable base offset = some bs) :
    moveRecordUp ⟨overlay base start moved, offset + recHdrSize⟩ ((start + moved.length : Nat) : Int)
        (readAt base offset recHdrSize) none
      = some (⟨overlay base start (moved ++ bs), start + (moved ++ bs).length⟩,
          ((start + (moved ++ bs).length : Nat) : Int),
          [overlay base start (moved ++ readAt base offset recHdrSize),
            overlay base start (moved ++ bs)]) := by
  obtain ⟨-, hrange, hbs, hlen, hin⟩ := movable_spec h
  have hhead := (ofBytes_head base offset).2
  have hhdr : (readAt base offset recHdrSize).length = recHdrSize :=
    (readAt_length_eq_iff (by decide)).2 (by omega)
  generalize hrem : (headSize base offset).toNat + sizeSize = remainder at *
  have hvar : (readAt base (offset + recHdrSize) remainder).length = remainder :=
    (readAt_length_eq_iff (by simp only [sizeSize] at hrem; omega)).2 (by omega)
  have hread : (OpenFile.read ⟨overlay base start moved, offset + recHdrSize⟩ remainder).1
      = readAt base (offset + recHdrSize) remainder := by
    have hbehind' : start + moved.length ≤ offset + recHdrSize := by omega
    exact readAt_moving hstart hbehind' remainder
  have hbytes : ReadRecord.bytes ⟨readAt base offset recHdrSize,
      readAt base (offset + recHdrSize) remainder, 0⟩ = bs := by
    rw [ReadRecord.bytes, hhead, hrem, List.take_of_length_le hvar.le, hbs, Nat.add_assoc, hrem,
      readAt, readAt, readAt, List.take_add, List.drop_drop]
  rw [moveRecordUp_read _ _ _ (by rw [hhead, hrem]), hread, if_pos hvar, ← hbytes,
    Nat.cast_add start moved.length]
  refine moveRecordUp_overlay (r := ⟨readAt base offset recHdrSize,
    readAt base (offset + recHdrSize) remainder, 0⟩) ?_ ?_ ?_ ?_
  · rw [hhead]
    exact hrange
  · rw [hbytes, hhdr]
    omega
  · rw [hbytes]
    omega
  · rw [hbytes, hhead]
    omega

theorem step_move (hstart : start ≤ base.length) (hbehind : start + moved.length ≤ offset)
    (h : movable base offset = some bs) :
    repairStep (movingAt base start moved offset)
      = (.inl (movingAt base start (moved ++ bs) (offset + bs.length)),
          [overlay base start (moved ++ readAt base offset recHdrSize),
            overlay base start (moved ++ bs)]) := by
  obtain ⟨hmin, hin⟩ := movable_length h
  have hreclen := getRecLen_movable h
  have hmove := moveRecordUp_movable hstart hbehind h
  have hhdr : (readAt base offset recHdrSize).length = recHdrSize :=
    (readAt_length_eq_iff (by decide)).2 (by omega)
  have hpos : (0 : Int) < base.length - offset := by
    simp only [recHdrSize] at hmin
    omega
  have hne : getRecLen (PosixLogEntry.ofBytes (readAt base offset recHdrSize)) ≠ -1 := by
    intro hcontra
    rw [hcontra] at hreclen
    exact absurd hreclen (by simp)
  simp only [repairStep, movingAt, readAt_moving hstart hbehind, hpos, hhdr, hne, hmove, hreclen,
    ne_eq, not_true_eq_false, if_false, if_true, Prod.mk.injEq, Sum.inl.injEq,
    RepairState.mk.injEq, true_and, and_true, Int.toNat_natCast]
  push_cast
  exact ⟨by omega, by ring⟩

/-- A record that can not be moved: `goto repair_again`. -/
theorem step_stuck (hstart : start ≤ base.length) (hbehind : start + moved.length ≤ offset)
    (hfits : start + moved.length ≤ base.length)
    (hhdr : offset + recHdrSize ≤ base.length) (h : movable base offset = none) :
    repairStep (movingAt base start moved offset)
      = (.inl (walkingAt (overlay base start moved) logHeaderSize true), []) := by
  have hagain : repairAgain (overlay base start moved) base.length true
      = walkingAt (overlay base start moved) logHeaderSize true := by
    rw [repairAgain, walkingAt, overlay_length hfits]
  have hlen : (readAt base offset recHdrSize).length = recHdrSize :=
    (readAt_length_eq_iff (by decide)).2 hhdr
  have hpos : (0 : Int) < base.length - offset := by
    simp only [recHdrSize] at hhdr
    omega
  simp only [repairStep, movingAt, readAt_moving hstart hbehind, hpos, hlen, ne_eq,
    not_true_eq_false, if_false, if_true]
  by_cases hreclen : getRecLen (PosixLogEntry.ofBytes (readAt base offset recHdrSize)) = -1
  · rw [if_pos hreclen, hagain]
  · have hmagic : headMagic base offset &&& 0xffff0000 = logrecMagicHiword := by
      by_contra hbad
      exact hreclen (by rw [getRecLen_head, if_neg hbad])
    have hmove : moveRecordUp ⟨overlay base start moved, offset + recHdrSize⟩
        ((start + moved.length : Nat) : Int) (readAt base offset recHdrSize) none = none := by
      have hhead := (ofBytes_head base offset).2
      rw [moveRecordUp_read _ _ _ (by rw [hhead])]
      split_ifs with hread
      · have hin : offset + recHdrSize + ((headSize base offset).toNat + sizeSize)
            ≤ base.length := by
          rw [← readAt_length_eq_iff (by simp only [sizeSize]; omega),
            ← readAt_moving hstart (show start + moved.length ≤ offset + recHdrSize by omega)]
          exact hread
        rw [moveRecordUp_eq_none_iff _ (by omega), hhead]
        by_contra hrange
        rw [movable, if_pos ⟨hmagic, by omega, by omega⟩] at h
        cases h
      · rfl
    rw [if_neg hreclen, hmove, hagain]

/-- At the end of the file the inner loop is left, and then the outer. -/
theorem step_out (hend : base.length ≤ offset) : repairStep (movingAt base start moved offset)
      = (.inl (movedAt base start moved offset), []) := by
  have hleft : ¬ (0 : Int) < base.length - offset := by omega
  simp only [repairStep, movedAt, movingAt, hleft, if_false]

theorem step_moved (hpos : 0 < start) (hstart : start ≤ base.length) (hend : base.length ≤ offset) :
    repairStep (movedAt base start moved offset)
      = (.inr (.done (base.take start ++ moved) true), [base.take start ++ moved]) := by
  have hleft : ¬ (0 : Int) < base.length - offset := by omega
  have hhole : 0 < start + moved.length := by omega
  simp only [repairStep, movedAt, movingAt, hleft, if_false, repairFinish, hhole, if_true,
    take_overlay_end hstart, RepairEnd.content]

end Steps

/-! ## Passes -/

variable {base content : List UInt8}

/-- The record that the walk accepts at `offset`. -/
def accept (base : List UInt8) (offset : Nat) : Option Nat :=
  if offset < base.length then validateRec base offset else none

/-- The walk of a pass comes to `offset`. -/
def Walks (base : List UInt8) : Nat → Prop := ReflTransGen (Goes (accept base)) logHeaderSize

def StopsAt (base : List UInt8) (bad : Nat) : Prop :=
  Walks base bad ∧ bad < base.length ∧ validateRec base bad = none

section Pass

variable {base : List UInt8} {bad offset next : Nat} {status : Bool}

theorem accept_eq_some_iff :
    accept base offset = some next ↔ offset < base.length ∧ validateRec base offset = some next := by
  rw [accept]
  split_ifs with h
  · simp [h]
  · simp [h]

theorem walks_pos (hsize : base.length < 2 ^ 62) (h : Walks base offset) : 0 < offset := by
  cases h with
  | refl => decide
  | tail _ hlast =>
    have := ((validateRec_eq_some_iff hsize).1 (accept_eq_some_iff.1 hlast).2).2.1
    simp only [sizeSize] at this
    omega

end Pass

/-! ## From pass to pass -/

/-- A pass that stops at `bad` and starts all over leaves the file like
this. -/
def RestartsAt (base : List UInt8) (bad : Nat) (base' : List UInt8) : Prop :=
  StopsAt base bad ∧ ∃ next, searchForNextGoodRecord base bad = some next
    ∧ (movedFrom base next).2 = .again ∧ base' = overlay base bad (movedFrom base next).1.flatten

def Restarts (base base' : List UInt8) : Prop := ∃ bad, RestartsAt base bad base'

/-- The file is `base` at the start of some pass over `content`. -/
def Reaches (content base : List UInt8) : Prop := ReflTransGen Restarts content base

section Restart

variable {base base' : List UInt8} {bad offset next : Nat}

theorem RestartsAt.length_eq (h : RestartsAt base bad base') : base'.length = base.length := by
  obtain ⟨⟨-, hlt, -⟩, next, hsearch, -, rfl⟩ := h
  obtain ⟨hle, hnext, -⟩ := search_spec hsearch
  have := movedFrom_inside hnext.le
  exact overlay_length (by omega)

variable {content : List UInt8}

theorem Reaches.length_eq (h : Reaches content base) : base.length = content.length := by
  induction h with
  | refl => rfl
  | tail _ hlast ih =>
    obtain ⟨bad, hbad⟩ := hlast
    rw [hbad.length_eq, ih]

end Restart

def strayLog : List UInt8 := freshLogHeader.toBytes ++ 0 :: (bareRecord 0).toBytes

end Evlog.Evlogmgr
