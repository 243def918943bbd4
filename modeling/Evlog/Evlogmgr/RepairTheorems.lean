/-
Evlog.Evlogmgr.RepairTheorems — what log repair accepts and moves.

A stretch of bytes is a `GoodRecord` when it has the record magic, the
length its header announces, and that length once more at its end. Where
`validateRec` steps over a whole header, a good record lies
(`validateRec_inv`). What it accepts beyond that are headers whose
`log_size` wraps around, with a size behind them that is negative or
smaller than a header.

`movedFrom` are the records that the inner loop moves up from where the
search has found something, and how it ends.
-/
import Evlog.Evlogmgr.Repair

namespace Evlog.Evlogmgr

open Evlog.Lib Evlog.Posix

/-! ## Good records -/

/-- An entry is read from the first `REC_HDR_SIZE` bytes. -/
theorem ofBytes_take (bs : List UInt8) :
    PosixLogEntry.ofBytes (bs.take recHdrSize) = PosixLogEntry.ofBytes bs := by
  have hfield : ∀ k w, k + w ≤ recHdrSize → ((bs.take recHdrSize).drop k).take w
      = (bs.drop k).take w := by
    intro k w hkw
    rw [List.drop_take, List.take_take, Nat.min_eq_left (by omega)]
  have hfirst := hfield 0 4 (by decide)
  simp only [List.drop_zero] at hfirst
  simp only [PosixLogEntry.ofBytes, takeLE, List.drop_drop, hfirst]
  rw [hfield 4 4 (by decide), hfield 8 8 (by decide), hfield 16 4 (by decide),
    hfield 20 4 (by decide), hfield 24 4 (by decide), hfield 28 4 (by decide),
    hfield 32 4 (by decide), hfield 36 4 (by decide), hfield 40 4 (by decide),
    hfield 44 4 (by decide), hfield 48 8 (by decide), hfield 56 8 (by decide),
    hfield 64 4 (by decide), hfield 72 8 (by decide), hfield 80 4 (by decide)]

/-- `log_magic` and `log_size` of the header at `offset`. -/
def headMagic (content : List UInt8) (offset : Nat) : UInt32 :=
  UInt32.ofNat (leNat (readAt content offset 4))

def headSize (content : List UInt8) (offset : Nat) : UInt64 :=
  UInt64.ofNat (leNat (readAt content (offset + logSizeOffset) 8))

theorem ofBytes_head (content : List UInt8) (offset : Nat) :
    (PosixLogEntry.ofBytes (readAt content offset recHdrSize)).logMagic = headMagic content offset
      ∧ (PosixLogEntry.ofBytes (readAt content offset recHdrSize)).logSize
        = headSize content offset := by
  rw [readAt, ofBytes_take]
  refine ⟨rfl, ?_⟩
  simp only [PosixLogEntry.ofBytes, takeLE, List.drop_drop, headSize, readAt, logSizeOffset]

variable {content bs : List UInt8} {pos n offset next : Nat}

theorem readAt_length_eq_iff (hn : 0 < n) :
    (readAt content pos n).length = n ↔ pos + n ≤ content.length := by
  rw [readAt, List.length_take, List.length_drop]
  omega

/-- The size behind a record is an `int`. -/
theorem leInt_range (h : pos + sizeSize ≤ content.length) :
    -2 ^ 31 ≤ leInt (readAt content pos sizeSize)
      ∧ leInt (readAt content pos sizeSize) < 2 ^ 31 := by
  rw [leInt, (readAt_length_eq_iff (by decide)).2 h, sizeSize]
  generalize leNat (readAt content pos 4) = x
  have h₁ := Int.le_bmod (x := (x : Int)) (m := 256 ^ 4) (by decide)
  have h₂ := Int.bmod_lt (x := (x : Int)) (m := 256 ^ 4) (by decide)
  norm_num at h₁ h₂ ⊢
  omega

theorem sizeFieldPos_of_match (offset : Nat) {logSize : UInt64} {recsize : Int}
    (h : sizeMatches logSize recsize = true) (hmin : -2 ^ 63 ≤ offset + recsize)
    (hmax : offset + recsize < 2 ^ 63) :
    sizeFieldPos offset logSize
      = if 0 ≤ offset + recsize then some (offset + recsize).toNat else none := by
  rw [sizeMatches, beq_iff_eq] at h
  unfold sizeFieldPos
  have hbmod : Int.bmod ((offset + logSize.toNat + recHdrSize : Nat) : Int) (2 ^ 64)
      = offset + recsize := by
    have hcongr : ((offset + logSize.toNat + recHdrSize : Nat) : Int) % 2 ^ 64
        = (offset + recsize) % 2 ^ 64 := by
      push_cast at h ⊢
      rw [Int.add_assoc, Int.add_emod, h, ← Int.add_emod]
    have hpow : ((2 ^ 64 : Nat) : Int) = 2 ^ 64 := by norm_num
    rw [← Int.emod_bmod, hpow, hcongr, ← hpow, Int.emod_bmod]
    apply Int.bmod_eq_of_le
    · norm_num at hmin ⊢
      omega
    · norm_num at hmax ⊢
      omega
  simp only [hbmod]

/-- What `validateRec` accepts: a header with the magic, and the size that
the header announces right before the place it returns. -/
theorem validateRec_eq_some_iff (hsize : content.length < 2 ^ 62) :
    validateRec content offset = some next ↔
      offset + recHdrSize ≤ content.length ∧ sizeSize ≤ next ∧ next ≤ content.length
        ∧ headMagic content offset &&& 0xffff0000 = logrecMagicHiword
        ∧ leInt (readAt content (next - sizeSize) sizeSize) = (next : Int) - sizeSize - offset
        ∧ sizeMatches (headSize content offset) ((next : Int) - sizeSize - offset) = true := by
  obtain ⟨hmagic, hlogSize⟩ := ofBytes_head content offset
  simp only [validateRec, hmagic, hlogSize]
  constructor
  · intro h
    split_ifs at h with hhdr
    rw [not_not, readAt_length_eq_iff (by decide)] at hhdr
    split at h
    · cases h
    · rename_i pos hpos
      split_ifs at h with hfour hok
      rw [not_not, readAt_length_eq_iff (by decide)] at hfour
      obtain ⟨hmagic', hmatch⟩ := hok
      obtain ⟨hmin, hmax⟩ := leInt_range hfour
      -- the size was read at `pos`, so that is where it says it is
      have hwhere := sizeFieldPos_of_match offset hmatch (by omega) (by omega)
      rw [hpos] at hwhere
      split_ifs at hwhere with hneg
      have hpos' : (pos : Int) = offset + leInt (readAt content pos sizeSize) := by
        have := Option.some.inj hwhere
        omega
      have hnext : next = pos + sizeSize := by
        have := Option.some.inj h
        omega
      subst hnext
      have hrecsize : ((pos + sizeSize : Nat) : Int) - sizeSize - offset
          = leInt (readAt content pos sizeSize) := by
        push_cast
        omega
      refine ⟨hhdr, by omega, hfour, hmagic', ?_, ?_⟩
      · rw [hrecsize, Nat.add_sub_cancel]
      · rw [hrecsize, hmatch]
  · rintro ⟨hhdr, hmin, hmax, hmagic', hrecsize, hmatch⟩
    have hrange := leInt_range (show next - sizeSize + sizeSize ≤ content.length by omega)
    rw [hrecsize] at hrange
    have hwhere := sizeFieldPos_of_match offset hmatch (by omega) (by omega)
    rw [if_pos (by omega), show (offset + ((next : Int) - sizeSize - offset)).toNat
      = next - sizeSize by omega] at hwhere
    rw [if_neg (by rw [not_not, readAt_length_eq_iff (by decide)]; exact hhdr), hwhere]
    simp only [hrecsize, hmatch, hmagic', and_self, if_true]
    rw [if_neg (by rw [not_not, readAt_length_eq_iff (by decide)]; omega)]
    have hnum : ((offset : Int) + ((next : Int) - sizeSize - offset) + sizeSize).toNat = next := by
      omega
    rw [hnum]

/-! ## Good records -/

/-- The bytes of a record that is as it should be. -/
structure GoodRecord (bs : List UInt8) : Prop where
  length_eq : bs.length = recHdrSize + (headSize bs 0).toNat + sizeSize
  magic : headMagic bs 0 &&& 0xffff0000 = logrecMagicHiword
  size_eq : leInt (readAt bs (bs.length - sizeSize) sizeSize) = (bs.length : Int) - sizeSize

section Good

variable {content bs : List UInt8} {offset next : Nat}

/-- A good record has at least a header and a size, and its length is an
`int`. -/
theorem GoodRecord.length_bounds (h : GoodRecord bs) :
    recHdrSize + sizeSize ≤ bs.length ∧ bs.length < 2 ^ 31 + 4 := by
  have hlen := h.length_eq
  have hrange := leInt_range (show bs.length - sizeSize + sizeSize ≤ bs.length by omega)
  rw [h.size_eq, sizeSize] at hrange
  omega

theorem readAt_prefix (h : bs <+: content.drop offset) {k n : Nat} (hkn : k + n ≤ bs.length) :
    readAt content (offset + k) n = readAt bs k n := by
  obtain ⟨rest, hrest⟩ := h
  rw [readAt, ← List.drop_drop, ← hrest, List.drop_append_of_le_length (by omega),
    List.take_append_of_le_length (by rw [List.length_drop]; omega), readAt]

theorem head_prefix (h : bs <+: content.drop offset) (hlen : recHdrSize ≤ bs.length) :
    headMagic content offset = headMagic bs 0 ∧ headSize content offset = headSize bs 0 := by
  simp only [recHdrSize] at hlen
  constructor
  · rw [headMagic, headMagic, ← readAt_prefix h (k := 0) (by omega), Nat.add_zero]
  · rw [headSize, headSize, ← readAt_prefix h (by simp only [logSizeOffset]; omega), Nat.zero_add]

/-- A trailing size that is not below that of a header matches a
`log_size` without wrapping around. -/
theorem eq_of_sizeMatches {logSize : UInt64} {recsize : Int} (hmax : recsize < 2 ^ 31)
    (hproper : recHdrSize ≤ recsize) (h : sizeMatches logSize recsize = true) :
    (logSize.toNat : Int) + recHdrSize = recsize := by
  have hlt := logSize.toNat_lt
  rw [sizeMatches, beq_iff_eq] at h
  simp only [recHdrSize] at *
  norm_num at *
  omega

/-- Nor does a `log_size` in range wrap around. -/
theorem eq_of_sizeMatches_small {logSize : UInt64} {recsize : Int}
    (hrange : logSize.toNat ≤ posixLogEntryMaxlen) (hmin : -2 ^ 31 ≤ recsize)
    (hmax : recsize < 2 ^ 31) (h : sizeMatches logSize recsize = true) :
    (logSize.toNat : Int) + recHdrSize = recsize := by
  rw [sizeMatches, beq_iff_eq] at h
  simp only [recHdrSize, posixLogEntryMaxlen] at *
  norm_num at *
  omega

/-- Where `validateRec` steps over a whole header, a good record lies. -/
theorem validateRec_inv (hsize : content.length < 2 ^ 62)
    (h : validateRec content offset = some next) (hproper : offset + recHdrSize + sizeSize ≤ next) :
    ∃ bs, GoodRecord bs ∧ bs <+: content.drop offset ∧ next = offset + bs.length := by
  rw [validateRec_eq_some_iff hsize] at h
  obtain ⟨hhdr, hmin, hmax, hmagic, hrecsize, hmatch⟩ := h
  have hrange := leInt_range (show next - sizeSize + sizeSize ≤ content.length by omega)
  have hlogSize := eq_of_sizeMatches (hrecsize ▸ hrange.2) (by omega) hmatch
  have hlen : (readAt content offset (next - offset)).length = next - offset :=
    (readAt_length_eq_iff (by simp only [recHdrSize] at hproper; omega)).2 (by omega)
  have hpre : readAt content offset (next - offset) <+: content.drop offset := List.take_prefix _ _
  obtain ⟨hmagic₀, hlogSize₀⟩ := head_prefix hpre (by omega)
  refine ⟨_, ⟨?_, ?_, ?_⟩, hpre, by omega⟩
  · rw [hlen, ← hlogSize₀]
    omega
  · rw [← hmagic₀, hmagic]
  · rw [← readAt_prefix hpre (by omega), hlen,
      show offset + (next - offset - sizeSize) = next - sizeSize by omega, hrecsize]
    omega

end Good

/-! ## The search -/

theorem searchFrom_spec (h : searchFrom content n offset = some next) :
    offset ≤ next ∧ next < offset + n ∧ probe content next = .found := by
  induction n generalizing offset with
  | zero => simp [searchFrom] at h
  | succ n ih =>
    rw [searchFrom] at h
    split at h
    · cases h
    · rename_i hfound
      obtain rfl := Option.some.inj h
      exact ⟨le_rfl, by omega, hfound⟩
    · obtain ⟨hle, hlt, hfound⟩ := ih h
      exact ⟨by omega, by omega, hfound⟩

/-- What the search finds lies from `offset` on, inside the file. -/
theorem search_spec (h : searchForNextGoodRecord content offset = some next) :
    offset ≤ next ∧ next < content.length ∧ probe content next = .found := by
  obtain ⟨hle, hlt, hfound⟩ := searchFrom_spec h
  exact ⟨hle, by omega, hfound⟩

/-- What was checked where the search has found something. -/
theorem probe_found (h : probe content offset = .found) :
    headMagic content offset &&& 0xffff0000 = logrecMagicHiword
      ∧ ∃ pos, (sizeFieldPos offset (headSize content offset)).getD (offset + logSizeOffset + 8) = pos
        ∧ offset + logSizeOffset + 8 ≤ content.length ∧ pos + sizeSize ≤ content.length
        ∧ sizeMatches (headSize content offset) (leInt (readAt content pos sizeSize)) = true := by
  simp only [probe] at h
  split_ifs at h with h₁ hmagic h₂ hfour hmatch
  rw [not_not, readAt_length_eq_iff (by decide)] at h₂ hfour
  exact ⟨hmagic, _, rfl, h₂, hfour, hmatch⟩

/-- What the search finds is a good record, if its size is in range. -/
theorem good_of_found (hsize : content.length < 2 ^ 62) (h : probe content offset = .found)
    (hrange : (headSize content offset).toNat ≤ posixLogEntryMaxlen) :
    ∃ bs, GoodRecord bs ∧ bs <+: content.drop offset
      ∧ bs.length = recHdrSize + (headSize content offset).toNat + sizeSize := by
  obtain ⟨hmagic, pos, hpos, hin, hend, hmatch⟩ := probe_found h
  obtain ⟨hmin, hmax⟩ := leInt_range hend
  have hrecsize := eq_of_sizeMatches_small hrange hmin hmax hmatch
  generalize hlogSize : headSize content offset = logSize at *
  simp only [posixLogEntryMaxlen] at hrange
  have hat : pos = offset + recHdrSize + logSize.toNat := by
    simp only [recHdrSize] at hrecsize ⊢
    rw [sizeFieldPos_of_match offset hmatch (by omega) (by omega), if_pos (by omega),
      Option.getD_some] at hpos
    omega
  have haccept : validateRec content offset = some (pos + sizeSize) := by
    have hnum : ((pos + sizeSize : Nat) : Int) - sizeSize - offset
        = leInt (readAt content pos sizeSize) := by
      push_cast
      omega
    rw [validateRec_eq_some_iff hsize, hlogSize, Nat.add_sub_cancel, hnum]
    exact ⟨by omega, by omega, hend, hmagic, rfl, hmatch⟩
  obtain ⟨bs, hgood, hpre, hlen⟩ := validateRec_inv hsize haccept (by omega)
  exact ⟨bs, hgood, hpre, by omega⟩

/-! ## Moving records up -/

/-- The record that can be moved from `offset`: it has the magic, a size in
range, and lies inside the file. -/
def movable (content : List UInt8) (offset : Nat) : Option (List UInt8) :=
  let len := recHdrSize + (headSize content offset).toNat + sizeSize
  if headMagic content offset &&& 0xffff0000 = logrecMagicHiword
      ∧ (headSize content offset).toNat ≤ posixLogEntryMaxlen ∧ offset + len ≤ content.length then
    some (readAt content offset len)
  else none

/-- Why no further record is moved. -/
inductive MoveEnd where
  /-- The end of the file. -/
  | finished
  /-- Less than a header is left. -/
  | eio
  /-- A record that can not be moved. -/
  | again
  deriving DecidableEq, Repr

theorem movable_spec (h : movable content offset = some bs) :
    headMagic content offset &&& 0xffff0000 = logrecMagicHiword
      ∧ (headSize content offset).toNat ≤ posixLogEntryMaxlen
      ∧ bs = readAt content offset (recHdrSize + (headSize content offset).toNat + sizeSize)
      ∧ bs.length = recHdrSize + (headSize content offset).toNat + sizeSize
      ∧ offset + bs.length ≤ content.length := by
  rw [movable] at h
  split_ifs at h with hok
  obtain ⟨hmagic, hrange, hin⟩ := hok
  obtain rfl := Option.some.inj h
  have hlen := (readAt_length_eq_iff (by simp only [recHdrSize]; omega)).2 hin
  exact ⟨hmagic, hrange, rfl, hlen, by omega⟩

theorem movable_length (h : movable content offset = some bs) :
    recHdrSize + sizeSize ≤ bs.length ∧ offset + bs.length ≤ content.length := by
  obtain ⟨-, -, -, hlen, hin⟩ := movable_spec h
  exact ⟨by omega, hin⟩

/-- The records the inner loop moves from `offset` on, in the file as it
was when the loop started. -/
def movedFrom (content : List UInt8) (offset : Nat) : List (List UInt8) × MoveEnd :=
  if offset < content.length then
    if content.length < offset + recHdrSize then ([], .eio)
    else
      match _h : movable content offset with
      | none => ([], .again)
      | some bs =>
        let rest := movedFrom content (offset + bs.length)
        (bs :: rest.1, rest.2)
  else ([], .finished)
termination_by content.length - offset
decreasing_by
  have := (movable_length _h).1
  simp only [recHdrSize] at this
  omega

section Moved

variable {content bs : List UInt8} {offset : Nat}

theorem movedFrom_end (h : content.length ≤ offset) :
    movedFrom content offset = ([], .finished) := by
  rw [movedFrom, if_neg (by omega)]

theorem movedFrom_short (hlt : offset < content.length)
    (h : content.length < offset + recHdrSize) : movedFrom content offset = ([], .eio) := by
  rw [movedFrom, if_pos hlt, if_pos h]

theorem movedFrom_stuck (hhdr : offset + recHdrSize ≤ content.length)
    (h : movable content offset = none) : movedFrom content offset = ([], .again) := by
  simp only [recHdrSize] at hhdr
  rw [movedFrom, if_pos (by omega), if_neg (by simp only [recHdrSize]; omega)]
  split
  · rfl
  · simp_all

theorem movedFrom_cons (h : movable content offset = some bs) :
    movedFrom content offset = (bs :: (movedFrom content (offset + bs.length)).1,
      (movedFrom content (offset + bs.length)).2) := by
  have hlen := movable_length h
  simp only [recHdrSize] at hlen
  rw [movedFrom, if_pos (by omega), if_neg (by simp only [recHdrSize]; omega)]
  split
  · simp_all
  · rename_i bs' h'
    obtain rfl := Option.some.inj (h.symm.trans h')
    rfl

theorem movedFrom_inside (h : offset ≤ content.length) :
    offset + (movedFrom content offset).1.flatten.length ≤ content.length := by
  induction offset using movedFrom.induct content with
  | case1 offset hlt hshort =>
    rw [movedFrom_short hlt hshort]
    simpa using h
  | case2 offset hlt hshort hmov =>
    rw [movedFrom_stuck (by omega) hmov]
    simpa using h
  | case3 offset hlt hshort bs hmov ih =>
    have := ih (movable_length hmov).2
    rw [movedFrom_cons hmov]
    simp only [List.flatten_cons, List.length_append]
    omega
  | case4 offset hend =>
    rw [movedFrom_end (by omega)]
    simpa using h

end Moved

end Evlog.Evlogmgr
