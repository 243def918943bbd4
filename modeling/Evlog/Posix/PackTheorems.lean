/-
Evlog.Posix.PackTheorems — when the packers stay in their buffer.

Every packer packs blocks and strings, one after the other (`Piece`). Up to
the first piece that does not fit all is well: the buffer has the pieces in
it, the last one cut, and the length is more than the limit
(`run_of_le`). From there on a block is left out. A string is not: what is
left of the buffer is negative then, and is compared as an unsigned number,
so that the whole string is stored behind the end.

What is stored past the limit can be said in terms of the sizes alone
(`silent_iff`), which gives the exact condition for a sequence of calls.
-/
import Evlog.Posix.Pack
import Evlog.Lib.Words

namespace Evlog.Posix

open Evlog.Lib

/-! ## Pieces -/

/-- A block of memory or a string. -/
inductive Piece where
  | block (o : Object)
  | string (s : CharPtr)

namespace Piece

def bytes : Piece → List UInt8
  | block o => o.bytes
  | string s => s.bytes

def size (p : Piece) : Nat := p.bytes.length

def isString : Piece → Bool
  | block _ => false
  | string _ => true

def exec (st : Packing) : Piece → Packing
  | block o => memcpyex st o
  | string s => packString st s

theorem size_lt (p : Piece) : p.size < 2 ^ 62 := by
  cases p with
  | block o => exact o.size_lt
  | string s => exact (List.length_append ..).trans_lt s.size_lt

end Piece

def PackOp.pieces : PackOp → List Piece
  | .memcpyex src => [.block src]
  | .packString s => [.string s]
  | .packWstring s => [.block s.object]
  | .copyArgs values => values.map .block

theorem PackOp.exec_eq (st : Packing) (op : PackOp) : op.exec st = op.pieces.foldl Piece.exec st := by
  cases op with
  | copyArgs values =>
    change values.foldl Posix.memcpyex st = (values.map Piece.block).foldl Piece.exec st
    rw [List.foldl_map]
    rfl
  | _ => rfl

def piecesOf (ops : List PackOp) : List Piece := ops.flatMap PackOp.pieces

theorem packAll_eq (ops : List PackOp) : packAll ops = (piecesOf ops).foldl Piece.exec .empty := by
  unfold packAll piecesOf
  generalize Packing.empty = st
  induction ops generalizing st with
  | nil => rfl
  | cons op ops ih => rw [List.foldl_cons, ih, List.flatMap_cons, List.foldl_append, op.exec_eq]

def serialise (ps : List Piece) : List UInt8 := ps.flatMap Piece.bytes

/-! ## What is meant -/

def endsInString (room : Nat) : List Piece → Bool
  | [] => false
  | p :: ps =>
    if p.size ≤ room then endsInString (room - p.size) ps else p.isString && decide (0 < room)

/-- The packing stays in its buffer, has as much of the serialisation in it
as the buffer holds, with a NUL at the end of a string that is cut, and the
length tells whether it is all of it. -/
structure Packs (ops : List PackOp) : Prop where
  inBuffer : (packAll ops).written.length ≤ posixLogEntryMaxlen
  whole : endsInString posixLogEntryMaxlen (piecesOf ops) = false →
    (packAll ops).written = (serialise (piecesOf ops)).take posixLogEntryMaxlen
  cut : endsInString posixLogEntryMaxlen (piecesOf ops) = true →
    (packAll ops).written = (serialise (piecesOf ops)).take (posixLogEntryMaxlen - 1) ++ [0]
  reclen : posixLogEntryMaxlen < (packAll ops).reclen.toNat ↔
    posixLogEntryMaxlen < (serialise (piecesOf ops)).length

/-! ## The condition -/

/-- No string is packed once the sizes of what was packed before it come to
more than the limit. -/
def Clean : Nat → List Piece → Prop
  | _, [] => True
  | total, p :: ps =>
    (posixLogEntryMaxlen < total → p.isString = false) ∧ Clean (total + p.size) ps

/-- The count behind a piece, as a word. A block is not counted where that
leaves the count past the limit. -/
def Piece.counted (c : Nat) (p : Piece) : Nat :=
  if p.isString = false ∧ posixLogEntryMaxlen < c ∧ posixLogEntryMaxlen < (c + p.size) % 2 ^ 64 then c
  else (c + p.size) % 2 ^ 64

/-- Nothing of the piece is stored past the limit: of a block, if the count
is past it, too, or at it; of a string, if the count is past it by a
multiple of 2^32. -/
def Piece.Silent (c : Nat) (p : Piece) : Prop :=
  if p.isString then c % 2 ^ 32 = posixLogEntryMaxlen
  else c = posixLogEntryMaxlen ∨ (posixLogEntryMaxlen < c ∧ posixLogEntryMaxlen < (c + p.size) % 2 ^ 64) ∨
    p.size = 0

/-- Once the sizes come to more than the limit, nothing more is stored, and
the count is past the limit in the end. -/
def Safe : Nat → Nat → List Piece → Prop
  | total, c, [] => posixLogEntryMaxlen < total → posixLogEntryMaxlen < c
  | total, c, p :: ps =>
    (posixLogEntryMaxlen < total → p.Silent c) ∧ Safe (total + p.size) (p.counted c) ps

/-! ## One piece -/

theorem toNat_maxlen : maxlen.toNat = posixLogEntryMaxlen := rfl

def Piece.stored (reclen : UInt64) : Piece → List UInt8
  | .block o =>
    if (reclen.toNat + o.bytes.length) % 2 ^ 64 ≤ posixLogEntryMaxlen then o.bytes
    else o.bytes.take (posixLogEntryMaxlen - reclen.toNat)
  | .string s =>
    if (bytesLeft reclen).toInt < 0 ∨ (s.bytes.length : Int) ≤ (bytesLeft reclen).toInt then s.bytes
    else if 0 < (bytesLeft reclen).toInt then
      s.bytes.take ((bytesLeft reclen).toInt - 1).toNat ++ [0]
    else []

theorem exec_block (st : Packing) (o : Object) :
    (memcpyex st o).written = st.written ++ (Piece.block o).stored st.reclen ∧
      (memcpyex st o).reclen.toNat = (Piece.block o).counted st.reclen.toNat := by
  have hlt := st.reclen.toNat_lt
  have hn := o.size_lt
  have hmax : posixLogEntryMaxlen = 8192 := rfl
  have hsize : (Piece.block o).size = o.bytes.length := rfl
  have hstr : (Piece.block o).isString = false := rfl
  have hnat : (UInt64.ofNat o.bytes.length).toNat = o.bytes.length :=
    UInt64.toNat_ofNat_of_lt' (hn.trans (by decide))
  have hsum : (st.reclen + UInt64.ofNat o.bytes.length).toNat
      = (st.reclen.toNat + o.bytes.length) % 2 ^ 64 := by
    rw [UInt64.toNat_add, hnat]
  have hover : maxlen < st.reclen + UInt64.ofNat o.bytes.length ↔
      posixLogEntryMaxlen < (st.reclen.toNat + o.bytes.length) % 2 ^ 64 := by
    rw [UInt64.lt_iff_toNat_lt, hsum, toNat_maxlen]
  have hroom : st.reclen ≤ maxlen ↔ st.reclen.toNat ≤ posixLogEntryMaxlen := by
    rw [UInt64.le_iff_toNat_le, toNat_maxlen]
  unfold memcpyex Piece.stored Piece.counted
  rw [hsize]
  dsimp only
  by_cases h1 : posixLogEntryMaxlen < (st.reclen.toNat + o.bytes.length) % 2 ^ 64
  · rw [if_pos (hover.2 h1), if_neg (Nat.not_le.2 h1)]
    by_cases h2 : st.reclen.toNat ≤ posixLogEntryMaxlen
    · rw [if_pos (hroom.2 h2), if_neg fun h => absurd h.2.1 (Nat.not_lt.2 h2),
        UInt64.toNat_sub_of_le _ _ (hroom.2 h2), toNat_maxlen]
      exact ⟨rfl, hsum⟩
    · rw [if_neg (mt hroom.1 h2), if_pos ⟨hstr, Nat.not_le.1 h2, h1⟩, Nat.sub_eq_zero_of_le (by omega),
        List.take_zero, List.append_nil]
      exact ⟨rfl, rfl⟩
  · rw [if_neg (mt hover.1 h1), if_pos (Nat.not_lt.1 h1), if_neg fun h => h1 h.2.2]
    exact ⟨rfl, hsum⟩

theorem toNat_bytesLeft (reclen : UInt64) : (maxlen - reclen).toUInt32.toNat
      = (2 ^ 64 - reclen.toNat + posixLogEntryMaxlen) % 2 ^ 64 % 2 ^ 32 := by
  rw [UInt64.toNat_toUInt32, UInt64.toNat_sub, toNat_maxlen]

/-- As long as the buffer is not more than full, it is what is left. -/
theorem bytesLeft_of_le {reclen : UInt64} (h : reclen.toNat ≤ posixLogEntryMaxlen) :
    (bytesLeft reclen).toInt = (posixLogEntryMaxlen - reclen.toNat : Nat) := by
  have hmax : posixLogEntryMaxlen = 8192 := rfl
  have hnat := toNat_bytesLeft reclen
  unfold bytesLeft
  rw [toInt_toInt32]
  split <;> omega

/-- Past the limit, it is nothing if and only if the excess is a multiple of
2^32. -/
theorem bytesLeft_eq_zero_iff (reclen : UInt64) :
    (bytesLeft reclen).toInt = 0 ↔ reclen.toNat % 2 ^ 32 = posixLogEntryMaxlen := by
  have hmax : posixLogEntryMaxlen = 8192 := rfl
  have hlt := reclen.toNat_lt
  have hnat := toNat_bytesLeft reclen
  unfold bytesLeft
  rw [toInt_toInt32]
  split <;> omega

theorem toNat_slen (s : CharPtr) :
    (UInt64.ofNat s.string.bytes.length + 1).toNat = s.bytes.length := by
  have hs := s.size_lt
  have hlen : s.bytes.length = s.string.bytes.length + 1 := List.length_append ..
  rw [UInt64.toNat_add, UInt64.toNat_ofNat_of_lt' (by rw [show UInt64.size = 2 ^ 64 from rfl]; omega),
    hlen]
  exact Nat.mod_eq_of_lt (by rw [UInt64.toNat_one]; omega)

/-- As a `size_t`, what is left is more than any string has if it is
negative. -/
theorem slen_le_iff (s : CharPtr) (left : Int32) :
    UInt64.ofNat s.string.bytes.length + 1 ≤ left.toInt64.toUInt64 ↔
      left.toInt < 0 ∨ (s.bytes.length : Int) ≤ left.toInt := by
  have hs : s.bytes.length < 2 ^ 62 := (List.length_append ..).trans_lt s.size_lt
  have hleft := toInt_toInt64 left.toInt64.toUInt64
  rw [Int64.toInt64_toUInt64, Int32.toInt_toInt64] at hleft
  have hlo := left.le_toInt
  have hhi := left.toInt_lt
  have hword := left.toInt64.toUInt64.toNat_lt
  rw [UInt64.le_iff_toNat_le, toNat_slen]
  split at hleft <;> omega

theorem exec_string (st : Packing) (s : CharPtr) :
    (packString st s).written = st.written ++ (Piece.string s).stored st.reclen ∧
      (packString st s).reclen.toNat = (Piece.string s).counted st.reclen.toNat := by
  have hreclen : (packString st s).reclen = st.reclen + (UInt64.ofNat s.string.bytes.length + 1) := by
    unfold packString
    dsimp only
    split
    · rfl
    · split <;> rfl
  constructor
  · have hpos : 0 < bytesLeft st.reclen ↔ 0 < (bytesLeft st.reclen).toInt := Int32.lt_iff_toInt_lt
    unfold packString Piece.stored
    simp only [slen_le_iff, hpos]
    split
    · rfl
    · split
      · rfl
      · exact (List.append_nil _).symm
  · rw [hreclen, UInt64.toNat_add, toNat_slen, Piece.counted, if_neg fun h => Bool.noConfusion h.1]
    rfl

theorem Piece.exec_eq (st : Packing) (p : Piece) :
    (p.exec st).written = st.written ++ p.stored st.reclen ∧
      (p.exec st).reclen.toNat = p.counted st.reclen.toNat := by
  cases p with
  | block o => exact exec_block st o
  | string s => exact exec_string st s

/-! ### Past the limit -/

theorem CharPtr.bytes_pos (s : CharPtr) : 0 < s.bytes.length :=
  List.length_pos_of_ne_nil (List.append_ne_nil_of_right_ne_nil _ (by simp))

theorem silent_iff (reclen : UInt64) (p : Piece) : p.stored reclen = [] ↔ p.Silent reclen.toNat := by
  have hlt := reclen.toNat_lt
  cases p with
  | block o =>
    have hn := o.size_lt
    have hmax : posixLogEntryMaxlen = 8192 := rfl
    have hsilent : (Piece.block o).Silent reclen.toNat ↔ reclen.toNat = posixLogEntryMaxlen ∨
        (posixLogEntryMaxlen < reclen.toNat ∧
          posixLogEntryMaxlen < (reclen.toNat + o.bytes.length) % 2 ^ 64) ∨ o.bytes.length = 0 := Iff.rfl
    rw [hsilent, Piece.stored]
    split
    · rw [← List.length_eq_zero_iff]
      omega
    · rw [← List.length_eq_zero_iff, List.length_take]
      omega
  | string s =>
    have hpos := s.bytes_pos
    have hsilent : (Piece.string s).Silent reclen.toNat ↔
        reclen.toNat % 2 ^ 32 = posixLogEntryMaxlen := Iff.rfl
    rw [hsilent, ← bytesLeft_eq_zero_iff, Piece.stored]
    split
    · rw [← List.length_eq_zero_iff]
      omega
    · split
      · simp only [List.append_eq_nil_iff, List.cons_ne_self, and_false, false_iff]
        omega
      · simp only [true_iff]
        omega

theorem written_mono (ps : List Piece) (st : Packing) :
    st.written <+: (ps.foldl Piece.exec st).written := by
  induction ps generalizing st with
  | nil => exact List.prefix_refl _
  | cons p ps ih => exact (((p.exec_eq st).1 ▸ List.prefix_append _ _)).trans (ih _)

/-- From a full buffer on, the condition is that nothing more is stored. -/
theorem run_past (ps : List Piece) (st : Packing) (total : Nat) (hpast : posixLogEntryMaxlen < total)
    (hfull : st.written.length = posixLogEntryMaxlen) :
    ((ps.foldl Piece.exec st).written.length ≤ posixLogEntryMaxlen ∧
        posixLogEntryMaxlen < (ps.foldl Piece.exec st).reclen.toNat ↔
      Safe total st.reclen.toNat ps) ∧
      (Safe total st.reclen.toNat ps → (ps.foldl Piece.exec st).written = st.written) := by
  induction ps generalizing st total with
  | nil =>
    refine ⟨⟨fun h _ => h.2, fun h => ⟨hfull.le, h hpast⟩⟩, fun _ => rfl⟩
  | cons p ps ih =>
    obtain ⟨hwritten, hreclen⟩ := p.exec_eq st
    rw [List.foldl_cons]
    by_cases hsilent : p.Silent st.reclen.toNat
    · rw [(silent_iff _ _).2 hsilent, List.append_nil] at hwritten
      have hrest := ih (p.exec st) (total + p.size) (by omega) (by rw [hwritten, hfull])
      rw [hreclen, hwritten] at hrest
      refine ⟨hrest.1.trans ⟨fun h => ⟨fun _ => hsilent, h⟩, fun h => h.2⟩, fun h => hrest.2 h.2⟩
    · have hne := mt (silent_iff _ _).1 hsilent
      have hlong : posixLogEntryMaxlen < (p.exec st).written.length := by
        have := List.length_pos_of_ne_nil hne
        rw [hwritten, List.length_append]
        omega
      have hmono := (written_mono ps (p.exec st)).length_le
      refine ⟨⟨fun h => ?_, fun h => absurd (h.1 hpast) hsilent⟩, fun h => absurd (h.1 hpast) hsilent⟩
      omega

/-! ### Up to the limit -/

theorem stored_of_le {reclen : UInt64} (h : reclen.toNat ≤ posixLogEntryMaxlen) (p : Piece) :
    p.stored reclen =
      if p.size ≤ posixLogEntryMaxlen - reclen.toNat then p.bytes
      else if p.isString ∧ reclen.toNat < posixLogEntryMaxlen then
        p.bytes.take (posixLogEntryMaxlen - reclen.toNat - 1) ++ [0]
      else p.bytes.take (posixLogEntryMaxlen - reclen.toNat) := by
  have hmax : posixLogEntryMaxlen = 8192 := rfl
  have hsize := p.size_lt
  cases p with
  | block o =>
    have hs : (Piece.block o).size = o.bytes.length := rfl
    rw [Piece.stored, hs]
    rw [hs] at hsize
    by_cases hroom : o.bytes.length ≤ posixLogEntryMaxlen - reclen.toNat
    · rw [if_pos (by omega), if_pos hroom]
      rfl
    · rw [if_neg (by omega), if_neg hroom, if_neg fun h => Bool.noConfusion h.1]
      rfl
  | string s =>
    have hs : (Piece.string s).size = s.bytes.length := rfl
    have hleft := bytesLeft_of_le h
    rw [Piece.stored, hs, hleft]
    by_cases hroom : s.bytes.length ≤ posixLogEntryMaxlen - reclen.toNat
    · rw [if_pos (by omega), if_pos hroom]
      rfl
    · rw [if_neg (by omega), if_neg hroom]
      by_cases hlt : reclen.toNat < posixLogEntryMaxlen
      · have hpred : (((posixLogEntryMaxlen - reclen.toNat : Nat) : Int) - 1).toNat
            = posixLogEntryMaxlen - reclen.toNat - 1 := by omega
        rw [if_pos (by omega), if_pos ⟨rfl, hlt⟩, hpred]
        rfl
      · rw [if_neg (by omega), if_neg fun h => hlt h.2, show posixLogEntryMaxlen - reclen.toNat = 0 by omega,
          List.take_zero]

variable {c total : Nat}

theorem counted_of_le (h : c ≤ posixLogEntryMaxlen) (p : Piece) : p.counted c = c + p.size := by
  have hmax : posixLogEntryMaxlen = 8192 := rfl
  have hsize := p.size_lt
  rw [Piece.counted, if_neg fun hc => absurd hc.2.1 (by omega), Nat.mod_eq_of_lt (by omega)]

/-- The sequence from a buffer that is not more than full, with what is
meant by then. -/
theorem run_of_le (ps : List Piece) (st : Packing) (hreclen : st.reclen.toNat = st.written.length)
    (hle : st.written.length ≤ posixLogEntryMaxlen) :
    ((ps.foldl Piece.exec st).written.length ≤ posixLogEntryMaxlen ∧
        (posixLogEntryMaxlen < (ps.foldl Piece.exec st).reclen.toNat ↔
          posixLogEntryMaxlen < (st.written ++ serialise ps).length) ↔
      Safe st.written.length st.written.length ps) ∧
      (Safe st.written.length st.written.length ps →
        (ps.foldl Piece.exec st).written =
          if endsInString (posixLogEntryMaxlen - st.written.length) ps then
            (st.written ++ serialise ps).take (posixLogEntryMaxlen - 1) ++ [0]
          else (st.written ++ serialise ps).take posixLogEntryMaxlen) := by
  induction ps generalizing st with
  | nil =>
    have hno : ¬ posixLogEntryMaxlen < st.written.length := Nat.not_lt.2 hle
    have htake : (st.written ++ serialise []).take posixLogEntryMaxlen = st.written := by
      rw [serialise, List.flatMap_nil, List.append_nil, List.take_of_length_le hle]
    refine ⟨⟨fun _ h => absurd h hno, fun _ => ⟨hle, ?_⟩⟩, fun _ => htake.symm⟩
    rw [serialise, List.flatMap_nil, List.append_nil, List.foldl_nil, hreclen]
  | cons p ps ih =>
    obtain ⟨hwritten, hcount⟩ := p.exec_eq st
    rw [hreclen, counted_of_le hle] at hcount
    rw [stored_of_le (hreclen ▸ hle), hreclen] at hwritten
    have hserial : st.written ++ serialise (p :: ps) = st.written ++ p.bytes ++ serialise ps := by
      rw [serialise, List.flatMap_cons, List.append_assoc]
      rfl
    have hsafe : Safe st.written.length st.written.length (p :: ps) ↔
        Safe (st.written.length + p.size) (st.written.length + p.size) ps := by
      rw [Safe, counted_of_le hle]
      exact ⟨fun h => h.2, fun h => ⟨fun hgt => absurd hgt (Nat.not_lt.2 hle), h⟩⟩
    rw [List.foldl_cons, hsafe, hserial, endsInString]
    by_cases hroom : p.size ≤ posixLogEntryMaxlen - st.written.length
    · rw [if_pos hroom] at hwritten
      have hlen : (p.exec st).written.length = st.written.length + p.size := by
        rw [hwritten, List.length_append]
        rfl
      have hrest := ih (p.exec st) (by rw [hcount, hlen]) (by omega)
      rw [hlen, hwritten, Nat.sub_add_eq] at hrest
      rw [if_pos hroom]
      exact hrest
    · rw [if_neg hroom] at hwritten ⊢
      have hfull : (p.exec st).written.length = posixLogEntryMaxlen := by
        have hsize : p.bytes.length = p.size := rfl
        rw [hwritten]
        split
        · next hcut => rw [List.length_append, List.length_append, List.length_take, List.length_singleton]; omega
        · rw [List.length_append, List.length_take]; omega
      have hpast := run_past ps (p.exec st) (st.written.length + p.size) (by omega) hfull
      rw [hcount] at hpast
      have hlong : posixLogEntryMaxlen < (st.written ++ p.bytes ++ serialise ps).length := by
        have hsize : p.bytes.length = p.size := rfl
        rw [List.length_append, List.length_append]
        omega
      refine ⟨?_, fun h => ?_⟩
      · rw [← hpast.1, iff_true_right hlong]
      · have htake : ∀ n, st.written.length ≤ n → n ≤ posixLogEntryMaxlen →
            (st.written ++ p.bytes ++ serialise ps).take n
              = st.written ++ p.bytes.take (n - st.written.length) := by
          intro n hn hmax
          have hsize : p.bytes.length = p.size := rfl
          rw [List.append_assoc, List.take_append, List.take_of_length_le hn,
            List.take_append_of_le_length (by omega)]
        rw [hpast.2 h, hwritten]
        by_cases hcut : p.isString = true ∧ st.written.length < posixLogEntryMaxlen
        · rw [if_pos hcut, if_pos (by
              rw [hcut.1, decide_eq_true (show 0 < posixLogEntryMaxlen - st.written.length by omega)]
              rfl),
            htake _ (by omega) (by omega), List.append_assoc, Nat.sub_right_comm]
        · have hand : (p.isString && decide (0 < posixLogEntryMaxlen - st.written.length)) ≠ true := by
            rw [Ne, Bool.and_eq_true, decide_eq_true_eq]
            exact fun h => hcut ⟨h.1, by omega⟩
          rw [if_neg hcut, if_neg hand, htake _ hle le_rfl]

/-! ## The condition is exact -/

theorem clean_safe (ps : List Piece) (hpast : posixLogEntryMaxlen < total)
    (hc : posixLogEntryMaxlen < c) (hlt : c + 2 ^ 62 ≤ 2 ^ 64) (h : Clean total ps) :
    Safe total c ps := by
  induction ps generalizing total with
  | nil => exact fun _ => hc
  | cons p ps ih =>
    obtain ⟨hblock, hrest⟩ := h
    have hstr := hblock hpast
    have hsize := p.size_lt
    have hcount : p.counted c = c := by
      rw [Piece.counted, if_pos ⟨hstr, hc, by omega⟩]
    refine ⟨fun _ => ?_, ?_⟩
    · rw [Piece.Silent, if_neg (by rw [hstr]; exact Bool.false_ne_true)]
      exact .inr (.inl ⟨hc, by omega⟩)
    · rw [hcount]
      exact ih (by omega) hrest

theorem safe_of_clean (ps : List Piece) (hle : total ≤ posixLogEntryMaxlen) (h : Clean total ps) :
    Safe total total ps := by
  have hmax : posixLogEntryMaxlen = 8192 := rfl
  induction ps generalizing total with
  | nil => exact fun hgt => absurd hgt (Nat.not_lt.2 hle)
  | cons p ps ih =>
    have hsize := p.size_lt
    refine ⟨fun hgt => absurd hgt (Nat.not_lt.2 hle), ?_⟩
    rw [counted_of_le hle]
    by_cases hroom : total + p.size ≤ posixLogEntryMaxlen
    · exact ih hroom h.2
    · exact clean_safe ps (by omega) (by omega) (by omega) h.2

/-- Short of 4 GiB, the condition holds only with no string past the limit. -/
theorem clean_of_safe (ps : List Piece) (hc : posixLogEntryMaxlen < total → posixLogEntryMaxlen < c)
    (hct : c ≤ total) (hle : total ≤ posixLogEntryMaxlen → c = total)
    (hsum : total + (serialise ps).length ≤ 2 ^ 32) (h : Safe total c ps) : Clean total ps := by
  have hmax : posixLogEntryMaxlen = 8192 := rfl
  induction ps generalizing total c with
  | nil => trivial
  | cons p ps ih =>
    have hlen : (serialise (p :: ps)).length = p.size + (serialise ps).length := by
      rw [serialise, List.flatMap_cons, List.length_append]
      rfl
    have hstr : posixLogEntryMaxlen < total → p.isString = false := by
      intro hgt
      by_contra hs
      have hsilent := h.1 hgt
      rw [Bool.not_eq_false] at hs
      rw [Piece.Silent, if_pos hs] at hsilent
      have hcgt := hc hgt
      have hpos : 0 < p.size := by
        cases p with
        | block o => cases hs
        | string s => exact s.bytes_pos
      omega
    refine ⟨hstr, ih ?_ ?_ ?_ (by omega) h.2⟩
    · intro hgt
      rw [Piece.counted]
      split
      · next hcount => exact hcount.2.1
      · next hcount =>
        by_cases hgt' : posixLogEntryMaxlen < total
        · have hcgt := hc hgt'
          have hs := hstr hgt'
          by_contra hno
          exact hcount ⟨hs, hcgt, by omega⟩
        · have heq := hle (by omega)
          omega
    · rw [Piece.counted]
      split <;> omega
    · intro hle'
      rw [hle (by omega), counted_of_le (by omega)]

theorem packs_iff_safe (ops : List PackOp) : Packs ops ↔ Safe 0 0 (piecesOf ops) := by
  have hrun := run_of_le (piecesOf ops) .empty rfl (Nat.zero_le _)
  rw [← packAll_eq] at hrun
  simp only [Packing.empty, List.length_nil, List.nil_append, Nat.sub_zero] at hrun
  obtain ⟨hiff, hwritten⟩ := hrun
  constructor
  · intro h
    exact hiff.1 ⟨h.inBuffer, h.reclen⟩
  · intro h
    obtain ⟨hin, hlen⟩ := hiff.2 h
    refine ⟨hin, fun hend => ?_, fun hend => ?_, hlen⟩
    · exact (hwritten h).trans (if_neg (by rw [hend]; exact Bool.false_ne_true))
    · exact (hwritten h).trans (if_pos hend)

/-- The packing is right if and only if no string is packed once the sizes
come to more than the limit, or nothing of it happens to be stored. Short of
4 GiB there is no such chance. -/
theorem packs_iff (ops : List PackOp) :
    (Packs ops ↔ Safe 0 0 (piecesOf ops)) ∧ (Clean 0 (piecesOf ops) → Packs ops) ∧
      ((serialise (piecesOf ops)).length ≤ 2 ^ 32 → (Packs ops ↔ Clean 0 (piecesOf ops))) := by
  have hexact := packs_iff_safe ops
  have hclean : Clean 0 (piecesOf ops) → Packs ops :=
    fun h => hexact.2 (safe_of_clean _ (Nat.zero_le _) h)
  refine ⟨hexact, hclean, fun hsum => ⟨fun h => ?_, hclean⟩⟩
  exact clean_of_safe _ (by omega) le_rfl (fun _ => rfl) (by omega) (hexact.1 h)

/-- A string behind one that does not fit is stored behind the end of the
buffer. -/
theorem packString_overflows {s t : CharPtr} (hs : posixLogEntryMaxlen < s.bytes.length)
    (hsum : s.bytes.length ≤ 2 ^ 32) :
    posixLogEntryMaxlen < (packAll [.packString s, .packString t]).written.length := by
  have hmax : posixLogEntryMaxlen = 8192 := rfl
  have hempty : Packing.empty.reclen.toNat ≤ posixLogEntryMaxlen := Nat.zero_le _
  have hsize : (Piece.string s).size = s.bytes.length := rfl
  have hbytes : (Piece.string s).bytes = s.bytes := rfl
  have hzero : Packing.empty.reclen.toNat = 0 := rfl
  obtain ⟨hwritten, hcount⟩ := (Piece.string s).exec_eq .empty
  rw [stored_of_le hempty, hzero, Nat.sub_zero, if_neg (by omega), if_pos ⟨rfl, by omega⟩] at hwritten
  rw [counted_of_le hempty, hzero, hsize, Nat.zero_add] at hcount
  have hfull : ((Piece.string s).exec .empty).written.length = posixLogEntryMaxlen := by
    rw [hwritten, List.length_append, List.length_append, List.length_take, hbytes, List.length_singleton]
    change 0 + (min (posixLogEntryMaxlen - 1) s.bytes.length + 1) = posixLogEntryMaxlen
    omega
  have hstored : (Piece.string t).stored ((Piece.string s).exec .empty).reclen ≠ [] := by
    rw [Ne, silent_iff, hcount]
    change ¬ s.bytes.length % 2 ^ 32 = posixLogEntryMaxlen
    omega
  have hpos := List.length_pos_of_ne_nil hstored
  change posixLogEntryMaxlen < ((Piece.string t).exec ((Piece.string s).exec .empty)).written.length
  rw [((Piece.string t).exec_eq _).1, List.length_append, hfull]
  omega

/-- So many letters `a`. -/
def letters (n : Nat) (h : n + 1 < 2 ^ 62) : CharPtr where
  string := ⟨List.replicate n 97, fun h => absurd (List.eq_of_mem_replicate h) (by decide)⟩
  size_lt := by rwa [List.length_replicate]

theorem letters_length (n : Nat) (h : n + 1 < 2 ^ 62) : (letters n h).bytes.length = n + 1 := by
  rw [CharPtr.bytes, List.length_append, letters, List.length_replicate, List.length_singleton]

/-- A string of 9000 bytes and one of 3 do not stay in the buffer. -/
theorem twoStrings_overflow :
    ¬ Packs [.packString (letters 9000 (by decide)), .packString (letters 3 (by decide))] := by
  intro h
  have hover := packString_overflows (s := letters 9000 (by decide)) (t := letters 3 (by decide))
    (by rw [letters_length]; decide) (by rw [letters_length]; decide)
  exact absurd h.inBuffer (Nat.not_le.2 hover)

end Evlog.Posix
