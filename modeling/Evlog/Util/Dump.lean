/-
Evlog.Util.Dump — the hex dump of a block of bytes, and how to read it.

`_evlDumpBytes` writes the dump of a block to a buffer, or says how large
the buffer should have been. Every line has its columns: eight for the
offset of its first byte, three for each of sixteen bytes with a blank in
the middle, and the characters. The text itself is `dumpText`, which
format buffers are filled with too.

A reader that knows the columns gets the block back (`decodeDump`), and
the length that is asked for does not depend on the buffer. That is for a
block that is not empty, which is refused, and as long as the length is an
`int`: the number of lines is one, and so is the number of bytes that is
made of it.
-/
import Evlog.Lib.Rows
import Evlog.Util.FmtBufTheorems

namespace Evlog.Util

open Evlog.Lib

/-! ## Reading a dump -/

/-- A byte that is written as two digits, and no byte where there are
blanks. -/
def readCell : List UInt8 → Option UInt8
  | d :: e :: _ => if d = 32 then none else some (.ofNat (CString.rowValue 16 [d, e]))
  | _ => none

def byteColumn (i : Nat) : Nat := 9 + 3 * i + if i < 8 then 0 else 1

def lineBytes (line : List UInt8) : List UInt8 :=
  (List.range 16).filterMap fun i => readCell (line.drop (byteColumn i))

def lineAddress (line : List UInt8) : Nat := CString.rowValue 16 (line.take 8)

/-- The lines of a dump. Each takes 78 columns with what ends it. -/
def dumpedLines (text : List UInt8) : List (List UInt8) :=
  (List.range ((text.length + 1) / 78)).map fun i => (row 78 i text).take 77

def decodeDump (text : List UInt8) : List UInt8 := (dumpedLines text).flatMap lineBytes

/-! ## The columns of a line -/

variable {n i : Nat}

theorem digitValue_hexDigit (h : n < 16) : CString.digitValue (hexDigit n) = n := by
  interval_cases n <;> decide

theorem hexDigit_ne_blank (h : n < 16) : hexDigit n ≠ 32 := by
  interval_cases n <;> decide

theorem readCell_byteCell (c : Option UInt8) (rest : List UInt8) :
    readCell (byteCell c ++ rest) = c := by
  cases c with
  | none => rfl
  | some b =>
    have hb := b.toNat_lt
    have hhigh : b.toNat / 16 < 16 := by omega
    have hlow : b.toNat % 16 < 16 := Nat.mod_lt _ (by decide)
    have hvalue : CString.rowValue 16 [hexDigit (b.toNat / 16), hexDigit (b.toNat % 16)] = b.toNat := by
      simp only [CString.rowValue, List.foldl_cons, List.foldl_nil, digitValue_hexDigit hhigh,
        digitValue_hexDigit hlow]
      omega
    show (if hexDigit (b.toNat / 16) = 32 then none else some _) = some b
    rw [if_neg (hexDigit_ne_blank hhigh), hvalue, UInt8.ofNat_toNat]

theorem length_byteCell (c : Option UInt8) : (byteCell c).length = 3 := by
  cases c <;> rfl

theorem readCell_format8bytes (cells rest : List UInt8) (hi : i < 8) :
    readCell ((format8bytes cells ++ rest).drop (3 * i)) = cells[i]? := by
  have hlen : ∀ j : Nat, (byteCell cells[j]?).length = 3 := fun j => length_byteCell _
  have hle : 3 * i ≤ (format8bytes cells).length := by
    rw [format8bytes, length_flatMap_rows hlen]
    omega
  obtain ⟨m, hm⟩ := Nat.exists_eq_succ_of_ne_zero (Nat.sub_ne_zero_of_lt hi)
  rw [List.drop_append_of_le_length hle, format8bytes, drop_flatMap_rows hlen (Nat.le_of_lt hi), hm,
    List.range_succ_eq_map, List.flatMap_cons, Nat.add_zero, List.append_assoc, readCell_byteCell]

theorem length_format8bytes (cells : List UInt8) : (format8bytes cells).length = 24 :=
  length_flatMap_rows (fun _ => length_byteCell _) 8

theorem length_hex8 (n : Nat) : (hex8 n).length = 8 := by simp [hex8]

theorem readCell_formatDumpLine (cells : List UInt8) (offset : Nat) (hi : i < 16) :
    readCell ((formatDumpLine cells offset).drop (byteColumn i)) = cells[i]? := by
  simp only [formatDumpLine, List.append_assoc]
  by_cases hfirst : i < 8
  · have hcol : byteColumn i = (hex8 offset).length + (1 + 3 * i) := by
      rw [byteColumn, if_pos hfirst, length_hex8]
      omega
    rw [hcol, ← List.drop_drop, List.drop_left, ← List.drop_drop, List.singleton_append,
      List.drop_one, List.tail_cons, readCell_format8bytes _ _ hfirst]
  · obtain ⟨j, rfl⟩ := Nat.exists_eq_add_of_le (Nat.le_of_not_lt hfirst)
    have hcol : byteColumn (8 + j) =
        (hex8 offset).length + (1 + ((format8bytes cells).length + (1 + 3 * j))) := by
      rw [byteColumn, if_neg hfirst, length_hex8, length_format8bytes]
      omega
    rw [hcol, ← List.drop_drop, List.drop_left, ← List.drop_drop, List.singleton_append,
      List.drop_one, List.tail_cons, ← List.drop_drop, List.drop_left, ← List.drop_drop,
      List.singleton_append, List.drop_one, List.tail_cons,
      readCell_format8bytes _ _ (by omega), List.getElem?_drop]

theorem filterMap_getElem? (cells : List UInt8) (h : cells.length ≤ n) :
    ((List.range n).filterMap fun i => cells[i]?) = cells := by
  induction n generalizing cells with
  | zero => simpa [eq_comm] using h
  | succ n ih =>
    cases cells with
    | nil => simp
    | cons c cells =>
      have hhead : (c :: cells)[0]? = some c := rfl
      rw [List.range_succ_eq_map, List.filterMap_cons_some hhead, List.filterMap_map]
      congr 1
      exact ih cells (by simpa using h)

theorem lineBytes_formatDumpLine {cells : List UInt8} (h : cells.length ≤ 16) (offset : Nat) :
    lineBytes (formatDumpLine cells offset) = cells := by
  rw [lineBytes, List.filterMap_congr fun i hi =>
    readCell_formatDumpLine cells offset (List.mem_range.1 hi), filterMap_getElem? cells h]

/-- The first digits of a number of eight are the number without the
others. -/
theorem rowValue_hex8 (h : n < 16 ^ 8) {k : Nat} (hk : k ≤ 8) :
    CString.rowValue 16 ((List.range k).map fun i => hexDigit (n / 16 ^ (7 - i) % 16)) =
      n / 16 ^ (8 - k) := by
  induction k with
  | zero => exact (Nat.div_eq_of_lt h).symm
  | succ k ih =>
    have hdigit : CString.digitValue (hexDigit (n / 16 ^ (7 - k) % 16)) = n / 16 ^ (7 - k) % 16 :=
      digitValue_hexDigit (Nat.mod_lt _ (by decide))
    have hpow : 16 ^ (8 - k) = 16 ^ (7 - k) * 16 := by
      rw [← Nat.pow_succ]
      congr 1
      omega
    have hexp : 8 - (k + 1) = 7 - k := by omega
    rw [CString.rowValue] at ih ⊢
    rw [List.range_succ, List.map_append, List.foldl_append, ih (by omega), List.map_singleton,
      List.foldl_cons, List.foldl_nil, hdigit, hpow, ← Nat.div_div_eq_div_mul, hexp,
      Nat.div_add_mod]

theorem lineAddress_formatDumpLine (cells : List UInt8) {offset : Nat} (h : offset < 2 ^ 32) :
    lineAddress (formatDumpLine cells offset) = offset := by
  have htake : (formatDumpLine cells offset).take 8 = hex8 offset := by
    simp only [formatDumpLine, List.append_assoc]
    rw [← length_hex8 offset, List.take_left]
  rw [lineAddress, htake, hex8, rowValue_hex8 (by simpa using h) (Nat.le_refl 8)]
  simp

/-! ## The lines of a dump -/

theorem dumpLines_eq (data : List UInt8) (offset : Nat) :
    dumpLines data offset = (List.range ((data.length + 15) / 16)).flatMap fun i =>
      formatDumpLine (row 16 i data) (offset + 16 * i) ++ [10] := by
  fun_induction dumpLines data offset with
  | case1 offset => rfl
  | case2 data offset hdata ih =>
    have hpos := List.length_pos_iff.mpr hdata
    have hlines : (data.length + 15) / 16 = ((data.drop 16).length + 15) / 16 + 1 := by
      rw [List.length_drop]
      omega
    have hrow : ∀ i, row 16 (i + 1) data = row 16 i (data.drop 16) := by
      intro i
      rw [row, row, List.drop_drop, Nat.mul_succ, Nat.add_comm]
    rw [ih, hlines, List.range_succ_eq_map, List.flatMap_cons, List.flatMap_map]
    simp only [Nat.succ_eq_add_one, hrow, Nat.mul_succ, Nat.add_comm (16 * _) 16, Nat.add_assoc]
    rfl

theorem length_dumpLine (data : List UInt8) (i : Nat) :
    (formatDumpLine (row 16 i data) (0 + 16 * i) ++ [10]).length = 78 := by
  rw [List.length_append, length_formatDumpLine, List.length_singleton]

variable {data : List UInt8}

theorem dumpedLines_dumpText (hdata : data ≠ []) :
    dumpedLines (dumpText data) = (List.range ((data.length + 15) / 16)).map fun i =>
      formatDumpLine (row 16 i data) (16 * i) := by
  have hlines : ((dumpText data).length + 1) / 78 = (data.length + 15) / 16 := by
    rw [length_dumpText hdata, reqBufLen, Nat.mul_div_cancel _ (by decide)]
  rw [dumpedLines, hlines]
  refine List.map_congr_left fun i hi => ?_
  have hi' := List.mem_range.1 hi
  have hrow := row_flatMap (length_dumpLine data) hi'
  have hlast : (row 78 i (dumpText data)).take 77 = (row 78 i (dumpLines data 0)).take 77 := by
    have hlen := length_dumpLines data 0
    rw [row, row, List.take_take, List.take_take, dumpText, List.dropLast_eq_take, List.drop_take,
      List.take_take]
    congr 1
    rw [hlen, reqBufLen]
    omega
  rw [hlast, dumpLines_eq, hrow, ← length_formatDumpLine (row 16 i data) (0 + 16 * i),
    List.take_left, Nat.zero_add]

theorem lineBytes_dumpLine (data : List UInt8) (i : Nat) :
    lineBytes (formatDumpLine (row 16 i data) (16 * i)) = row 16 i data :=
  lineBytes_formatDumpLine (List.length_take_le _ _) _

theorem decodeDump_dumpText (hdata : data ≠ []) : decodeDump (dumpText data) = data := by
  rw [decodeDump, dumpedLines_dumpText hdata, List.flatMap_map]
  simp only [lineBytes_dumpLine]
  exact flatMap_row (by omega)

/-- The lines before one that is there have sixteen bytes each. -/
theorem length_bytesBefore (hdata : data ≠ []) (hi : i < (data.length + 15) / 16) :
    (((dumpedLines (dumpText data)).take i).flatMap lineBytes).length = 16 * i := by
  have hfull : ∀ j ∈ List.range i, (row 16 j data).length = 16 := by
    intro j hj
    have hlt := List.mem_range.1 hj
    rw [row, List.length_take, List.length_drop]
    omega
  rw [dumpedLines_dumpText hdata, ← List.map_take, List.take_range, Nat.min_eq_left (Nat.le_of_lt hi),
    List.flatMap_map]
  simp only [lineBytes_dumpLine]
  rw [List.length_flatMap, List.map_congr_left hfull]
  simp [Nat.mul_comm]

/-! ## What the caller has -/

/-- The text is a dump of the block: the columns give its bytes, and every
address is that of the bytes before. -/
structure DumpOf (data text : List UInt8) : Prop where
  noNul : 0 ∉ text
  decoded : decodeDump text = data
  address : ∀ i line, (dumpedLines text)[i]? = some line →
    lineAddress line = (((dumpedLines text).take i).flatMap lineBytes).length

/-- A call dumps the text where there is room, and asks for the room of the
text in any case. -/
structure DumpsTo (text : List UInt8) (data : List UInt8) : Prop where
  asks : ∀ dest, ∃ r, evlDumpBytes (some data) dest = some r ∧ r.reqlen = text.length + 1
  forceAsks : ∀ buf, buf ≠ [] →
    ∃ r, dumpBytesForce (some data) buf = some r ∧ r.reqlen = text.length + 1
  writes : ∀ buf : List UInt8, text.length + 1 ≤ buf.length →
    evlDumpBytes (some data) (.mem buf) = some
      { status := .ok, reqlen := text.length + 1,
        dest := .mem (text ++ 0 :: buf.drop (text.length + 1)) }

theorem dumpOf_dumpText (hdata : data ≠ []) (hlen : data.length < 2 ^ 32) :
    DumpOf data (dumpText data) where
  noNul := zero_not_mem_dumpText data
  decoded := decodeDump_dumpText hdata
  address := by
    intro i line hline
    have hline' := hline
    rw [dumpedLines_dumpText hdata, List.getElem?_map, Option.map_eq_some_iff] at hline'
    obtain ⟨j, hj, rfl⟩ := hline'
    obtain ⟨hi, rfl⟩ := List.getElem?_eq_some_iff.1 hj
    rw [List.length_range] at hi
    rw [List.getElem_range, length_bytesBefore hdata hi, lineAddress_formatDumpLine]
    omega

section Calls

variable {data : List UInt8} (hdata : data ≠ []) (hint : reqBufLen data.length < 2 ^ 31)

include hdata hint

theorem evlDumpBytes_short {dest : Dest} (h : dest.buflen < reqBufLen data.length) :
    evlDumpBytes (some data) dest =
      some { status := .emsgsize, reqlen := reqBufLen data.length, dest } := by
  simp only [evlDumpBytes, if_neg hdata, intReqBufLen_eq hint, Option.bind_eq_bind,
    Option.bind_some, if_pos h]

theorem evlDumpBytes_null {n : Nat} (h : reqBufLen data.length ≤ n) :
    evlDumpBytes (some data) (.null n) =
      some { status := .einval, reqlen := reqBufLen data.length, dest := .null n } := by
  have hroom : ¬ (Dest.null n).buflen < reqBufLen data.length := Nat.not_lt.2 h
  simp only [evlDumpBytes, if_neg hdata, intReqBufLen_eq hint, Option.bind_eq_bind,
    Option.bind_some, if_neg hroom]

variable {buf : List UInt8}

/-- What is too long is cut, and the room that is asked for stays that of
the whole. -/
theorem dumpBytesForce_cut (hbuf : buf ≠ []) (h : buf.length < reqBufLen data.length) :
    dumpBytesForce (some data) buf =
      some { status := .ok, reqlen := reqBufLen data.length,
             dest := .mem ((dumpText data).take (buf.length - 1) ++ [0]) } := by
  have hlen := length_dumpText hdata
  have hagain := evlDumpBytes_room hdata hint
    (List.length_replicate (n := reqBufLen data.length) (a := (0 : UInt8))).ge
  have htake : (dumpText data ++ 0 :: (List.replicate (reqBufLen data.length) 0).drop
      (reqBufLen data.length)).take (buf.length - 1) = (dumpText data).take (buf.length - 1) :=
    List.take_append_of_le_length (by omega)
  obtain ⟨b, bs, rfl⟩ := List.exists_cons_of_ne_nil hbuf
  have hshort : (Dest.mem (b :: bs)).buflen < reqBufLen data.length := h
  rw [dumpBytesForce, evlDumpBytes_short hdata hint hshort]
  simp only [Option.bind_eq_bind, Option.bind_some, hagain, if_pos, htake]

end Calls

/-- A block that is not empty is dumped without loss to any buffer that has
the room, and any other is told how much that is, as long as that is an
`int`. -/
theorem evlDumpBytes_lossless {data : List UInt8} (hdata : data ≠ [])
    (hint : reqBufLen data.length < 2 ^ 31) :
    ∃ text, DumpOf data text ∧ DumpsTo text data := by
  have hlen := length_dumpText hdata
  refine ⟨dumpText data, dumpOf_dumpText hdata (by rw [reqBufLen] at hint; omega), ?_, ?_, ?_⟩
  · intro dest
    rw [hlen]
    by_cases hroom : dest.buflen < reqBufLen data.length
    · exact ⟨_, evlDumpBytes_short hdata hint hroom, rfl⟩
    · cases dest with
      | null n => exact ⟨_, evlDumpBytes_null hdata hint (Nat.le_of_not_lt hroom), rfl⟩
      | mem buf => exact ⟨_, evlDumpBytes_room hdata hint (Nat.le_of_not_lt hroom), rfl⟩
  · intro buf hbuf
    rw [hlen]
    by_cases hroom : buf.length < reqBufLen data.length
    · exact ⟨_, dumpBytesForce_cut hdata hint hbuf hroom, rfl⟩
    · have hle := Nat.le_of_not_lt hroom
      exact ⟨_, (dumpBytesForce_room hdata hint hle).trans (evlDumpBytes_room hdata hint hle), rfl⟩
  · intro buf hroom
    rw [hlen] at hroom ⊢
    exact evlDumpBytes_room hdata hint hroom

/-- Seventeen bytes take two lines. -/
theorem seventeen_lossless : ∃ text, DumpOf (List.replicate 17 0x41) text ∧
    DumpsTo text (List.replicate 17 0x41) :=
  evlDumpBytes_lossless (by decide) (by decide)

/-- Nothing is asked for where the length is no `int`. -/
theorem not_dumpsTo_of_none (hdata : data ≠ []) (h : intReqBufLen data.length = none)
    (text : List UInt8) : ¬ DumpsTo text data := by
  intro hdumps
  obtain ⟨r, hr, -⟩ := hdumps.asks (.null 0)
  simp [evlDumpBytes, hdata, h] at hr

def longBlock : List UInt8 := List.replicate 440509457 0

theorem length_longBlock : longBlock.length = 440509457 := List.length_replicate

/-- No length goes with an empty block, and none comes out for one whose
dump is longer than an `int` says. -/
theorem dump_not_always : (¬ ∃ text, DumpOf [] text ∧ DumpsTo text []) ∧
      ¬ ∃ text, DumpOf longBlock text ∧ DumpsTo text longBlock := by
  constructor
  · rintro ⟨text, -, hdumps⟩
    obtain ⟨r, hr, hlen⟩ := hdumps.asks (.null 0)
    cases hr
    exact absurd hlen (Nat.succ_ne_zero _).symm
  · rintro ⟨text, -, hdumps⟩
    have hlen := length_longBlock
    have hnone : intReqBufLen longBlock.length = none := by
      rw [hlen]
      decide
    refine not_dumpsTo_of_none (List.length_pos_iff.1 ?_) hnone text hdumps
    rw [hlen]
    exact Nat.succ_pos _

end Evlog.Util
