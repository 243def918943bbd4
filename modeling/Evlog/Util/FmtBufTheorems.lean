/-
Evlog.Util.FmtBufTheorems — the law of format buffers, and where it ends.

`Op.text` is the text of a piece of formatting, whatever the buffer. The
law (`Law n t f`) says of a buffer of `n` bytes that it shows the text `t`,
that `fb_next` is as far as the text is long, and that the overflow flag is
up when the text did not fit.

`_evlBprintf` keeps it, and what is made of calls of it does. The others do
so under conditions (`Op.Ok`): a dump has to fit whole, a record of the
printf kind needs a byte of room to begin with, and a struct in an array
must fit the temporary buffer.
-/
import Evlog.Util.FmtBuf

namespace Evlog.Util

open Evlog.Lib

/-! ## Texts -/

def Outcome.shown : Outcome → List UInt8
  | .text t => t.val
  | .failed _ => []

def shownAll (os : List Outcome) : List UInt8 := os.flatMap Outcome.shown

def PrintfRec.shown (printk : Bool) : PrintfRec → List UInt8
  | .bad => []
  | .parsed pieces _ => if printk then printkText (shownAll pieces) else shownAll pieces

mutual

def Op.text : Op → List UInt8
  | .bprintf o => o.shown
  | .dump data => dumpText data
  | .printfRec r printk => r.shown printk
  | .scalars delimiter elements => shownAll (elements.intersperse delimiter)
  | .bitmap val maps => shownAll (Util.bitmap val maps)
  | .record segments => textAll segments
  | .structs delimiter fmt elements => textStructs delimiter fmt elements 0

def textAll : List Op → List UInt8
  | [] => []
  | op :: ops => op.text ++ textAll ops

def textStructs (delimiter : Outcome) (fmt : Nat → List UInt8 → Outcome) :
    List (List Op) → Nat → List UInt8
  | [], _ => []
  | st :: sts, i =>
    (if i = 0 then [] else delimiter.shown) ++ (fmt i (untilNull (textAll st))).shown
      ++ textStructs delimiter fmt sts (i + 1)

end

/-! ## The law -/

/-- A buffer of `n` bytes with the text `t` in it. -/
structure Law (n : Nat) (t : List UInt8) (f : FmtBuf) : Prop where
  size : f.buf.length = n
  next : f.next = t.length
  shows : Shows f.buf t
  oflow : f.oflow = true ↔ n ≤ t.length

section

variable {n : Nat} {t u : List UInt8} {f : FmtBuf}

theorem law_makeFmtBuf {buf : List UInt8} (h : 0 < buf.length) :
    Law buf.length [] (makeFmtBuf buf) := by
  match buf, h with
  | b :: rest, _ => exact ⟨rfl, rfl, shows_nil rest, by simp [makeFmtBuf]⟩

theorem Law.room_eq (h : Law n t f) : f.room = (n : Int) - t.length := by
  rw [FmtBuf.room, h.size, h.next]

theorem Law.store_next (h : Law n t f) {bytes : List UInt8} (hfit : t.length + bytes.length ≤ n) :
    f.store f.next bytes
      = some { f with buf := f.buf.take t.length ++ (bytes ++ f.buf.drop (t.length + bytes.length)) } := by
  rw [FmtBuf.store, h.next, if_pos (by rw [h.size]; omega), overlay, Int.toNat_natCast,
    List.append_assoc]

/-- When the text does not fit, the last byte is a null character already. -/
theorem Law.store_last (h : Law n t f) (hfull : n ≤ t.length + 1) (o : Bool) (next : Int) :
    ({ buf := f.buf, next, oflow := o } : FmtBuf).store (f.buf.length - 1) [0]
      = some { buf := f.buf, next, oflow := o } := by
  have hpos := h.shows.pos
  have hlast := h.shows.set_last (by rw [h.size]; exact hfull)
  have hnat : ((f.buf.length : Int) - 1).toNat = f.buf.length - 1 := by omega
  rw [FmtBuf.store, if_pos (by simp; omega)]
  simp only [overlay, hnat, List.length_singleton]
  rw [List.drop_eq_nil_of_le (by omega), List.append_nil, hlast]

theorem writeSize_of_lt {room : Int} (h : 1 < room) (hlt : room < 2 ^ 31) :
    (writeSize room : Int) = room := by
  have hint : toInt room = room := by
    rw [toInt, Int.bmod_eq_of_le (by omega) (by omega)]
  rw [writeSize, if_neg (by omega), hint, sizeT, Int.emod_eq_of_lt (by omega) (by omega)]
  omega

theorem toInt_eq {x : Int} (h : 0 ≤ x) (hlt : x < 2 ^ 31) : toInt x = x := by
  rw [toInt, Int.bmod_eq_of_le (by omega) (by omega)]

/-! ## `_evlBprintf` -/

/-- A text of the length is not cut by the conversion of `room` to an `int`. -/
def Whole (room : Int) (len : Nat) : Prop :=
  room ≤ 1 ∨ room < 2 ^ 31 ∨ len < writeSize room

/-- The condition for a call in a buffer of `n` bytes, behind `p` bytes of
text. -/
def Outcome.Ok (n p : Nat) : Outcome → Prop
  | .text t => t.val.length + 1 < 2 ^ 31 ∧ Whole ((n : Int) - p) t.val.length
  | .failed _ => p < n

theorem vsnprintf_text (u : Bytes) (size : Nat) : (vsnprintf (.text u) size).1 = u.val.length := rfl

theorem bprintfFrom_nat (len : Nat) (room : Int) (g : FmtBuf) :
    bprintfFrom len room g = advance len room g := by
  rw [bprintfFrom, if_neg (by omega)]

theorem bprintf_text_scratch (hroom : f.room ≤ 1) (u : Bytes) :
    bprintf (.text u) f = advance u.val.length f.room f := by
  rw [bprintf, if_pos hroom, vsnprintf_text, bprintfFrom_nat]

theorem bprintf_text_room (hroom : 1 < f.room) {u : Bytes} {g : FmtBuf}
    (hg : f.store f.next (vsnprintf (.text u) (writeSize f.room)).2 = some g) :
    bprintf (.text u) f = advance u.val.length f.room g := by
  rw [bprintf, if_neg (Int.not_le.mpr hroom), hg, Option.bind_some, vsnprintf_text, bprintfFrom_nat]

/-- The text behind the one there was, when the buffer shows both. -/
theorem advance_law {g : FmtBuf} {len : Nat} (hsize : g.buf.length = n)
    (hnext : g.next = t.length) (hshows : Shows g.buf (t ++ u)) (hu : u.length = len)
    (hlen : len + 1 < 2 ^ 31) (hoflow : g.oflow = true ↔ n ≤ t.length) :
    ∃ f', advance len ((n : Int) - t.length) g = some f' ∧ Law n (t ++ u) f' := by
  subst hu
  have hlaw (o : Bool) (ho : o = true ↔ n ≤ (t ++ u).length) :
      Law n (t ++ u) { g with next := g.next + u.length, oflow := o } :=
    ⟨hsize, by simp [hnext], hshows, ho⟩
  rw [advance, toInt_eq (by omega) (by omega)]
  split
  · refine ⟨_, ?_, hlaw true (by simp; omega)⟩
    exact (hlaw true (by simp; omega)).store_last (by simp; omega) true _
  · refine ⟨_, rfl, hlaw g.oflow ?_⟩
    rw [hoflow, List.length_append]
    omega

theorem bprintf_text_law (h : Law n t f) {u : Bytes} (hok : (Outcome.text u).Ok n t.length) :
    ∃ f', bprintf (.text u) f = some f' ∧ Law n (t ++ u.val) f' := by
  obtain ⟨hlen, hwhole⟩ := hok
  have hroom := h.room_eq
  have hpos := h.shows.pos
  have hbytes := u.property
  rw [h.size] at hpos
  rcases le_or_gt f.room 1 with hscratch | hfree
  · -- the buffer is full, and nothing is written to it
    rw [bprintf_text_scratch hscratch, hroom]
    refine advance_law h.size h.next ?_ rfl hlen h.oflow
    exact shows_append_of_full h.shows (by rw [h.size]; omega) _
  · have htake : f.buf.take t.length = t := h.shows.take_eq (by rw [h.size]; omega)
    have hsub : (f.buf.drop t.length).length = n - t.length := by rw [List.length_drop, h.size]
    -- what is written, and what the rest of the buffer is then
    obtain ⟨sub, hstore, hsublen, hshown⟩ : ∃ sub, f.store f.next
          (vsnprintf (.text u) (writeSize f.room)).2
          = some { f with buf := f.buf.take t.length ++ sub } ∧ sub.length = n - t.length
          ∧ Shows sub u.val := by
      rcases Nat.lt_or_ge u.val.length (n - t.length) with hfits | hcut
      · have hsize : u.val.length < writeSize f.room := by
          rcases hwhole with h1 | h31 | hlt
          · omega
          · have := writeSize_of_lt hfree (by omega)
            omega
          · rwa [hroom]
        refine ⟨u.val ++ [0] ++ (f.buf.drop t.length).drop (u.val.length + 1), ?_, ?_, ?_⟩
        · have hwritten : (vsnprintf (.text u) (writeSize f.room)).2 = u.val ++ [0] := by
            simp only [vsnprintf]
            rw [if_neg (by omega), List.take_of_length_le (by omega)]
          rw [hwritten, h.store_next (by simp; omega), List.drop_drop]
          simp [List.append_assoc]
        · simp [h.size]
          omega
        · exact shows_write (by omega)
      · have hsize : writeSize f.room = n - t.length := by
          have := writeSize_of_lt hfree (by omega)
          omega
        refine ⟨u.val.take (n - t.length - 1) ++ [0], ?_, ?_, ?_⟩
        · have hwritten : (vsnprintf (.text u) (writeSize f.room)).2
              = u.val.take (n - t.length - 1) ++ [0] := by
            simp only [vsnprintf]
            rw [hsize, if_neg (by omega)]
          have hwlen : (u.val.take (n - t.length - 1) ++ [0]).length = n - t.length := by
            simp
            omega
          rw [hwritten, h.store_next (by omega), hwlen,
            List.drop_eq_nil_of_le (by rw [h.size]; omega), List.append_nil]
        · simp
          omega
        · exact shows_cut (by omega) (by omega)
    rw [bprintf_text_room hfree hstore, hroom]
    refine advance_law ?_ h.next ?_ rfl hlen h.oflow
    · rw [htake, List.length_append, hsublen]
      omega
    · exact shows_splice h.shows (by rw [h.size]; omega) (by rw [hsublen, h.size]; omega) hshown

theorem bprintf_failed_law (h : Law n t f) {w : Bytes} (hok : (Outcome.failed w).Ok n t.length) :
    ∃ f', bprintf (.failed w) f = some f' ∧ Law n t f' := by
  have hin : t.length < n := hok
  have hroom := h.room_eq
  have hbytes := w.property
  -- what it had written is ended where it began
  have hend (buf : List UInt8) (hbuf : buf.length = n) (hkept : buf.take t.length = t) :
      ∃ f', bprintfFrom (-1) f.room { f with buf } = some f' ∧ Law n t f' := by
    have hstore : ({ f with buf } : FmtBuf).store f.next [0]
        = some { f with buf := t ++ [0] ++ buf.drop (t.length + 1) } := by
      rw [FmtBuf.store, h.next, if_pos (by rw [hbuf]; simp; omega)]
      simp only [overlay, Int.toNat_natCast, hkept, List.length_singleton]
    refine ⟨{ f with buf := t ++ [0] ++ buf.drop (t.length + 1) }, ?_, ?_, h.next, ?_, h.oflow⟩
    · rw [bprintfFrom, if_pos (by decide), hstore, Option.bind_some, advance,
        toInt_eq (by decide) (by decide), if_neg (by omega), Int.add_zero]
    · simp
      omega
    · exact shows_write (by omega)
  rcases le_or_gt f.room 1 with hscratch | hfree
  · rw [bprintf, if_pos hscratch]
    exact hend f.buf h.size (h.shows.take_eq (by rw [h.size]; omega))
  · have hwritten : (w.val.take (writeSize f.room)).length ≤ n - t.length := by
      rw [List.length_take]
      rcases lt_or_ge f.room (2 ^ 31) with hlt | hge
      · have := writeSize_of_lt hfree hlt
        omega
      · omega
    have htake : f.buf.take t.length = t := h.shows.take_eq (by rw [h.size]; omega)
    rw [bprintf, if_neg (Int.not_le.mpr hfree)]
    show ∃ f', (f.store f.next (w.val.take (writeSize f.room))).bind _ = some f' ∧ _
    rw [h.store_next (by omega), Option.bind_some]
    refine hend _ ?_ ?_
    · rw [htake, List.length_append, List.length_append, List.length_drop, h.size]
      omega
    · rw [htake, List.take_left' rfl]

theorem bprintf_law (h : Law n t f) {o : Outcome} (hok : o.Ok n t.length) :
    ∃ f', bprintf o f = some f' ∧ Law n (t ++ o.shown) f' := by
  cases o with
  | text u => exact bprintf_text_law h hok
  | failed w =>
    rw [Outcome.shown, List.append_nil]
    exact bprintf_failed_law h hok

def OkAll (n : Nat) : Nat → List Outcome → Prop
  | _, [] => True
  | p, o :: os => o.Ok n p ∧ OkAll n (p + o.shown.length) os

theorem bprintfAll_law (h : Law n t f) {os : List Outcome} (hok : OkAll n t.length os) :
    ∃ f', bprintfAll os f = some f' ∧ Law n (t ++ shownAll os) f' := by
  induction os generalizing t f with
  | nil => exact ⟨f, rfl, by simpa [shownAll] using h⟩
  | cons o os ih =>
    obtain ⟨g, hg, hlaw⟩ := bprintf_law h hok.1
    obtain ⟨f', hf', hlaw'⟩ := ih hlaw (by rw [List.length_append]; exact hok.2)
    refine ⟨f', ?_, ?_⟩
    · rw [bprintfAll, List.foldlM_cons, hg]
      exact hf'
    · rwa [shownAll, List.flatMap_cons, ← List.append_assoc]

theorem formatScalarsLoop_eq (delimiter : Outcome) (os : List Outcome) (o : Outcome) (g : FmtBuf) :
    (bprintf o g).bind (formatScalarsLoop delimiter os)
      = bprintfAll ((o :: os).intersperse delimiter) g := by
  induction os generalizing o g with
  | nil =>
    rw [List.intersperse_singleton, bprintfAll, List.foldlM_cons]
    rfl
  | cons o' os ih =>
    rw [List.intersperse_cons_cons, bprintfAll, List.foldlM_cons]
    refine congrArg _ (funext fun g => ?_)
    show (bprintf delimiter g).bind _ = _
    rw [List.foldlM_cons]
    exact congrArg _ (funext fun g => ih o' g)

/-- An array of scalars is its elements, with the delimiter between them. -/
theorem formatArrayOfScalars_eq (delimiter : Outcome) (os : List Outcome) (g : FmtBuf) :
    formatArrayOfScalars delimiter os g = bprintfAll (os.intersperse delimiter) g := by
  cases os with
  | nil => rfl
  | cons o os => exact formatScalarsLoop_eq delimiter os o g

/-! ## Dumps -/

theorem length_formatDumpLine (cells : List UInt8) (offset : Nat) :
    (formatDumpLine cells offset).length = 77 := by
  have h8 (cs : List UInt8) : (format8bytes cs).length = 24 := by
    have hthree : ∀ c, (byteCell c).length = 3 := by
      intro c
      cases c <;> rfl
    simp [format8bytes, List.length_flatMap, hthree]
  simp [formatDumpLine, h8, hex8, format8chars]

theorem length_dumpLines (data : List UInt8) (offset : Nat) :
    (dumpLines data offset).length = reqBufLen data.length := by
  fun_induction dumpLines data offset with
  | case1 => rfl
  | case2 data offset hdata ih =>
    have hpos := List.length_pos_iff.mpr hdata
    simp only [List.length_append, length_formatDumpLine, List.length_singleton, ih,
      List.length_drop, reqBufLen]
    omega

/-- The room that is asked for is that of the text and its null character. -/
theorem length_dumpText {data : List UInt8} (h : data ≠ []) :
    (dumpText data).length + 1 = reqBufLen data.length := by
  have hpos := List.length_pos_iff.mpr h
  rw [dumpText, List.length_dropLast, length_dumpLines, reqBufLen]
  omega

theorem hexDigit_ne_zero {d : Nat} (h : d < 16) : hexDigit d ≠ 0 := by
  interval_cases d <;> decide

theorem zero_not_mem_formatDumpLine (cells : List UInt8) (offset : Nat) :
    0 ∉ formatDumpLine cells offset := by
  have hhex : 0 ∉ hex8 offset := by
    simp only [hex8, List.mem_map, not_exists, not_and]
    exact fun i _ => hexDigit_ne_zero (Nat.mod_lt _ (by decide))
  have hcell : ∀ c, 0 ∉ byteCell c
    | none => by decide
    | some b => by
      have hb := b.toNat_lt
      have h1 := hexDigit_ne_zero (d := b.toNat / 16) (by omega)
      have h2 := hexDigit_ne_zero (d := b.toNat % 16) (by omega)
      simp [byteCell, h1.symm, h2.symm]
  have hchar : ∀ c, charCell c ≠ 0
    | none => by decide
    | some b => by
      rw [charCell]
      split
      · rename_i hb
        rintro rfl
        exact absurd hb.1 (by decide)
      · decide
  have hbytes (cs : List UInt8) : 0 ∉ format8bytes cs := by
    simp only [format8bytes, List.mem_flatMap, not_exists, not_and]
    exact fun i _ => hcell _
  have hchars (cs : List UInt8) : 0 ∉ format8chars cs := by
    simp only [format8chars, List.mem_map, not_exists, not_and]
    exact fun i _ => hchar _
  simp [formatDumpLine, hhex, hbytes, hchars]

theorem zero_not_mem_dumpText (data : List UInt8) : 0 ∉ dumpText data := by
  have hlines : ∀ offset, 0 ∉ dumpLines data offset := by
    intro offset
    fun_induction dumpLines data offset with
    | case1 => exact List.not_mem_nil
    | case2 data offset hdata ih =>
      simp [zero_not_mem_formatDumpLine, ih]
  exact fun h => hlines 0 (List.mem_of_mem_dropLast h)

section Dump

variable {data buf : List UInt8}

theorem intReqBufLen_eq {n : Nat} (h : reqBufLen n < 2 ^ 31) : intReqBufLen n = some (reqBufLen n) := by
  rw [reqBufLen] at h ⊢
  have hint : toInt ((n + 15) / 16 : Nat) = ((n + 15) / 16 : Nat) :=
    Int.bmod_eq_of_le (by omega) (by omega)
  have hsize : sizeT (((n + 15) / 16 : Nat) * 78) = (n + 15) / 16 * 78 := by
    rw [sizeT, Int.emod_eq_of_lt (by omega) (by omega)]
    omega
  rw [intReqBufLen, hint, if_pos (by omega), hsize]

theorem evlDumpBytes_room (hdata : data ≠ []) (hint : reqBufLen data.length < 2 ^ 31)
    (h : reqBufLen data.length ≤ buf.length) :
    evlDumpBytes (some data) (.mem buf) =
      some { status := .ok, reqlen := reqBufLen data.length,
             dest := .mem (dumpText data ++ 0 :: buf.drop (reqBufLen data.length)) } := by
  have hlen := length_dumpText hdata
  have hover : overlay buf 0 (dumpText data ++ [0]) =
      dumpText data ++ 0 :: buf.drop (reqBufLen data.length) := by
    simp [overlay, ← hlen]
  have hroom : ¬ (Dest.mem buf).buflen < reqBufLen data.length := Nat.not_lt.2 h
  simp only [evlDumpBytes, if_neg hdata, intReqBufLen_eq hint, Option.bind_eq_bind,
    Option.bind_some, if_neg hroom, hlen, if_pos h, hover]

theorem dumpBytesForce_room (hdata : data ≠ []) (hint : reqBufLen data.length < 2 ^ 31)
    (h : reqBufLen data.length ≤ buf.length) :
    dumpBytesForce (some data) buf = evlDumpBytes (some data) (.mem buf) := by
  rw [dumpBytesForce, evlDumpBytes_room hdata hint h]
  rfl

end Dump

/-- The condition for a dump: there is something to dump, an `int` can count
its characters, and it fits whole. -/
def DumpOk (n p : Nat) (data : List UInt8) : Prop :=
  data ≠ [] ∧ reqBufLen data.length < 2 ^ 31 ∧ p + (dumpText data).length < n
    ∧ (dumpText data).length < writeSize ((n : Int) - p)
    ∧ (dumpText data).length < sizeT ((n : Int) - p)

theorem dump_law (h : Law n t f) {data : List UInt8} (hok : DumpOk n t.length data) :
    ∃ f', dumpBytesToFmtBuf data f = some f' ∧ Law n (t ++ dumpText data) f' := by
  obtain ⟨hdata, hint, hfits, hsize, hcmp⟩ := hok
  have hroom := h.room_eq
  have hlen := length_dumpText hdata
  have hpos := List.length_pos_iff.mpr hdata
  have htake : f.buf.take t.length = t := h.shows.take_eq (by rw [h.size]; omega)
  rw [← hroom] at hsize hcmp
  -- there is room for the whole dump, and no more than it is written
  have hforce : ∃ r, dumpBytesForce (some data)
      ((f.buf.drop f.next.toNat ++ List.replicate (writeSize f.room) 0).take (writeSize f.room)) = some r ∧
      r.status = .ok ∧ r.reqlen = reqBufLen data.length ∧
      r.dest.bytes.take r.reqlen = dumpText data ++ [0] := by
    have hwide : ((f.buf.drop f.next.toNat ++ List.replicate (writeSize f.room) 0).take
        (writeSize f.room)).length = writeSize f.room := by
      simp
    have hle : reqBufLen data.length ≤ writeSize f.room := by omega
    refine ⟨_, (dumpBytesForce_room hdata hint (hwide.ge.trans' hle)).trans
      (evlDumpBytes_room hdata hint (hwide.ge.trans' hle)), rfl, rfl, ?_⟩
    dsimp only [Dest.bytes]
    rw [List.append_cons, ← hlen, List.take_left' (by simp)]
  obtain ⟨r, hforce, hstatus, hreqlen, hwritten⟩ := hforce
  have hfree : ¬ f.room ≤ 1 := by
    rw [reqBufLen] at hlen
    omega
  let g : FmtBuf := { f with buf := t ++ (dumpText data ++ [0]
    ++ f.buf.drop (t.length + (dumpText data ++ [0]).length)) }
  have hstore : f.store f.next (dumpText data ++ [0]) = some g := by
    rw [h.store_next (by simp; omega), htake]
  have hstrlen : g.strlenNext = some (dumpText data).length := by
    have hdrop : g.buf.drop g.next.toNat = dumpText data ++ 0 ::
        f.buf.drop (t.length + (dumpText data ++ [0]).length) := by
      show (t ++ _).drop f.next.toNat = _
      rw [h.next, Int.toNat_natCast, List.drop_left' rfl, List.append_assoc]
      rfl
    have hnn : 0 ≤ g.next := by
      show 0 ≤ f.next
      rw [h.next]
      omega
    rw [FmtBuf.strlenNext, hdrop, if_pos ⟨hnn, by simp⟩, untilNull_append_zero,
      untilNull_eq_self (zero_not_mem_dumpText data)]
  refine ⟨{ g with next := g.next + (dumpText data).length }, ?_, ?_⟩
  · have hfound : ¬ r.reqlen > sizeT f.room := by omega
    simp only [dumpBytesToFmtBuf, hforce, Option.bind_eq_bind, Option.bind_some, hstatus, ne_eq,
      not_true_eq_false, if_false, if_neg hfree, hwritten, hstore, if_neg hfound, hstrlen]
  · refine ⟨?_, ?_, ?_, ?_⟩
    · show (t ++ _).length = n
      simp [h.size]
      omega
    · show f.next + _ = _
      rw [h.next, List.length_append]
      push_cast
      rfl
    · have hshown : Shows (dumpText data ++ [0]
          ++ f.buf.drop (t.length + (dumpText data ++ [0]).length)) (dumpText data) := by
        have hroomy : (dumpText data).length < (f.buf.drop t.length).length := by
          rw [List.length_drop, h.size]
          omega
        have hw := shows_write hroomy
        have hone : (dumpText data ++ [0]).length = (dumpText data).length + 1 := by simp
        rwa [List.drop_drop, ← hone] at hw
      have hsplice := shows_splice h.shows (by rw [h.size]; omega) (by simp [h.size]; omega) hshown
      rwa [htake] at hsplice
    · show f.oflow = true ↔ _
      rw [h.oflow, List.length_append]
      omega

/-! ## Records of the printf kind -/

theorem length_elide_le (start : Bool) (s : List UInt8) :
    (elidePrintkSeverities start s).length ≤ s.length := by
  fun_induction elidePrintkSeverities start s with
  | case1 => simp; omega
  | case2 => simp at *; omega
  | case3 => rfl
  | case4 => simp at *; omega

/-- The newline at the end of the text is taken off in the buffer. -/
theorem untilNull_chomp {raw rest : List UInt8} :
    untilNull (if 1 + raw.length > 1 ∧ (raw ++ 0 :: rest)[1 + raw.length - 2]? = some 10 then
        (raw ++ 0 :: rest).set (1 + raw.length - 2) 0 else raw ++ 0 :: rest)
      = untilNull (chomp raw) := by
  rcases raw.eq_nil_or_concat with rfl | ⟨init, b, rfl⟩
  · rfl
  · have hidx : 1 + (init ++ [b]).length - 2 = init.length := by
      rw [List.length_append, List.length_singleton]
      omega
    have hget : (init ++ [b] ++ 0 :: rest)[init.length]? = some b := by simp
    rw [List.concat_eq_append] at *
    rw [hidx, hget, chomp, List.getLast?_append, List.getLast?_singleton, Option.some_or]
    by_cases hb : b = 10
    · subst hb
      rw [if_pos ⟨by simp, rfl⟩, if_pos rfl, List.dropLast_concat]
      have hset : (init ++ [10] ++ 0 :: rest).set init.length 0 = init ++ 0 :: 0 :: rest := by
        simp
      rw [hset, untilNull_append_zero]
    · rw [if_neg (by simpa using hb), if_neg (by simpa using hb), untilNull_append_zero]

/-- The condition for a record of the printf kind: there is room for a byte, the
record is formatted to its end, and what printk puts into it is there when it
is taken out. -/
def PrintfRec.Ok (n p : Nat) (printk : Bool) : PrintfRec → Prop
  | .bad => False
  | .parsed pieces failed =>
    failed = false ∧ p < n ∧ OkAll (n - p) 0 pieces
      ∧ (printk → p + (shownAll pieces).length < n
        ∨ printkText (shownAll pieces) = shownAll pieces)

/-- What comes back for a buffer of `m` bytes shows the text, and says how long
it is. -/
theorem evlFormatPrintfRec_shows {buf : List UInt8} (hbuf : 0 < buf.length)
    {pieces : List Outcome} (hok : OkAll buf.length 0 pieces) {printk : Bool}
    (hprintk : printk → (shownAll pieces).length < buf.length
      ∨ printkText (shownAll pieces) = shownAll pieces) :
    ∃ sub, evlFormatPrintfRec (.parsed pieces false) buf printk
        = some (sub, (PrintfRec.shown printk (.parsed pieces false)).length + 1)
      ∧ sub.length = buf.length ∧ Shows sub (PrintfRec.shown printk (.parsed pieces false)) := by
  obtain ⟨g, hg, hlaw⟩ := bprintfAll_law (law_makeFmtBuf hbuf) hok
  rw [List.nil_append] at hlaw
  generalize hraw : shownAll pieces = raw at hlaw hprintk
  have hreq : (1 + g.next).toNat = raw.length + 1 := by
    rw [hlaw.next]
    omega
  have hcode : evlFormatPrintfRec (.parsed pieces false) buf printk
      = if g.oflow then some (g.buf, raw.length + 1)
        else if printk then
          let buf := if 1 + raw.length > 1 ∧ g.buf[1 + raw.length - 2]? = some 10 then
            g.buf.set (1 + raw.length - 2) 0 else g.buf
          let s := elidePrintkSeverities true (untilNull buf)
          some (overlay buf 0 (s ++ [0]), s.length + 1)
        else some (g.buf, raw.length + 1) := by
    simp only [evlFormatPrintfRec, hg, Option.bind_eq_bind, Option.bind_some, hreq,
      Nat.add_comm 1 raw.length]
    rfl
  rw [hcode, PrintfRec.shown, hraw]
  by_cases hoflow : g.oflow
  · -- cut off: there is nothing to take out of it
    have hfull := hlaw.oflow.mp hoflow
    have htext : (if printk then printkText raw else raw) = raw := by
      split
      · exact (hprintk ‹_›).resolve_left (by omega)
      · rfl
    rw [if_pos hoflow, htext]
    exact ⟨g.buf, rfl, hlaw.size, hlaw.shows⟩
  · have hfits : raw.length < buf.length := by
      by_contra hnot
      exact hoflow (hlaw.oflow.mpr (by omega))
    rw [if_neg hoflow]
    cases printk with
    | false => exact ⟨g.buf, rfl, hlaw.size, hlaw.shows⟩
    | true =>
      obtain ⟨rest, hrest⟩ := (shows_iff_of_lt (by rw [hlaw.size]; exact hfits)).mp hlaw.shows
      have hbytes : g.buf = raw ++ 0 :: rest := by
        rw [← hrest, List.append_assoc]
        rfl
      have hlen := hlaw.size
      rw [hbytes] at hlen
      simp only [if_true, hbytes]
      rw [untilNull_chomp]
      have hshort : (printkText raw).length < buf.length := by
        refine lt_of_le_of_lt ((length_elide_le _ _).trans ((length_untilNull_le _).trans ?_)) hfits
        rw [chomp]
        split
        · rw [List.length_dropLast]
          omega
        · rfl
      generalize hb2 : (if 1 + raw.length > 1 ∧ (raw ++ 0 :: rest)[1 + raw.length - 2]? = some 10
        then (raw ++ 0 :: rest).set (1 + raw.length - 2) 0 else raw ++ 0 :: rest) = buf2
      have hlen2 : buf2.length = buf.length := by
        rw [← hb2]
        split
        · rw [List.length_set, hlen]
        · exact hlen
      have hover : overlay buf2 0 (printkText raw ++ [0])
          = printkText raw ++ [0] ++ buf2.drop ((printkText raw).length + 1) := by
        rw [overlay, List.take_zero, List.nil_append, Nat.zero_add, List.length_append,
          List.length_singleton]
      refine ⟨_, rfl, ?_, ?_⟩
      · show (overlay buf2 0 (printkText raw ++ [0])).length = buf.length
        rw [hover]
        simp
        omega
      · show Shows (overlay buf2 0 (printkText raw ++ [0])) (printkText raw)
        rw [hover]
        exact shows_write (by omega)

theorem printfRec_law (h : Law n t f) {r : PrintfRec} {printk : Bool}
    (hok : r.Ok n t.length printk) :
    ∃ f', formatPrintfRecIntoFmtBuf r printk f = some f' ∧ Law n (t ++ r.shown printk) f' := by
  cases r with
  | bad => exact hok.elim
  | parsed pieces failed =>
    obtain ⟨rfl, hin, hall, hprintk⟩ := hok
    have hroom := h.room_eq
    have hdrop : (f.buf.drop t.length).length = n - t.length := by rw [List.length_drop, h.size]
    have hnext : f.next.toNat = t.length := by
      rw [h.next]
      rfl
    have hpos : 0 < (f.buf.drop t.length).length := by omega
    obtain ⟨sub, hsub, hlen, hshows⟩ := evlFormatPrintfRec_shows hpos (by rw [hdrop]; exact hall)
      (fun hp => (hprintk hp).imp_left (by rw [hdrop]; omega))
    rw [hdrop] at hlen
    have htake : f.buf.take t.length = t := h.shows.take_eq (by rw [h.size]; exact hin)
    generalize hshown : PrintfRec.shown printk (.parsed pieces false) = shown at hsub hshows ⊢
    refine ⟨{ buf := f.buf.take t.length ++ sub, next := f.next + shown.length,
              oflow := n ≤ f.next + shown.length }, ?_, ?_⟩
    · rw [formatPrintfRecIntoFmtBuf, if_neg (by omega), if_neg (by rw [h.next]; omega), hnext, hsub]
      simp [h.size]
    · refine ⟨?_, ?_, ?_, ?_⟩
      · show (f.buf.take t.length ++ sub).length = n
        rw [htake, List.length_append, hlen]
        omega
      · show f.next + _ = _
        rw [h.next, List.length_append]
        push_cast
        rfl
      · exact shows_splice h.shows (by rw [h.size]; exact hin) (by rw [hlen, h.size]; omega) hshows
      · show decide _ = true ↔ _
        rw [decide_eq_true_eq, h.next, List.length_append]
        omega

end

/-! ## Every piece of formatting -/

mutual

/-- The condition for a piece of formatting in a buffer of `n` bytes, behind
`p` bytes of text. -/
def Op.Ok (n p : Nat) : Op → Prop
  | .bprintf o => o.Ok n p
  | .dump data => DumpOk n p data
  | .printfRec r printk => r.Ok n p printk
  | .scalars delimiter elements => OkAll n p (elements.intersperse delimiter)
  | .bitmap val maps => OkAll n p (Util.bitmap val maps)
  | .record segments => RecordOk n p segments
  | .structs delimiter fmt elements =>
    StructsOk n (structBufsz ((n : Int) - p)) delimiter fmt elements 0 p

def RecordOk (n : Nat) : Nat → List Op → Prop
  | _, [] => True
  | p, op :: ops => op.Ok n p ∧ RecordOk n (p + op.text.length) ops

/-- The condition for an array of structs: each of them fits the temporary
buffer of `m` bytes, and the conditions hold in there. -/
def StructsOk (n m : Nat) (delimiter : Outcome) (fmt : Nat → List UInt8 → Outcome) :
    List (List Op) → Nat → Nat → Prop
  | [], _, _ => True
  | st :: sts, i, p =>
    let sep := if i = 0 then [] else delimiter.shown
    let element := fmt i (untilNull (textAll st))
    RecordOk m 0 st ∧ (textAll st).length < m ∧ (i = 0 ∨ delimiter.Ok n p)
      ∧ element.Ok n (p + sep.length)
      ∧ StructsOk n m delimiter fmt sts (i + 1) (p + (sep ++ element.shown).length)

end

theorem recordOk_of_append {n p : Nat} {ops ops' : List Op} (h : RecordOk n p (ops ++ ops')) :
    RecordOk n p ops := by
  induction ops generalizing p with
  | nil => trivial
  | cons op ops ih => exact ⟨h.1, ih h.2⟩

section

variable (malloc : (n : Nat) → {bs : List UInt8 // bs.length = n})

theorem delimit_law {n i : Nat} {t : List UInt8} {f : FmtBuf} (h : Law n t f)
    {delimiter : Outcome} (hok : i = 0 ∨ delimiter.Ok n t.length) :
    ∃ g, delimit i delimiter f = some g
      ∧ Law n (t ++ if i = 0 then [] else delimiter.shown) g := by
  rw [delimit]
  by_cases hi : i = 0
  · rw [if_pos hi, if_pos hi, List.append_nil]
    exact ⟨f, rfl, h⟩
  · rw [if_neg hi, if_neg hi]
    exact bprintf_law h (hok.resolve_left hi)

theorem structBufsz_pos (room : Int) : 0 < structBufsz room := by
  rw [structBufsz, scratchPadSize]
  split <;> omega

mutual

/-- A piece of formatting that meets its condition keeps the law. -/
theorem Op.exec_law {n : Nat} {t : List UInt8} {f : FmtBuf} (h : Law n t f) :
    ∀ op : Op, op.Ok n t.length → ∃ f', op.exec malloc f = some f' ∧ Law n (t ++ op.text) f'
  | .bprintf _, hok => bprintf_law h hok
  | .dump _, hok => dump_law h hok
  | .printfRec _ _, hok => printfRec_law h hok
  | .scalars delimiter elements, hok => by
    obtain ⟨f', hf', hlaw⟩ := bprintfAll_law h hok
    exact ⟨f', (formatArrayOfScalars_eq delimiter elements f).trans hf', hlaw⟩
  | .bitmap _ _, hok => bprintfAll_law h hok
  | .record segments, hok => formatRecord_law h segments hok
  | .structs delimiter fmt elements, hok => by
    have hm := (malloc (structBufsz ((n : Int) - t.length))).property
    have hstructs := formatStructs_law h delimiter fmt elements 0 _
      (hm.trans_gt (structBufsz_pos _)) (by rw [hm]; exact hok)
    rwa [← h.room_eq] at hstructs

theorem formatRecord_law {n : Nat} {t : List UInt8} {f : FmtBuf} (h : Law n t f) :
    ∀ ops : List Op, RecordOk n t.length ops →
      ∃ f', formatRecord malloc ops f = some f' ∧ Law n (t ++ textAll ops) f'
  | [], _ => ⟨f, rfl, by rwa [textAll, List.append_nil]⟩
  | op :: ops, hok => by
    obtain ⟨g, hg, hlaw⟩ := Op.exec_law h op hok.1
    obtain ⟨f', hf', hlaw'⟩ := formatRecord_law hlaw ops (by
      rw [List.length_append]
      exact hok.2)
    refine ⟨f', ?_, by rwa [textAll, ← List.append_assoc]⟩
    rw [formatRecord, hg]
    exact hf'

theorem formatStructs_law {n : Nat} {t : List UInt8} {f : FmtBuf} (h : Law n t f)
    (delimiter : Outcome) (fmt : Nat → List UInt8 → Outcome) :
    ∀ (sts : List (List Op)) (i : Nat) (buf : List UInt8), 0 < buf.length →
      StructsOk n buf.length delimiter fmt sts i t.length →
      ∃ f', formatStructsLoop malloc delimiter fmt sts i buf f = some f'
        ∧ Law n (t ++ textStructs delimiter fmt sts i) f'
  | [], _, _, _, _ => ⟨f, rfl, by rwa [textStructs, List.append_nil]⟩
  | st :: sts, i, buf, hbuf, hok => by
    obtain ⟨hst, hfits, hdelim, helement, hrest⟩ := hok
    obtain ⟨stbuf, hstbuf, hlawst⟩ := formatRecord_law (law_makeFmtBuf hbuf) st hst
    rw [List.nil_append] at hlawst
    have hoflow : ¬ stbuf.oflow = true := by
      rw [hlawst.oflow]
      omega
    have hstring : untilNull stbuf.buf = untilNull (textAll st) :=
      hlawst.shows.untilNull_eq (by rw [hlawst.size]; exact hfits)
    -- the delimiter, the struct, and then the others
    obtain ⟨g, hg, hlawg⟩ := delimit_law h hdelim
    obtain ⟨g', hg', hlawg'⟩ := bprintf_law hlawg (by rw [List.length_append]; exact helement)
    obtain ⟨f', hf', hlawf'⟩ := formatStructs_law hlawg' delimiter fmt sts (i + 1) stbuf.buf
      (by rw [hlawst.size]; exact hbuf)
      (by rw [hlawst.size, List.append_assoc, List.length_append]; exact hrest)
    refine ⟨f', ?_, ?_⟩
    · simp only [formatStructsLoop, hstbuf, if_neg hoflow, hg, hstring, hg', Option.bind_eq_bind,
        Option.bind_some]
      exact hf'
    · rwa [textStructs, ← List.append_assoc, ← List.append_assoc]

end

/-- Where every piece meets its condition, the buffer holds as much of the text
as it has room for after each of them, nothing is written outside it, the
length that is reported is that of the text, whatever the size of the buffer,
and the overflow flag says whether the text did not fit. -/
theorem formatRecord_all_sizes (ops : List Op) :
    ∀ buf : List UInt8, 1 ≤ buf.length → RecordOk buf.length 0 ops →
      ∀ done rest : List Op, done ++ rest = ops →
        ∃ f, formatRecord malloc done (makeFmtBuf buf) = some f ∧ f.buf.length = buf.length
          ∧ f.next = (textAll done).length ∧ Shows f.buf (textAll done)
          ∧ (f.oflow = true ↔ buf.length ≤ (textAll done).length) := by
  intro buf hbuf hok done rest heq
  subst heq
  obtain ⟨f, hf, hlaw⟩ := formatRecord_law malloc (law_makeFmtBuf hbuf) done
    (recordOk_of_append hok)
  rw [List.nil_append] at hlaw
  exact ⟨f, hf, hlaw.size, hlaw.next, hlaw.shows, hlaw.oflow⟩

end

def zeroed (n : Nat) : {bs : List UInt8 // bs.length = n} := ⟨List.replicate n 0, List.length_replicate⟩

/-- The text `ab`, and then a record of the printf kind whose text is `c`. -/
def abc : List Op :=
  [.bprintf (.text ⟨[97, 98], by decide⟩),
    .printfRec (.parsed [.text ⟨[99], by decide⟩] false) false]

/-- There is room for `abc` in ten bytes. -/
theorem formatRecord_ten_bytes :
    ∃ f, formatRecord zeroed abc (makeFmtBuf (List.replicate 10 0)) = some f ∧ f.next = 3
      ∧ Shows f.buf [97, 98, 99] ∧ f.oflow = false := by
  have hok : RecordOk 10 0 abc :=
    ⟨⟨by decide, Or.inr (Or.inl (by decide))⟩,
      ⟨rfl, by decide, ⟨⟨by decide, Or.inr (Or.inl (by decide))⟩, trivial⟩, fun h => nomatch h⟩,
      trivial⟩
  obtain ⟨f, hf, -, hnext, hshows, hoflow⟩ :=
    formatRecord_all_sizes zeroed abc (List.replicate 10 0) (by decide) hok abc [] (by simp)
  refine ⟨f, hf, hnext, hshows, ?_⟩
  rw [← Bool.not_eq_true, hoflow]
  decide

/-- Of `abc` two bytes are reported to be needed in a buffer of two, and three
in one of ten. -/
theorem formatRecord_not_all_sizes :
    (formatRecord zeroed abc (makeFmtBuf (List.replicate 2 0))).map FmtBuf.next = some 2
      ∧ (formatRecord zeroed abc (makeFmtBuf (List.replicate 10 0))).map FmtBuf.next = some 3 := by
  decide

end Evlog.Util
