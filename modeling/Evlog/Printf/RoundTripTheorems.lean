/-
Evlog.Printf.RoundTripTheorems — printf records say what was logged.

`packConversions_done` says what packing has stored, `formatSegments_of_ahead`
what is made of it, both by the segments of the format and their arguments.
The text of the record is then that of the format, whatever a conversion
with its argument comes out as (`printf_round_trip_iff`), but for two kinds
of formats that the packing accepts: those with a `%` at their end, which
does not come out, and those with an array conversion of more than 19
characters, the `%` among them, at which the formatting is aborted.
-/
import Evlog.Printf.Grammar
import Evlog.Printf.Reading
import Evlog.Util.FmtBufTheorems

namespace Evlog.Printf

open Evlog.Lib
open Evlog.Posix (CharPtr WcharPtr Object Packing Piece memcpyex packString packWstring serialise maxlen
  posixLogEntryMaxlen)
open Evlog.Template (BaseType archTypeInfo)
open Evlog.Util (Outcome shownAll)

/-! ## Types -/

def Passable (type : BaseType) : Prop := type = .string ∨ type = .wstring ∨ passed type = true

instance (type : BaseType) : Decidable (Passable type) := inferInstanceAs (Decidable (_ ∨ _ ∨ _))

variable {mod format : List UInt8} {promote : Bool} {type : BaseType}

theorem adjustCharType_base (h : adjustCharType mod promote = .base type) : Passable type := by
  unfold adjustCharType at h
  split_ifs at h <;> cases h <;> decide

theorem adjustIntType_base (h : adjustIntType mod promote = .base type) : Passable type := by
  unfold adjustIntType at h
  split_ifs at h <;> cases h <;> decide

theorem adjustDoubleType_base (h : adjustDoubleType mod = .base type) : Passable type := by
  unfold adjustDoubleType at h
  split_ifs at h <;> cases h <;> decide

theorem adjustStringType_base (h : adjustStringType mod = .base type) : Passable type := by
  unfold adjustStringType at h
  split_ifs at h <;> cases h <;> decide

theorem validateNConversion_base : validateNConversion mod ≠ .base type := by
  unfold validateNConversion
  split_ifs <;> exact nofun

variable {pf : ParsedFormat}

/-- What is true of the types of all kinds of conversions is true of a
conversion's. -/
theorem evlGetTypeFromConversion_of {P : BaseType → Prop}
    (h : evlGetTypeFromConversion pf promote true = .base type)
    (hchar : ∀ type, adjustCharType pf.fmModifier promote = .base type → P type)
    (hint : ∀ type, adjustIntType pf.fmModifier promote = .base type → P type)
    (hdouble : ∀ type, adjustDoubleType pf.fmModifier = .base type → P type)
    (hstring : ∀ type, adjustStringType pf.fmModifier = .base type → P type) (haddress : P .address)
    (hwchar : P .wchar) (hwstring : P .wstring) : P type := by
  rcases evlGetTypeFromConversion_cases pf promote with
    ⟨-, htype⟩ | ⟨-, htype⟩ | ⟨-, htype⟩ | ⟨-, htype⟩ | ⟨-, htype⟩ | ⟨-, htype⟩ | ⟨-, htype⟩ |
      ⟨-, htype⟩ | ⟨-, htype⟩
  all_goals rw [htype] at h
  · exact hchar type h
  · exact hint type h
  · exact hdouble type h
  · exact hstring type h
  · split_ifs at h
    cases h
    exact haddress
  · split_ifs at h
    cases h
    exact hwchar
  · split_ifs at h
    cases h
    exact hwstring
  · exact absurd h validateNConversion_base
  · cases h

theorem evlGetTypeFromConversion_base (h : evlGetTypeFromConversion pf promote true = .base type) :
    Passable type :=
  evlGetTypeFromConversion_of h (fun _ => adjustCharType_base) (fun _ => adjustIntType_base)
    (fun _ => adjustDoubleType_base) (fun _ => adjustStringType_base) (by decide) (by decide) (by decide)

/-! ## Packing -/

def ArrayArg.pieces : ArrayArg → List Piece
  | ⟨.scalars _ values, _, h⟩ => [.block (arrayObject values h)]
  | ⟨.strings ss, _, _⟩ => ss.map .string
  | ⟨.wstrings ss, _, _⟩ => ss.map fun s => .block s.object

def Arg.pieces : Arg → List Piece
  | .scalar _ v => [.block v.object]
  | .string s => [.string s]
  | .wstring s => [.block s.object]
  | .array a => .block (dimObject a.elements.length) :: .string a.delim :: a.pieces

theorem ArrayArg.serialise_pieces (a : ArrayArg) :
    serialise a.pieces = a.elements.passed.flatMap Passed.bytes := by
  obtain ⟨elements, delim, hlt⟩ := a
  cases elements with
  | scalars type values =>
    rw [ArrayArg.pieces, serialise, List.flatMap_singleton, Elements.passed, List.flatMap_map]
    rfl
  | strings ss =>
    rw [ArrayArg.pieces, serialise, List.flatMap_map, Elements.passed, List.flatMap_map]
    rfl
  | wstrings ss =>
    rw [ArrayArg.pieces, serialise, List.flatMap_map, Elements.passed, List.flatMap_map]
    rfl

theorem Arg.serialise_pieces (arg : Arg) : serialise arg.pieces = arg.bytes := by
  cases arg with
  | scalar _ v => exact List.flatMap_singleton ..
  | string s => exact List.flatMap_singleton ..
  | wstring s => exact List.flatMap_singleton ..
  | array a =>
    rw [Arg.bytes, List.append_assoc, ← a.serialise_pieces]
    rfl

variable {st st' : Packing} {args rest : List Arg}

/-- What is packed for an array are its pieces, and the elements are of the
type. -/
theorem packArray_next {a : ArrayArg} (htype : Passable type)
    (h : packArray st a (.base type) args = .next rest st') :
    args = rest ∧ type = a.elements.type ∧ (∀ p ∈ a.elements.passed, p.IsOf type) ∧
      st' = (Arg.array a).pieces.foldl Piece.exec st := by
  obtain ⟨elements, delim, hlt⟩ := a
  have hfold : ∀ ps : List Piece, (Piece.block (dimObject elements.length) :: .string delim :: ps).foldl Piece.exec st
      = ps.foldl Piece.exec (packString (memcpyex st (dimObject elements.length)) delim) := fun _ => rfl
  rw [Arg.pieces, hfold]
  cases elements with
  | strings ss =>
    cases type <;> cases h
    refine ⟨rfl, rfl, fun p hp => ?_, ?_⟩
    · obtain ⟨s, -, rfl⟩ := List.mem_map.1 hp
      exact ⟨rfl, s.string.noNul⟩
    · rw [ArrayArg.pieces, List.foldl_map]
      rfl
  | wstrings ss =>
    cases type <;> cases h
    refine ⟨rfl, rfl, fun p hp => ?_, ?_⟩
    · obtain ⟨s, -, rfl⟩ := List.mem_map.1 hp
      exact ⟨rfl, s.noNul⟩
    · rw [ArrayArg.pieces, List.foldl_map]
      rfl
  | scalars type' values =>
    have hcode : packArray st ⟨.scalars type' values, delim, hlt⟩ (.base type) args =
        if type = type' ∧ passed type = true then
          .next args (memcpyex (packString (memcpyex st (dimObject values.length)) delim) (arrayObject values hlt))
        else .noArg := by
      rcases htype with rfl | rfl | hpassed
      · rw [if_neg fun hc => Bool.noConfusion hc.2]
        rfl
      · rw [if_neg fun hc => Bool.noConfusion hc.2]
        rfl
      · have hscalar : packArray st ⟨.scalars type' values, delim, hlt⟩ (.base type) args =
            if ConvType.base type = .base type' then
              .next args (memcpyex (packString (memcpyex st (dimObject values.length)) delim) (arrayObject values hlt))
            else .noArg := by
          cases type <;> first | rfl | cases hpassed
        simp only [hscalar, hpassed, and_true, ConvType.base.injEq]
    rw [hcode] at h
    split at h
    · next heq =>
      obtain ⟨rfl, hpassed⟩ := heq
      cases h
      refine ⟨rfl, rfl, fun p hp => ?_, rfl⟩
      obtain ⟨v, -, rfl⟩ := List.mem_map.1 hp
      exact ⟨rfl, v.size, hpassed⟩
    · cases h

/-- What a turn of the loop packs is an argument that fits the conversion. -/
theorem packConversion_next (h : packConversion pf args st = .next rest st') :
    ∃ arg, args = arg :: rest ∧ arg.Fits pf ∧ st' = arg.pieces.foldl Piece.exec st := by
  unfold packConversion at h
  split at h
  · next harray =>
    split at h
    · next a args =>
      cases htype : evlGetTypeFromConversion pf false true with
      | none =>
        rw [htype] at h
        cases h
      | special =>
        rw [htype] at h
        cases h
      | base type =>
        rw [htype] at h
        obtain ⟨rfl, hsame, helements, rfl⟩ := packArray_next (evlGetTypeFromConversion_base htype) h
        exact ⟨.array a, rfl, ⟨harray, hsame ▸ htype, hsame ▸ helements⟩, rfl⟩
    · cases h
  · next harray =>
    rw [Bool.not_eq_true] at harray
    split at h
    · cases h
    · cases h
    · next htype =>
      split at h
      · next s args =>
        cases h
        exact ⟨.string s, rfl, ⟨harray, htype⟩, rfl⟩
      · cases h
    · next htype =>
      split at h
      · next s args =>
        cases h
        exact ⟨.wstring s, rfl, ⟨harray, htype⟩, rfl⟩
      · cases h
    · next type hne hne' htype =>
      split at h
      · cases h
      · next hcopied =>
        split at h
        · next type' v args =>
          split at h
          · next heq =>
            subst heq
            cases h
            exact ⟨.scalar type v, rfl, ⟨harray, htype, by simpa using hcopied⟩, rfl⟩
          · cases h
        · cases h

variable {segs : List Segment}

/-- The loop packs arguments that fit the conversions, one after the other. -/
theorem packConversions_done (h : packConversions segs args st = .done none st') :
    ∃ used rest, args = used ++ rest ∧
      List.Forall₂ (fun pf (arg : Arg) => arg.Fits pf) (conversions segs) used ∧
      st' = (used.flatMap Arg.pieces).foldl Piece.exec st := by
  induction segs generalizing args st with
  | nil =>
    cases h
    exact ⟨[], args, rfl, .nil, rfl⟩
  | cons seg segs ih =>
    cases seg with
    | string s => cases h
    | printfConv pf userfmt =>
      rw [packConversions] at h
      split at h
      · cases h
      · cases h
      · cases h
      · next args₁ st₁ hstep =>
        obtain ⟨arg, rfl, hfit, rfl⟩ := packConversion_next hstep
        obtain ⟨used, rest, rfl, hall, rfl⟩ := ih h
        refine ⟨arg :: used, rest, rfl, .cons hfit hall, ?_⟩
        rw [List.flatMap_cons, List.foldl_append]

theorem run_fits (ps : List Piece) (st : Packing) (hreclen : st.reclen.toNat = st.written.length)
    (hfits : (st.written ++ serialise ps).length ≤ posixLogEntryMaxlen) :
    (ps.foldl Piece.exec st).written = st.written ++ serialise ps ∧
      (ps.foldl Piece.exec st).reclen.toNat = (st.written ++ serialise ps).length := by
  induction ps generalizing st with
  | nil =>
    rw [serialise, List.flatMap_nil, List.append_nil]
    exact ⟨rfl, hreclen⟩
  | cons p ps ih =>
    have hserial : st.written ++ serialise (p :: ps) = st.written ++ p.bytes ++ serialise ps := by
      rw [serialise, List.flatMap_cons, List.append_assoc]
      rfl
    rw [hserial] at hfits ⊢
    obtain ⟨hwritten, hcount⟩ := p.exec_eq st
    rw [List.length_append, List.length_append] at hfits
    have hsize : p.bytes.length = p.size := rfl
    rw [Posix.counted_of_le (by omega), hreclen] at hcount
    rw [Posix.stored_of_le (by omega), hreclen, if_pos (by omega)] at hwritten
    have hrest := ih (p.exec st) (by rw [hcount, hwritten, List.length_append, hsize])
      (by rw [hwritten, List.length_append, List.length_append]; omega)
    rw [hwritten] at hrest
    exact hrest

def packedForm (format : CharPtr) (args : List Arg) : List UInt8 :=
  format.bytes ++ dimBytes 0 ++ args.flatMap Arg.bytes

/-- The size goes into the four bytes that are kept for it. -/
theorem plugInArgsz_written {args : List UInt8} (h : st.written = format ++ (dimBytes 0 ++ args))
    (goesHere startHere : UInt64) (hhere : goesHere.toNat = format.length) :
    ∃ argsz, argsz.length = 4 ∧ (plugInArgsz goesHere startHere st).written = format ++ argsz ++ args := by
  unfold plugInArgsz
  split
  · refine ⟨dimBytes (st.reclen - startHere).toUInt32.toNat, leBytes_length 4 _, ?_⟩
    have hlen : (dimBytes (st.reclen - startHere).toUInt32.toNat).length = 4 := leBytes_length 4 _
    have hdrop : (format ++ (dimBytes 0 ++ args)).drop (format.length + 4) = args := by
      rw [← List.drop_drop, List.drop_left]
      rfl
    rw [overlay, h, hhere, hlen, List.take_left, hdrop]
  · exact ⟨dimBytes 0, rfl, by rw [h, List.append_assoc]⟩

/-- A record that is packed has the format, four bytes for the size, and the
arguments that fit the conversions. -/
theorem evlPackFormatAndArgs_done {format : CharPtr}
    (h : evlPackFormatAndArgs format args .empty = .done none st)
    (hfits : (packedForm format args).length ≤ posixLogEntryMaxlen) :
    ∃ parsedFmt used rest argsz, evlParsePrintfFormat false format.string.bytes = .ok parsedFmt ∧
      args = used ++ rest ∧
      List.Forall₂ (fun pf (arg : Arg) => arg.Fits pf) (conversions parsedFmt) used ∧
      argsz.length = 4 ∧ st.written = format.bytes ++ argsz ++ used.flatMap Arg.bytes := by
  unfold evlPackFormatAndArgs at h
  split at h
  · cases h
  · cases h
  · next parsedFmt hparse =>
    dsimp only at h
    split at h
    · next st₃ hpack =>
      obtain ⟨used, rest, rfl, hall, rfl⟩ := packConversions_done hpack
      have hserial : serialise (used.flatMap Arg.pieces) = used.flatMap Arg.bytes := by
        rw [serialise, List.flatMap_assoc]
        exact List.flatMap_congr fun arg _ => arg.serialise_pieces
      have hdim : (dimBytes 0).length = 4 := rfl
      rw [packedForm, List.flatMap_append] at hfits
      simp only [List.length_append, hdim] at hfits
      have hfirst := run_fits [.string format] .empty rfl (by
        rw [serialise, List.flatMap_singleton]
        exact le_trans (by simp [Packing.empty, Piece.bytes]) (show format.bytes.length ≤ _ by omega))
      rw [List.foldl_cons, List.foldl_nil, serialise, List.flatMap_singleton] at hfirst
      change (packString .empty format).written = format.bytes ∧
        (packString .empty format).reclen.toNat = format.bytes.length at hfirst
      have hrun := run_fits (.block (dimObject 0) :: used.flatMap Arg.pieces) (packString .empty format)
        (by rw [hfirst.1, hfirst.2]) (by
          rw [serialise, List.flatMap_cons, ← serialise, hserial, hfirst.1]
          simp only [List.length_append]
          exact le_trans (by change _ + (4 + _) ≤ _; omega) hfits)
      change ((used.flatMap Arg.pieces).foldl Piece.exec (memcpyex (packString .empty format) (dimObject 0))).written
          = _ ∧ _ at hrun
      have hbytes : serialise (.block (dimObject 0) :: used.flatMap Arg.pieces)
          = dimBytes 0 ++ used.flatMap Arg.bytes := by
        rw [← hserial]
        exact List.flatMap_cons
      rw [hbytes, hfirst.1] at hrun
      obtain ⟨argsz, hlen, hplug⟩ := plugInArgsz_written hrun.1 (packString .empty format).reclen
        (memcpyex (packString .empty format) (dimObject 0)).reclen hfirst.2
      injection h with _ hst
      subst hst
      exact ⟨parsedFmt, used, rest, argsz, hparse, rfl, hall, hlen, hplug⟩
    · next status st' hne hpack =>
      injection h with hstatus
      exact (hne hstatus).elim
    · next hne =>
      exact (hne _ _ h).elim

/-! ## Formatting -/

def Segment.Short : Segment → Prop
  | .string _ => True
  | .printfConv pf userfmt => Printf.Short pf (userfmt.getD [])

def segmentCalls : List Segment → List Arg → List Call
  | [], _ => []
  | .string s :: segs, args => .text s :: segmentCalls segs args
  | .printfConv _ userfmt :: segs, arg :: args => arg.calls (userfmt.getD []) ++ segmentCalls segs args
  | .printfConv _ _ :: segs, [] => segmentCalls segs []

/-- Of the bytes of its arguments a format makes their calls, up to a
conversion of an array that is too long. -/
theorem formatSegments_of_ahead
    (hfit : List.Forall₂ (fun pf (arg : Arg) => arg.Fits pf) (conversions segs) args) {b : Recbuf}
    (h : b.ahead = args.flatMap Arg.bytes) :
    ((∀ seg ∈ segs, seg.Short) → formatSegments segs b = some (segmentCalls segs args, false)) ∧
      ((∃ seg ∈ segs, ¬seg.Short) → formatSegments segs b = none) := by
  induction segs generalizing args b with
  | nil => exact ⟨fun _ => rfl, fun ⟨seg, hseg, _⟩ => absurd hseg List.not_mem_nil⟩
  | cons seg segs ih =>
    cases seg with
    | string s =>
      obtain ⟨hshort, hlong⟩ := ih hfit h
      rw [formatSegments]
      refine ⟨fun hall => ?_, fun ⟨seg, hseg, hno⟩ => ?_⟩
      · rw [hshort fun seg hseg => hall seg (List.mem_cons_of_mem _ hseg)]
        rfl
      · rcases List.mem_cons.1 hseg with rfl | hseg
        · exact absurd trivial hno
        · rw [hlong ⟨seg, hseg, hno⟩]
          rfl
    | printfConv pf userfmt =>
      change List.Forall₂ _ (pf :: conversions segs) args at hfit
      cases hfit with
      | @cons _ arg _ args harg hrest =>
        rw [List.flatMap_cons] at h
        have hlen := b.length_ahead
        have hpos := harg.bytes_pos
        rw [h, List.length_append] at hlen
        have hleft : ¬b.left ≤ 0 := by
          unfold Recbuf.left
          omega
        obtain ⟨hconv, hnone⟩ := formatConversion_of_fits harg (userfmt.getD []) h
        obtain ⟨hshort, hlong⟩ := ih hrest (Recbuf.ahead_skip_of h)
        rw [formatSegments, if_neg hleft]
        refine ⟨fun hall => ?_, fun ⟨seg, hseg, hno⟩ => ?_⟩
        · rw [hconv (hall _ List.mem_cons_self)]
          dsimp only
          rw [hshort fun seg hseg => hall seg (List.mem_cons_of_mem _ hseg)]
          rfl
        · by_cases hfirst : Short pf (userfmt.getD [])
          · rw [hconv hfirst]
            dsimp only
            rcases List.mem_cons.1 hseg with rfl | hseg
            · exact absurd hfirst hno
            · rw [hlong ⟨seg, hseg, hno⟩]
              rfl
          · rw [hnone hfirst]

/-! ## The text -/

section

variable (vsnprintf : List UInt8 → Passed → Outcome)

/-- The text of a conversion: of an array, the elements as the conversion
without its bracket makes them, with the delimiter between. -/
def Arg.text (spec : List UInt8) : Arg → List UInt8
  | .scalar type v => (vsnprintf (0x25 :: spec) (.scalar type v.bytes)).shown
  | .string s => (vsnprintf (0x25 :: spec) (.string s.string.bytes)).shown
  | .wstring s => (vsnprintf (0x25 :: spec) (.wstring s.chars)).shown
  | .array a =>
    ((a.elements.passed.map fun p => (vsnprintf (0x25 :: squeeze spec) p).shown).intersperse
      a.delim.string.bytes).flatten

def itemsText : List Item → List Arg → List UInt8
  | [], _ => []
  | .char c :: items, args => c :: itemsText items args
  | .lone :: items, args => 0x25 :: itemsText items args
  | .conv spec :: items, arg :: args => arg.text vsnprintf spec ++ itemsText items args
  | .conv _ :: items, [] => itemsText items []

theorem itemsText_chars (s : List UInt8) (items : List Item) (args : List Arg) :
    itemsText vsnprintf (s.map .char ++ items) args = s ++ itemsText vsnprintf items args := by
  induction s with
  | nil => rfl
  | cons c s ih => rw [List.map_cons, List.cons_append, itemsText, ih, List.cons_append]

theorem length_itemsText_filter (items : List Item) (args : List Arg) :
    (itemsText vsnprintf items args).length
      = (itemsText vsnprintf (items.filter (· ≠ .lone)) args).length + items.count .lone := by
  induction items generalizing args with
  | nil => rfl
  | cons item items ih =>
    cases item with
    | char c =>
      rw [List.filter_cons_of_pos rfl, itemsText, itemsText, List.length_cons, List.length_cons, ih,
        List.count_cons_of_ne (by simp)]
      omega
    | lone =>
      rw [List.filter_cons_of_neg (by simp), itemsText, List.length_cons, ih, List.count_cons_self]
      omega
    | conv spec =>
      rw [List.filter_cons_of_pos rfl, List.count_cons_of_ne (by simp)]
      cases args with
      | nil => rw [itemsText, itemsText, ih]
      | cons arg args =>
        rw [itemsText, itemsText, List.length_append, List.length_append, ih]
        omega

theorem shownAll_append (os os' : List Outcome) : shownAll (os ++ os') = shownAll os ++ shownAll os' :=
  List.flatMap_append

theorem shown_ofBytes {s : List UInt8} (h : s.length < 2 ^ 31) : (Outcome.ofBytes s).shown = s := by
  rw [Outcome.ofBytes, dif_pos h]
  rfl

/-- The elements come out with the delimiter between them. -/
theorem shownAll_elementCalls (fmt : List UInt8) {delim : List UInt8} (hdelim : delim.length < 2 ^ 31)
    (ps : List Passed) :
    shownAll ((elementCalls fmt delim true ps).map (Call.outcome vsnprintf))
      = ((ps.map fun p => (vsnprintf fmt p).shown).intersperse delim).flatten := by
  cases ps with
  | nil => rfl
  | cons p ps =>
    rw [elementCalls, if_pos rfl, List.nil_append, List.map_cons, List.map_cons]
    induction ps generalizing p with
    | nil => simp [elementCalls, shownAll, Call.outcome]
    | cons q ps ih =>
      have hrest := ih q
      rw [List.map_cons, List.intersperse_cons_cons, List.flatten_cons, List.flatten_cons, ← hrest,
        elementCalls, if_neg (by simp)]
      simp only [shownAll, List.map_cons, List.cons_append, List.nil_append, List.flatMap_cons, Call.outcome,
        shown_ofBytes hdelim]

theorem Arg.shownAll_calls {arg : Arg} (hsize : arg.bytes.length < 2 ^ 31) (spec : List UInt8) :
    shownAll ((arg.calls (0x25 :: spec)).map (Call.outcome vsnprintf)) = arg.text vsnprintf spec := by
  cases arg with
  | scalar type v => exact List.flatMap_singleton ..
  | string s => exact List.flatMap_singleton ..
  | wstring s => exact List.flatMap_singleton ..
  | array a =>
    have hdelim : a.delim.string.bytes.length < 2 ^ 31 := by
      rw [Arg.bytes, CharPtr.bytes] at hsize
      simp only [List.length_append] at hsize
      omega
    exact shownAll_elementCalls vsnprintf _ hdelim _

/-- The calls for the segments come out as the text of their items. -/
theorem shownAll_segmentCalls {segs : List Segment} (hmade : ∀ seg ∈ segs, seg.Made)
    (hstrings : (segs.flatMap Segment.items).length < 2 ^ 31) {used : List Arg}
    (hfit : List.Forall₂ (fun pf (arg : Arg) => arg.Fits pf) (conversions segs) used)
    (hsize : ∀ arg ∈ used, arg.bytes.length < 2 ^ 31) (rest : List Arg) :
    shownAll ((segmentCalls segs used).map (Call.outcome vsnprintf))
      = itemsText vsnprintf (segs.flatMap Segment.items) (used ++ rest) := by
  induction segs generalizing used with
  | nil => rfl
  | cons seg segs ih =>
    rw [List.flatMap_cons, List.length_append] at hstrings
    have hmade' : ∀ seg ∈ segs, seg.Made := fun seg hseg => hmade seg (List.mem_cons_of_mem _ hseg)
    cases seg with
    | string s =>
      have hs : s.length < 2 ^ 31 := by
        rw [Segment.items, List.length_map] at hstrings
        omega
      rw [segmentCalls, List.map_cons, List.flatMap_cons, Segment.items, itemsText_chars,
        ← ih hmade' (by omega) hfit hsize]
      exact congrArg (· ++ _) (shown_ofBytes hs)
    | printfConv pf userfmt =>
      obtain ⟨spec, rfl, -⟩ := hmade _ List.mem_cons_self
      change List.Forall₂ _ (pf :: conversions segs) used at hfit
      cases hfit with
      | @cons _ arg _ used harg hrest =>
        have hrest' := ih hmade' (by omega) hrest fun a ha => hsize a (List.mem_cons_of_mem _ ha)
        rw [segmentCalls, List.map_append, shownAll_append, hrest', Option.getD_some,
          arg.shownAll_calls vsnprintf (hsize arg List.mem_cons_self)]
        rfl

/-! ## The round trip -/

/-- The data of a record are formatted to the text of the format and its
arguments, in any buffer that has room for it. -/
def RoundTrips (format : CharPtr) (args : List Arg) (data : List UInt8) : Prop :=
  ∃ cs, evlFormatPrintfRec data = some (.calls cs false) ∧
    shownAll (cs.map (Call.outcome vsnprintf)) = itemsText vsnprintf (items format.string.bytes) args ∧
    ∀ buf : List UInt8, (itemsText vsnprintf (items format.string.bytes) args).length < buf.length →
      buf.length < 2 ^ 31 →
      ∃ sub, Util.evlFormatPrintfRec ((Formatting.calls cs false).printfRec vsnprintf) buf false
          = some (sub, (itemsText vsnprintf (items format.string.bytes) args).length + 1) ∧
        Shows sub (itemsText vsnprintf (items format.string.bytes) args)

end

/-- A format that can be read back: there is no `%` at its end, and its array
conversions have no more than 19 characters, which is 18 behind the `%`. -/
structure Readable (format : List UInt8) : Prop where
  noLone : .lone ∉ items format
  short : ∀ spec, .conv spec ∈ items format → 0x5b ∈ spec → spec.length < 19

theorem length_items_le (format : List UInt8) : (items format).length ≤ format.length := by
  have hloop : ∀ (n : Nat) (f : List UInt8), (itemsLoop n f).length ≤ f.length := by
    intro n
    induction n with
    | zero => exact fun f => Nat.zero_le _
    | succ n ih =>
      intro f
      match f with
      | [] => exact le_rfl
      | [c] =>
        change (if c = 0x25 then [Item.lone] else [.char c]).length ≤ 1
        split <;> exact le_rfl
      | c :: d :: rest =>
        have hbehind := length_behindSpec_lt (c := d) (s := rest)
        have h₁ := ih rest
        have h₂ := ih (behindSpec (d :: rest))
        have h₃ := ih (d :: rest)
        rw [itemsLoop]
        split_ifs
        all_goals
          simp only [List.length_cons] at *
          omega
  exact hloop _ _

theorem okAll_of_lt {os : List Outcome} {n p : Nat} (h : p + (shownAll os).length < n) (hn : n < 2 ^ 31) :
    Util.OkAll n p os := by
  induction os generalizing p with
  | nil => trivial
  | cons o os ih =>
    rw [shownAll, List.flatMap_cons, List.length_append] at h
    refine ⟨?_, ih (by rw [shownAll]; omega)⟩
    cases o with
    | text t =>
      have hlen : (Outcome.text t).shown = t.val := rfl
      rw [hlen] at h
      exact ⟨by omega, .inr (.inl (by omega))⟩
    | failed w =>
      change p < n
      omega

theorem evlFormatPrintfRec_packed {format : CharPtr} {argsz : List UInt8} (argBytes : List UInt8)
    (hargsz : argsz.length = 4) (hparse : evlParsePrintfFormat true format.string.bytes = .ok segs) :
    ∃ b : Recbuf, b.ahead = argBytes ∧
      evlFormatPrintfRec (format.bytes ++ argsz ++ argBytes)
        = (formatSegments segs b).map fun r => .calls r.1 r.2 := by
  generalize hdata : format.bytes ++ argsz ++ argBytes = data
  have hahead : (Recbuf.mk data 0).ahead = format.string.bytes ++ 0 :: (argsz ++ argBytes) := by
    rw [← hdata, CharPtr.bytes, List.append_assoc, List.append_assoc]
    rfl
  have hne : data ≠ [] := by
    rw [← hdata]
    simp [CharPtr.bytes]
  refine ⟨((Recbuf.mk data 0).skip (format.string.bytes.length + 1)).skip 4, ?_, ?_⟩
  · rw [Recbuf.ahead_skip, Recbuf.ahead_skip, hahead, ← List.singleton_append, ← List.append_assoc,
      List.drop_left' (by simp), List.drop_left' hargsz]
  · rw [evlFormatPrintfRec, if_neg hne, collectString_of_ahead hahead format.string.noNul]
    dsimp only
    rw [hparse]
    rfl

/-- The parse without strings has the conversions of the one with them. -/
theorem parse_of_conversions {parsedFmt : List Segment}
    (h : evlParsePrintfFormat false format = .ok parsedFmt) :
    ∃ segs, evlParsePrintfFormat true format = .ok segs ∧ conversions parsedFmt = conversions segs := by
  unfold evlParsePrintfFormat at h ⊢
  rw [parseTurns_conversions] at h
  cases hparse : parseTurns true format.length format with
  | ok segs =>
    rw [hparse] at h
    cases h
    refine ⟨segs, rfl, ?_⟩
    rw [conversions, List.filterMap_map]
    exact List.filterMap_some
  | _ =>
    rw [hparse] at h
    cases h

/-- The segments are short if the conversions of the format are. -/
theorem short_iff (hmade : ∀ seg ∈ segs, seg.Made) : (∀ seg ∈ segs, seg.Short) ↔
      ∀ spec, .conv spec ∈ segs.flatMap Segment.items → 0x5b ∈ spec → spec.length < 19 := by
  constructor
  · intro hshort spec hspec hbracket
    obtain ⟨seg, hseg, hmem⟩ := List.mem_flatMap.1 hspec
    cases seg with
    | string s => simp [Segment.items] at hmem
    | printfConv pf userfmt =>
      obtain ⟨spec', rfl, harray⟩ := hmade _ hseg
      obtain rfl : spec = spec' := by simpa [Segment.items] using hmem
      have hlt := hshort _ hseg (by rw [harray, List.contains_iff_mem]; exact hbracket)
      exact Nat.lt_of_succ_lt_succ hlt
  · intro hspec seg hseg
    cases seg with
    | string s => trivial
    | printfConv pf userfmt =>
      obtain ⟨spec, rfl, harray⟩ := hmade _ hseg
      intro harray'
      rw [harray, List.contains_iff_mem] at harray'
      exact Nat.succ_lt_succ (hspec spec (List.mem_flatMap.2 ⟨_, hseg, List.mem_singleton_self _⟩) harray')

/-- Whatever is packed of a format and its arguments, and fits, comes out as
the text of the format with a text for each conversion, if and only if the
format has no `%` at its end and its array conversions are short. -/
theorem printf_round_trip_iff (vsnprintf : List UInt8 → Passed → Outcome) (format : CharPtr)
    (args : List Arg) (st : Packing) (hpack : evlPackFormatAndArgs format args .empty = .done none st)
    (hfits : (packedForm format args).length ≤ posixLogEntryMaxlen) :
    RoundTrips vsnprintf format args st.written ↔ Readable format.string.bytes := by
  obtain ⟨parsedFmt, used, rest, argsz, hparse, rfl, hall, hargsz, hwritten⟩ :=
    evlPackFormatAndArgs_done hpack hfits
  obtain ⟨segs, hsegs, hconv⟩ := parse_of_conversions hparse
  rw [hconv] at hall
  obtain ⟨hitems, hmade⟩ := parseTurns_items le_rfl hsegs
  obtain ⟨b, hahead, hformat⟩ := evlFormatPrintfRec_packed (used.flatMap Arg.bytes) hargsz hsegs
  rw [← hwritten] at hformat
  obtain ⟨hshort, hlong⟩ := formatSegments_of_ahead hall hahead
  have hsizes : format.string.bytes.length < 2 ^ 31 ∧ ∀ arg ∈ used, arg.bytes.length < 2 ^ 31 := by
    have hmax : posixLogEntryMaxlen = 8192 := rfl
    rw [packedForm, CharPtr.bytes, hmax] at hfits
    simp only [List.length_append] at hfits
    refine ⟨by omega, fun arg harg => ?_⟩
    obtain ⟨before, behind, rfl⟩ := List.mem_iff_append.1 harg
    simp only [List.flatMap_append, List.flatMap_cons, List.length_append] at hfits
    omega
  have hstrings : (segs.flatMap Segment.items).length < 2 ^ 31 := by
    have hle := length_items_le format.string.bytes
    rw [hitems]
    exact (List.length_filter_le _ _).trans_lt (hle.trans_lt hsizes.1)
  have htext := shownAll_segmentCalls vsnprintf hmade hstrings hall hsizes.2 rest
  rw [hitems] at htext
  have hspecs : (∀ seg ∈ segs, seg.Short) ↔
      ∀ spec, .conv spec ∈ items format.string.bytes → 0x5b ∈ spec → spec.length < 19 := by
    rw [short_iff hmade, hitems]
    refine forall_congr' fun spec => ?_
    rw [List.mem_filter, and_iff_left (by simp)]
  constructor
  · rintro ⟨cs, hcs, hcstext, -⟩
    have hall' : ∀ seg ∈ segs, seg.Short := by
      by_contra hno
      push Not at hno
      rw [hformat, hlong hno] at hcs
      cases hcs
    rw [hformat, hshort hall'] at hcs
    cases hcs
    dsimp only at hcstext
    refine ⟨fun hlone => ?_, hspecs.1 hall'⟩
    have hlen := length_itemsText_filter vsnprintf (items format.string.bytes) (used ++ rest)
    have hcount := List.count_pos_iff.2 hlone
    rw [← hcstext, ← htext] at hlen
    omega
  · rintro ⟨hlone, hshort'⟩
    have hfilter : (items format.string.bytes).filter (· ≠ .lone) = items format.string.bytes :=
      List.filter_eq_self.2 fun item hitem => by
        rw [decide_eq_true_eq]
        rintro rfl
        exact hlone hitem
    rw [hfilter] at htext
    refine ⟨segmentCalls segs used, by rw [hformat, hshort (hspecs.2 hshort')]; rfl, htext, ?_⟩
    intro buf hroom hbuf
    have hok : Util.OkAll buf.length 0 ((segmentCalls segs used).map (Call.outcome vsnprintf)) :=
      okAll_of_lt (by rw [htext]; omega) hbuf
    obtain ⟨sub, hsub, -, hshows⟩ := @Util.evlFormatPrintfRec_shows buf (by omega) _ hok false (fun hno => by cases hno)
    rw [Util.PrintfRec.shown, if_neg (by simp), htext] at hsub hshows
    exact ⟨sub, hsub, hshows⟩

/-- `%d` of a number that is not negative, and nothing for anything else. -/
def plainD (fmt : List UInt8) : Passed → Outcome
  | .scalar .int bytes =>
    if fmt = [0x25, 0x64] then .ofBytes (CString.decimal (leNat bytes)) else .ofBytes []
  | _ => .ofBytes []

/-- `%d,%d`. -/
def twoPercentD : CharPtr := ⟨⟨[0x25, 0x64, 0x2c, 0x25, 0x64], by decide⟩, by decide⟩

/-- An `int` of 42, and one of 7. -/
def fortyTwoAndSeven : List Arg := [.scalar .int ⟨[42, 0, 0, 0], rfl⟩, .scalar .int ⟨[7, 0, 0, 0], rfl⟩]

theorem printf_round_trip_d :
    ∃ st, evlPackFormatAndArgs twoPercentD fortyTwoAndSeven .empty = .done none st ∧
      RoundTrips plainD twoPercentD fortyTwoAndSeven st.written := by
  have hpack : evlPackFormatAndArgs twoPercentD fortyTwoAndSeven .empty
      = .done none ⟨[0x25, 0x64, 0x2c, 0x25, 0x64, 0, 8, 0, 0, 0, 42, 0, 0, 0, 7, 0, 0, 0], 18⟩ := by rfl
  have hitems : items twoPercentD.string.bytes = [.conv [0x64], .char 0x2c, .conv [0x64]] := by decide
  have hreadable : Readable twoPercentD.string.bytes := by
    refine ⟨by rw [hitems]; decide, fun spec hspec _ => ?_⟩
    have hspec : spec = [0x64] := by simpa [hitems] using hspec
    rw [hspec]
    decide
  exact ⟨_, hpack,
    (printf_round_trip_iff plainD twoPercentD fortyTwoAndSeven _ hpack (by decide)).2 hreadable⟩

/-- `%[-+ #0'1000.1000lld`. -/
def wideArray : CharPtr :=
  ⟨⟨[0x25, 0x5b, 0x2d, 0x2b, 0x20, 0x23, 0x30, 0x27, 0x31, 0x30, 0x30, 0x30, 0x2e, 0x31, 0x30, 0x30, 0x30,
    0x6c, 0x6c, 0x64], by decide⟩, by decide⟩

/-- An array of one `long long`, with a comma between the elements. -/
def oneElement : Arg :=
  .array ⟨.scalars .longlong [⟨[7, 0, 0, 0, 0, 0, 0, 0], rfl⟩], ⟨⟨[0x2c], by decide⟩, by decide⟩, by decide⟩

/-- An array with a format of twenty characters is packed, and then the
assertion on the format fails. -/
theorem wideArray_not_round_trip :
    ∃ st, evlPackFormatAndArgs wideArray [oneElement] .empty = .done none st ∧
      (packedForm wideArray [oneElement]).length ≤ posixLogEntryMaxlen ∧
      ¬RoundTrips plainD wideArray [oneElement] st.written := by
  refine ⟨⟨[0x25, 0x5b, 0x2d, 0x2b, 0x20, 0x23, 0x30, 0x27, 0x31, 0x30, 0x30, 0x30, 0x2e, 0x31, 0x30, 0x30, 0x30,
    0x6c, 0x6c, 0x64, 0, 14, 0, 0, 0, 1, 0, 0, 0, 0x2c, 0, 7, 0, 0, 0, 0, 0, 0, 0], 39⟩, by rfl, by decide, ?_⟩
  rintro ⟨cs, hcs, -⟩
  have hformat : evlFormatPrintfRec [0x25, 0x5b, 0x2d, 0x2b, 0x20, 0x23, 0x30, 0x27, 0x31, 0x30, 0x30, 0x30,
      0x2e, 0x31, 0x30, 0x30, 0x30, 0x6c, 0x6c, 0x64, 0, 14, 0, 0, 0, 1, 0, 0, 0, 0x2c, 0, 7, 0, 0, 0, 0, 0, 0, 0]
      = none := by decide
  rw [hformat] at hcs
  cases hcs

end Evlog.Printf
