/-
Evlog.Printf.Reading — reading what was packed.

`Arg.bytes` is what the packers store of an argument, and `Arg.calls` what
should be made of it again. `formatConversion_of_fits` has the two meet: at
the bytes of an argument, the conversion it was packed for takes just these
bytes and makes these calls. The one thing that can come between is the
assertion on the format of an array.
-/
import Evlog.Lib.Words
import Evlog.Posix.PackTheorems
import Evlog.Printf.Pack
import Evlog.Printf.Record

namespace Evlog.Printf

open Evlog.Lib
open Evlog.Posix (CharPtr WcharPtr Object Packing Piece memcpyex packString packWstring)
open Evlog.Template (BaseType archTypeInfo)

/-! ## What is ahead -/

/-- The data from `b_next` on. -/
def Recbuf.ahead (b : Recbuf) : List UInt8 := b.data.drop b.next

/-- `b_next` moved on. -/
def Recbuf.skip (b : Recbuf) (n : Nat) : Recbuf := { b with next := b.next + n }

@[simp] theorem Recbuf.ahead_skip (b : Recbuf) (n : Nat) : (b.skip n).ahead = b.ahead.drop n :=
  List.drop_drop.symm

@[simp] theorem Recbuf.skip_skip (b : Recbuf) (n m : Nat) : (b.skip n).skip m = b.skip (n + m) := by
  simp [Recbuf.skip, Nat.add_assoc]

variable {b : Recbuf} {rest : List UInt8}

theorem Recbuf.ahead_skip_of {l : List UInt8} (h : b.ahead = l ++ rest) :
    (b.skip l.length).ahead = rest := by
  rw [b.ahead_skip, h, List.drop_left]

theorem Recbuf.length_ahead (b : Recbuf) : b.ahead.length = b.data.length - b.next := List.length_drop

/-! ## The readers -/

theorem collectBytes_of_ahead {b : Recbuf} {bytes rest : List UInt8} (h : b.ahead = bytes ++ rest)
    (hpos : 0 < bytes.length) : collectBytes b bytes.length = some (some bytes, b.skip bytes.length) := by
  have hlen := b.length_ahead
  rw [h, List.length_append] at hlen
  rw [collectBytes, if_neg (by unfold Recbuf.left; omega), Recbuf.read, if_pos (by omega)]
  have htake : (b.data.drop b.next).take bytes.length = bytes := by
    rw [show b.data.drop b.next = bytes ++ rest from h, List.take_left]
  rw [Option.map_some, htake]
  rfl

theorem findNull_eq {data s : List UInt8} {n next : Nat} (h : data.drop next = s ++ 0 :: rest)
    (hs : 0 ∉ s) (hn : s.length < n) : findNull data n next = some (next + s.length) := by
  induction s generalizing n next with
  | nil =>
    obtain ⟨n, rfl⟩ : ∃ m, n = m + 1 := ⟨n - 1, by simp at hn; omega⟩
    have hget : data[next]? = some 0 := by
      rw [← List.head?_drop, h]
      rfl
    rw [findNull, if_pos (List.getElem?_eq_some_iff.1 hget).1, hget]
    rfl
  | cons c s ih =>
    obtain ⟨n, rfl⟩ : ∃ m, n = m + 1 := ⟨n - 1, by simp at hn; omega⟩
    have hget : data[next]? = some c := by
      rw [← List.head?_drop, h]
      rfl
    have hc : c ≠ 0 := fun h0 => hs (h0 ▸ List.mem_cons_self)
    have hrest : data.drop (next + 1) = s ++ 0 :: rest := by
      rw [← List.drop_drop, h]
      rfl
    rw [findNull, if_pos (List.getElem?_eq_some_iff.1 hget).1, hget]
    dsimp only
    rw [if_neg hc, ih hrest (fun h0 => hs (List.mem_cons_of_mem c h0)) (by simpa using hn), List.length_cons]
    congr 1
    omega

theorem collectString_of_ahead {b : Recbuf} {s rest : List UInt8} (h : b.ahead = s ++ 0 :: rest)
    (hs : 0 ∉ s) : collectString b = some (some s, b.skip (s.length + 1)) := by
  have hlen := b.length_ahead
  rw [h, List.length_append, List.length_cons] at hlen
  rw [collectString, findNull_eq h hs (by omega), Option.map_some, if_pos (by omega)]
  have htake : (b.data.drop b.next).take (b.next + s.length - b.next) = s := by
    rw [show b.data.drop b.next = s ++ 0 :: rest from h, Nat.add_sub_cancel_left, List.take_left]
  rw [htake]
  rfl

def wideBytes (cs : List UInt32) : List UInt8 := cs.flatMap fun c => leBytes 4 c.toNat

theorem collectWchars_of_ahead {cs : List UInt32} (hcs : 0 ∉ cs) {n : Nat} (hn : cs.length < n)
    {s : List UInt32} (h : b.ahead = wideBytes (cs ++ [0]) ++ rest) :
    collectWchars n s b = some (some (s ++ cs), b.skip (wideBytes (cs ++ [0])).length) := by
  induction cs generalizing n s b with
  | nil =>
    obtain ⟨n, rfl⟩ : ∃ m, n = m + 1 := ⟨n - 1, by simp at hn; omega⟩
    have hread := @collectBytes_of_ahead b (leBytes 4 0) rest h (by decide)
    rw [leBytes_length] at hread
    rw [collectWchars, hread, List.append_nil]
    rfl
  | cons c cs ih =>
    obtain ⟨n, rfl⟩ : ∃ m, n = m + 1 := ⟨n - 1, by simp at hn; omega⟩
    have hsplit : wideBytes (c :: cs ++ [0]) = leBytes 4 c.toNat ++ wideBytes (cs ++ [0]) := rfl
    rw [hsplit, List.append_assoc] at h
    have hread := collectBytes_of_ahead h (by rw [leBytes_length]; decide)
    have hahead := Recbuf.ahead_skip_of h
    rw [leBytes_length] at hread hahead
    have hc : UInt32.ofNat (leNat (leBytes 4 c.toNat)) = c := by
      rw [leNat_leBytes, show 256 ^ 4 = 2 ^ 32 from rfl, Nat.mod_eq_of_lt c.toNat_lt, UInt32.ofNat_toNat]
    have hne : c ≠ 0 := fun h0 => hcs (h0 ▸ List.mem_cons_self)
    rw [collectWchars, hread]
    dsimp only
    rw [hc, if_neg hne, ih (fun h0 => hcs (List.mem_cons_of_mem c h0)) (by simpa using hn) hahead,
      Recbuf.skip_skip, List.append_assoc, hsplit, List.length_append, leBytes_length]
    rfl

theorem collectWstring_of_ahead {cs : List UInt32} (hcs : 0 ∉ cs)
    (h : b.ahead = wideBytes (cs ++ [0]) ++ rest) :
    collectWstring b = some (some cs, b.skip (wideBytes (cs ++ [0])).length) := by
  have hlen := b.length_ahead
  rw [h, List.length_append, wideBytes, Posix.length_flatMap_leBytes, List.length_append] at hlen
  exact collectWchars_of_ahead hcs (by omega) h

/-! ## Elements -/

def Passed.bytes : Passed → List UInt8
  | .scalar _ bytes => bytes
  | .string s => s ++ [0]
  | .wstring s => wideBytes (s ++ [0])

def Passed.IsOf (type : BaseType) : Passed → Prop
  | .scalar type' bytes =>
    type' = type ∧ bytes.length = (ConvType.base type).size ∧ passed type = true
  | .string s => type = .string ∧ 0 ∉ s
  | .wstring s => type = .wstring ∧ 0 ∉ s

theorem Passed.IsOf.bytes_pos {type : BaseType} {p : Passed} (h : p.IsOf type) : 0 < p.bytes.length := by
  cases p with
  | scalar type' bytes =>
    obtain ⟨rfl, hsize, -⟩ := h
    rw [Passed.bytes, hsize]
    cases type' <;> decide
  | string s => simp [Passed.bytes]
  | wstring s =>
    rw [Passed.bytes, wideBytes, Posix.length_flatMap_leBytes, List.length_append, List.length_singleton]
    omega

theorem collectPassed_scalar {type : BaseType} (hpassed : passed type = true) (b : Recbuf) :
    collectPassed type b = (collectBytes b (ConvType.base type).size).bind fun r =>
      match r.1 with
      | none => some (none, r.2)
      | some bytes => if passed type then some (some (.scalar type bytes), r.2) else none := by
  cases type <;> first | rfl | cases hpassed

theorem collectPassed_of_ahead {type : BaseType} {p : Passed} (hp : p.IsOf type)
    (h : b.ahead = p.bytes ++ rest) :
    collectPassed type b = some (some p, b.skip p.bytes.length) := by
  cases p with
  | scalar type' bytes =>
    have hpos := hp.bytes_pos
    obtain ⟨rfl, hsize, hpassed⟩ := hp
    have hread := collectBytes_of_ahead h hpos
    rw [collectPassed_scalar hpassed, ← hsize, show bytes.length = (Passed.scalar type' bytes).bytes.length from rfl, hread,
      Option.bind_some]
    dsimp only
    rw [if_pos hpassed]
    rfl
  | string s =>
    obtain ⟨rfl, hs⟩ := hp
    rw [Passed.bytes, List.append_assoc] at h
    rw [collectPassed, collectString_of_ahead h hs, Passed.bytes, List.length_append]
    rfl
  | wstring s =>
    obtain ⟨rfl, hs⟩ := hp
    rw [collectPassed, collectWstring_of_ahead hs h]
    rfl

/-- The calls for some elements, the first of them being the first of all or
not. -/
def elementCalls (fmt delim : List UInt8) : Bool → List Passed → List Call
  | _, [] => []
  | first, p :: ps => (if first then [] else [.text delim]) ++ .conversion fmt p :: elementCalls fmt delim false ps

theorem formatElements_of_ahead {type : BaseType} (ps : List Passed) (hps : ∀ p ∈ ps, p.IsOf type)
    (fmt delim : List UInt8) (first : Bool) (h : b.ahead = ps.flatMap Passed.bytes ++ rest) :
    formatElements fmt (.base type) delim ps.length first b
      = some (elementCalls fmt delim first ps, false, b.skip (ps.flatMap Passed.bytes).length) := by
  induction ps generalizing b first with
  | nil => rfl
  | cons p ps ih =>
    rw [List.flatMap_cons, List.append_assoc] at h
    have hp := hps p List.mem_cons_self
    rw [List.length_cons, formatElements, collectPassed_of_ahead hp h]
    dsimp only
    rw [ih (fun q hq => hps q (List.mem_cons_of_mem p hq)) false (Recbuf.ahead_skip_of h), Option.map_some,
      Recbuf.skip_skip, List.flatMap_cons, List.length_append]
    rfl

/-! ## Arguments -/

def Elements.passed : Elements → List Passed
  | .scalars type values => values.map fun v => .scalar type v.bytes
  | .strings ss => ss.map fun s => .string s.string.bytes
  | .wstrings ss => ss.map fun s => .wstring s.chars

theorem Elements.length_passed (e : Elements) : e.passed.length = e.length := by
  cases e <;> exact List.length_map _

def Elements.type : Elements → BaseType
  | .scalars type _ => type
  | .strings _ => .string
  | .wstrings _ => .wstring

def Arg.bytes : Arg → List UInt8
  | .scalar _ v => v.bytes
  | .string s => s.bytes
  | .wstring s => s.bytes
  | .array a => dimBytes a.elements.length ++ a.delim.bytes ++ a.elements.passed.flatMap Passed.bytes

def Arg.calls (fmt : List UInt8) : Arg → List Call
  | .scalar type v => [.conversion fmt (.scalar type v.bytes)]
  | .string s => [.conversion fmt (.string s.string.bytes)]
  | .wstring s => [.conversion fmt (.wstring s.chars)]
  | .array a => elementCalls (squeeze fmt) a.delim.string.bytes true a.elements.passed

def Arg.Fits (pf : ParsedFormat) : Arg → Prop
  | .scalar type _ =>
    pf.fmArray = false ∧ evlGetTypeFromConversion pf true true = .base type ∧ copied type = true
  | .string _ => pf.fmArray = false ∧ evlGetTypeFromConversion pf true true = .base .string
  | .wstring _ => pf.fmArray = false ∧ evlGetTypeFromConversion pf true true = .base .wstring
  | .array a =>
    pf.fmArray = true ∧ evlGetTypeFromConversion pf false true = .base a.elements.type ∧
      ∀ p ∈ a.elements.passed, p.IsOf a.elements.type

def Short (pf : ParsedFormat) (fmt : List UInt8) : Prop := pf.fmArray = true → fmt.length < 20

theorem passed_of_copied {type : BaseType} (h : copied type = true) : passed type = true := by
  cases type <;> first | rfl | cases h

theorem Arg.Fits.bytes_pos {pf : ParsedFormat} {arg : Arg} (h : arg.Fits pf) : 0 < arg.bytes.length := by
  cases arg with
  | scalar type v =>
    have hsize := v.size
    rw [Arg.bytes, hsize]
    cases type <;> decide
  | string s => exact s.bytes_pos
  | wstring s =>
    rw [Arg.bytes, s.length_bytes]
    omega
  | array a =>
    rw [Arg.bytes, List.length_append, List.length_append, dimBytes, leBytes_length]
    omega

theorem formatOne_of_ahead {type : BaseType} {p : Passed} (hp : p.IsOf type) (fmt : List UInt8)
    (h : b.ahead = p.bytes ++ rest) :
    formatElements fmt (.base type) [] 1 true b = some ([.conversion fmt p], false, b.skip p.bytes.length) := by
  rw [← List.flatMap_singleton Passed.bytes p] at h ⊢
  exact formatElements_of_ahead [p] (fun q hq => List.mem_singleton.1 hq ▸ hp) fmt [] true h

/-- A conversion makes of the bytes of its argument what it should, unless it
is one of an array with too long a format. -/
theorem formatConversion_of_fits {pf : ParsedFormat} {arg : Arg} (hfit : arg.Fits pf)
    (fmt : List UInt8) (h : b.ahead = arg.bytes ++ rest) :
    (Short pf fmt → formatConversion pf fmt b = some (arg.calls fmt, false, b.skip arg.bytes.length)) ∧
      (¬Short pf fmt → formatConversion pf fmt b = none) := by
  unfold formatConversion Short
  cases arg with
  | scalar type v =>
    obtain ⟨harray, htype, hcopied⟩ := hfit
    rw [harray, htype]
    refine ⟨fun _ => ?_, fun hlong => absurd hlong (by simp)⟩
    have hp : (Passed.scalar type v.bytes).IsOf type := ⟨rfl, v.size, passed_of_copied hcopied⟩
    exact formatOne_of_ahead hp fmt h
  | string s =>
    obtain ⟨harray, htype⟩ := hfit
    rw [harray, htype]
    refine ⟨fun _ => ?_, fun hlong => absurd hlong (by simp)⟩
    have hp : (Passed.string s.string.bytes).IsOf .string := ⟨rfl, s.string.noNul⟩
    exact formatOne_of_ahead hp fmt h
  | wstring s =>
    obtain ⟨harray, htype⟩ := hfit
    rw [harray, htype]
    refine ⟨fun _ => ?_, fun hlong => absurd hlong (by simp)⟩
    have hp : (Passed.wstring s.chars).IsOf .wstring := ⟨rfl, s.noNul⟩
    exact formatOne_of_ahead hp fmt h
  | array a =>
    obtain ⟨harray, htype, helements⟩ := hfit
    have hdim : (dimBytes a.elements.length).length = 4 := leBytes_length 4 _
    rw [Arg.bytes, List.append_assoc, List.append_assoc] at h
    have hread := collectBytes_of_ahead h (by omega)
    have hahead := Recbuf.ahead_skip_of h
    rw [hdim] at hread hahead
    rw [CharPtr.bytes, List.append_assoc, List.singleton_append] at hahead
    have hdelim := collectString_of_ahead hahead a.delim.string.noNul
    have hahead' : (b.skip (4 + (a.delim.string.bytes.length + 1))).ahead
        = a.elements.passed.flatMap Passed.bytes ++ rest := by
      rw [← Recbuf.skip_skip, Recbuf.ahead_skip, hahead, ← List.singleton_append, ← List.append_assoc]
      exact List.drop_left' (by simp)
    have hnat : ((UInt32.ofNat (leNat (dimBytes a.elements.length))).toInt32.toInt).toNat
        = a.elements.passed.length := by
      have hlt := a.dim_lt
      have hle : (UInt32.ofNat (leNat (dimBytes a.elements.length))).toNat = a.elements.length := by
        rw [dimBytes, leNat_leBytes, Nat.mod_eq_of_lt (by omega),
          UInt32.toNat_ofNat_of_lt' (hlt.trans (by decide))]
      rw [toInt_toInt32, hle, if_pos hlt, Int.toNat_natCast, a.elements.length_passed]
    rw [harray, if_pos rfl, hread]
    dsimp only
    rw [hdelim, Recbuf.skip_skip]
    dsimp only
    rw [htype, hnat, formatElements_of_ahead _ helements _ _ _ hahead', Recbuf.skip_skip]
    refine ⟨fun hshort => ?_, fun hlong => ?_⟩
    · rw [if_pos (hshort rfl), Arg.bytes, List.length_append, List.length_append, hdim, CharPtr.bytes,
        List.length_append]
      rfl
    · rw [if_neg fun hlt => hlong fun _ => hlt]

end Evlog.Printf
