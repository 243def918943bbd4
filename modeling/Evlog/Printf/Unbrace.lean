/-
Evlog.Printf.Unbrace — identifiers in a format (syslogat.c).

A format may name what a conversion is for: "{id}%d". For an event's type
and for syslog the names are taken out (`_evl_unbrace`), and so is what is
behind "{{".

`lcb+2` may be behind the NUL. What is read there is not known, and there is
no result then. The size of the buffer, an `int` in the source, is a number
here: formats are taken to be shorter than 2 GiB.

`Unbraced` says what should come of a text: each "{id}%" is a '%', and all
else stays. A '{' that starts no "{id}%" makes the scan go behind the next
"}%", and a "{id}%" that ends there is missed.
-/
import Evlog.Lib.Occurrences

namespace Evlog.Printf

open Evlog.Lib

/-- `isalpha`, or an underscore. -/
def isIdStart (c : UInt8) : Bool := (0x41 ≤ c && c ≤ 0x5a) || (0x61 ≤ c && c ≤ 0x7a) || c = 0x5f

/-- `isalnum`, or an underscore. -/
def isIdChar (c : UInt8) : Bool := isIdStart c || (0x30 ≤ c && c ≤ 0x39)

def isIdentifier : List UInt8 → Bool
  | [] => false
  | c :: cs => isIdStart c && cs.all isIdChar

/-- `"}%"`. -/
def endTag : List UInt8 := [0x7d, 0x25]

/-- `"{{"`. -/
def cutTag : List UInt8 := [0x7b, 0x7b]

/-- What `unbrace` has done: the text in `dest`, the text from `copy_this` up
to `scan_this`, the place of `scan_this` in the format, and the text there. -/
structure Scan where
  dest : List UInt8
  copyThis : List UInt8
  pos : Nat
  scanThis : List UInt8

def Scan.done (sc : Scan) (bufsz : Nat) (cutHere : Option Nat) : List UInt8 :=
  let copyLen :=
    match cutHere with
    | some cut => min (cut - (sc.pos - sc.copyThis.length)) (bufsz - (sc.dest.length + 1))
    | none => bufsz - (sc.dest.length + 1)
  sc.dest ++ (sc.copyThis ++ sc.scanThis).take copyLen

/-- The loop of `unbrace`. Each turn goes four bytes further at least, so
`fuel` is the length of the format. -/
def unbraceLoop (bufsz : Nat) (cutHere : Option Nat) : Nat → Scan → Option (List UInt8)
  | 0, sc => some (sc.done bufsz cutHere)
  | fuel + 1, sc =>
    match strstr [0x7b] sc.scanThis with
    | none => some (sc.done bufsz cutHere)
    | some (before, lcb) =>
      match lcb.tail with
      | [] => none
      | c :: more =>
        match strstr endTag more with
        | none => some (sc.done bufsz cutHere)
        | some (mid, rcb) =>
          let rcbPos := sc.pos + before.length + 2 + mid.length
          if cutHere.any (· < rcbPos) then some (sc.done bufsz cutHere)
          else if isIdentifier (c :: mid) then
            let copyLen := min (sc.copyThis ++ before).length (bufsz - (sc.dest.length + 1))
            unbraceLoop bufsz cutHere fuel
              ⟨sc.dest ++ (sc.copyThis ++ before).take copyLen, [0x25], rcbPos + 2, rcb.drop 2⟩
          else
            unbraceLoop bufsz cutHere fuel
              ⟨sc.dest, sc.copyThis ++ before ++ 0x7b :: c :: mid ++ endTag, rcbPos + 2, rcb.drop 2⟩

def evlUnbrace (fmt : List UInt8) : Option (List UInt8) :=
  unbraceLoop (fmt.length + 1) ((strstr cutTag fmt).map fun found => found.1.length) fmt.length
    ⟨[], [], 0, fmt⟩

example : evlUnbrace [0x61, 0x7b, 0x6e, 0x7d, 0x25, 0x64, 0x7b, 0x7b, 0x78] = some [0x61, 0x25, 0x64] := by
  decide

/-! ## What should come of a text -/

def bracedId (id : List UInt8) : List UInt8 := 0x7b :: (id ++ endTag)

inductive Unbraced : List UInt8 → List UInt8 → Prop
  | nil : Unbraced [] []
  | braced {id t u : List UInt8} (hid : isIdentifier id = true) (h : Unbraced t u) :
      Unbraced (bracedId id ++ t) (0x25 :: u)
  | other {c : UInt8} {t u : List UInt8}
      (hc : ∀ id, isIdentifier id = true → ¬bracedId id <+: c :: t) (h : Unbraced t u) :
      Unbraced (c :: t) (c :: u)

variable {id t u v pre mid y more tail : List UInt8}

theorem isIdentifier_all (h : isIdentifier id = true) : ∀ c ∈ id, isIdChar c = true := by
  cases id with
  | nil => simp
  | cons c cs =>
    rw [isIdentifier, Bool.and_eq_true, List.all_eq_true] at h
    intro d hd
    rcases List.mem_cons.1 hd with rfl | hd
    · rw [isIdChar, h.1, Bool.true_or]
    · exact h.2 d hd

variable {c : UInt8}

theorem not_mem_identifier (h : isIdentifier id = true) (hc : isIdChar c = false) : c ∉ id := by
  intro hmem
  rw [isIdentifier_all h c hmem] at hc
  cases hc

theorem bracedId_inj {id' t' : List UInt8} (hid : isIdentifier id = true)
    (hid' : isIdentifier id' = true) (h : bracedId id ++ t = bracedId id' ++ t') : t = t' := by
  have hnot : (0x7d : UInt8) ∉ id := not_mem_identifier hid (by decide)
  have hnot' : (0x7d : UInt8) ∉ id' := not_mem_identifier hid' (by decide)
  have htail : id ++ 0x7d :: (0x25 :: t) = id' ++ 0x7d :: (0x25 :: t') := by
    simpa [bracedId, endTag] using h
  exact List.tail_eq_of_cons_eq (split_unique hnot hnot' htail).2

theorem Unbraced.unique (h : Unbraced t u) (h' : Unbraced t v) : u = v := by
  induction h generalizing v with
  | nil =>
    generalize ht : ([] : List UInt8) = t at h'
    cases h' with
    | nil => rfl
    | braced => simp [bracedId] at ht
    | other => simp at ht
  | @braced id t u hid h ih =>
    generalize ht : bracedId id ++ t = t' at h'
    cases h' with
    | nil => simp [bracedId] at ht
    | braced hid' h' =>
      obtain rfl := bracedId_inj hid hid' ht
      rw [ih h']
    | other hc h' => exact absurd (ht ▸ List.prefix_append _ _) (hc id hid)
  | @other c t u hc h ih =>
    generalize ht : c :: t = t' at h'
    cases h' with
    | nil => simp at ht
    | braced hid' h' => exact absurd (ht ▸ List.prefix_append _ _) (hc _ hid')
    | other hc' h' =>
      obtain ⟨rfl, rfl⟩ := List.cons.inj ht
      rw [ih h']

theorem exists_unbraced (t : List UInt8) : ∃ u, Unbraced t u := by
  induction hn : t.length using Nat.strong_induction_on generalizing t with
  | _ n ih =>
    cases t with
    | nil => exact ⟨[], .nil⟩
    | cons c t =>
      rw [List.length_cons] at hn
      by_cases hid : ∃ id, isIdentifier id = true ∧ bracedId id <+: c :: t
      · obtain ⟨id, hid, rest, hrest⟩ := hid
        have hlength : rest.length < n := by
          have hlength := congrArg List.length hrest
          simp [bracedId] at hlength
          omega
        obtain ⟨u, hu⟩ := ih _ hlength rest rfl
        exact ⟨0x25 :: u, hrest ▸ .braced hid hu⟩
      · obtain ⟨u, hu⟩ := ih _ (by omega) t rfl
        exact ⟨c :: u, .other (fun id hid' hprefix => hid ⟨id, hid', hprefix⟩) hu⟩

theorem unbraced_self (h : ∀ id, isIdentifier id = true → ¬bracedId id <:+: t) : Unbraced t t := by
  induction t with
  | nil => exact .nil
  | cons c t ih =>
    refine .other (fun id hid hprefix => h id hid hprefix.isInfix) (ih fun id hid hinside => ?_)
    exact h id hid (hinside.trans (List.suffix_cons c t).isInfix)

theorem Unbraced.plain_append (hpre : 0x7b ∉ pre) (h : Unbraced t u) :
    Unbraced (pre ++ t) (pre ++ u) := by
  induction pre with
  | nil => exact h
  | cons c pre ih =>
    rw [List.mem_cons, not_or] at hpre
    refine .other (fun id _ hprefix => hpre.1 ?_) (ih hpre.2)
    exact (List.cons_prefix_cons.1 hprefix).1

theorem Unbraced.append {s : List UInt8} (h : Unbraced s u) (ht : Unbraced t v)
    (hs : s = [] ∨ s.getLast? = some 0x25) : Unbraced (s ++ t) (u ++ v) := by
  induction h with
  | nil => exact ht
  | @braced id s u hid h ih =>
    have hs' : s = [] ∨ s.getLast? = some 0x25 := by
      by_cases hnil : s = []
      · exact .inl hnil
      · rcases hs with hs | hs
        · simp [hnil] at hs
        · rw [List.getLast?_append_of_ne_nil _ hnil] at hs
          exact .inr hs
    rw [List.append_assoc, List.cons_append]
    exact .braced hid (ih hs')
  | @other c s u hc h ih =>
    have hlast : (c :: s).getLast? = some 0x25 := by
      rcases hs with hs | hs
      · cases hs
      · exact hs
    have hs' : s = [] ∨ s.getLast? = some 0x25 := by
      cases s with
      | nil => exact .inl rfl
      | cons d s => exact .inr (by simpa using hlast)
    refine .other (fun id hid hprefix => ?_) (ih hs')
    -- the one '%' of "{id}%" is its last character
    rcases List.prefix_or_prefix_of_prefix hprefix (List.prefix_append (c :: s) t) with hin | hin
    · exact hc id hid hin
    · obtain ⟨front, hfront⟩ := List.getLast?_eq_some_iff.1 hlast
      obtain ⟨rest, hrest⟩ := hin
      cases rest with
      | nil => exact hc id hid ⟨[], by simpa using hrest.symm⟩
      | cons d rest =>
        have hnot : (0x25 : UInt8) ∉ 0x7b :: (id ++ [0x7d]) := by
          simpa using not_mem_identifier hid (by decide : isIdChar 0x25 = false)
        have hbraced : (0x7b :: (id ++ [0x7d])) ++ [0x25] = front ++ 0x25 :: d :: rest := by
          simpa [hfront, bracedId, endTag] using hrest.symm
        have hfront' := congrArg List.dropLast hbraced
        rw [List.dropLast_concat, List.dropLast_append_of_ne_nil (List.cons_ne_nil _ _),
          List.dropLast_cons_cons] at hfront'
        rw [hfront'] at hnot
        simp at hnot

theorem Unbraced.length_le (h : Unbraced t u) : u.length ≤ t.length := by
  induction h with
  | nil => exact le_rfl
  | @braced id t u _ _ ih =>
    simp only [List.length_append, List.length_cons, bracedId]
    omega
  | other _ _ ih => exact Nat.succ_le_succ ih

theorem Unbraced.length_lt (h : Unbraced t u) (hid : isIdentifier id = true)
    (hinside : bracedId id <:+: t) : u.length < t.length := by
  induction h with
  | nil => simp [bracedId] at hinside
  | @braced id t u _ h _ =>
    have hle := h.length_le
    simp only [List.length_append, List.length_cons, bracedId, endTag]
    omega
  | other hc _ ih =>
    rcases List.infix_cons_iff.1 hinside with hprefix | hinside
    · exact absurd hprefix (hc id hid)
    · exact Nat.succ_lt_succ (ih hinside)

/-! ## From a '{' to the next "}%" -/

def EndsBraced (s : List UInt8) : Prop := ∃ front id, s = front ++ 0x7b :: id ∧ isIdentifier id = true

theorem eq_of_firstBehind {q : List UInt8} (hfirst : FirstBehind endTag mid t)
    (h : mid ++ endTag = q ++ endTag ++ y) : q = mid := by
  have hwhole : mid ++ endTag ++ t = q ++ endTag ++ (y ++ t) := by rw [h]; simp
  have hle := hfirst.length_le hwhole
  have hlength := congrArg List.length h
  simp only [List.length_append] at hlength
  have hy : y = [] := List.length_eq_zero_iff.1 (by omega)
  rw [hy, List.append_nil] at h
  exact (List.append_cancel_right h).symm

/-- What "{id}%" there can be from a '{' to the next "}%". -/
theorem occurrence_cases (hfirst : FirstBehind endTag mid t) (hid : isIdentifier id = true)
    (h : bracedId id <:+: 0x7b :: c :: (mid ++ endTag)) :
    id = c :: mid ∨ EndsBraced (c :: mid) := by
  obtain ⟨x, y, hxy⟩ := h
  match x with
  | [] =>
    cases id with
    | nil => cases hid
    | cons d id =>
      simp only [bracedId, List.nil_append, List.cons_append, List.cons.injEq, true_and] at hxy
      exact .inl (by rw [hxy.1, eq_of_firstBehind hfirst hxy.2.symm])
  | [a] =>
    simp only [bracedId, List.nil_append, List.cons_append, List.cons.injEq] at hxy
    obtain rfl := eq_of_firstBehind hfirst hxy.2.2.symm
    exact .inr ⟨[], id, by rw [← hxy.2.1]; rfl, hid⟩
  | a :: b :: x =>
    simp only [bracedId, List.cons_append, List.cons.injEq] at hxy
    have hmid : x ++ 0x7b :: id = mid := eq_of_firstBehind (q := x ++ 0x7b :: id) (y := y) hfirst (by
      rw [← hxy.2.2]
      simp)
    exact .inr ⟨b :: x, id, by rw [← hmid, hxy.2.1]; rfl, hid⟩

theorem unbraced_of_plain (h : 0x7b ∉ t) : Unbraced t t :=
  unbraced_self fun _ _ hinside => h (hinside.subset List.mem_cons_self)

/-- Without a "}%" from two behind the first '{' there is no "{id}%". -/
theorem unbraced_of_noEnd (hpre : 0x7b ∉ pre) (hend : ¬endTag <:+: more) :
    Unbraced (pre ++ 0x7b :: c :: more) (pre ++ 0x7b :: c :: more) := by
  refine Unbraced.plain_append hpre (unbraced_self fun id hid hinside => hend ?_)
  obtain ⟨x, y, hxy⟩ := hinside
  match x with
  | [] =>
    cases id with
    | nil => cases hid
    | cons d id =>
      simp only [bracedId, List.nil_append, List.cons_append, List.cons.injEq, true_and] at hxy
      exact hxy.2 ▸ List.infix_append _ _ _
  | [a] =>
    simp only [bracedId, List.nil_append, List.cons_append, List.cons.injEq] at hxy
    exact hxy.2.2 ▸ List.infix_append _ _ _
  | a :: b :: x =>
    simp only [bracedId, List.cons_append, List.cons.injEq] at hxy
    exact hxy.2.2 ▸ ⟨x ++ 0x7b :: id, y, by simp⟩

theorem unbraced_segment (hfirst : FirstBehind endTag mid t) :
    (isIdentifier (c :: mid) = true ∧ Unbraced (0x7b :: c :: (mid ++ endTag)) [0x25]) ∨
    (¬isIdentifier (c :: mid) = true ∧ ¬EndsBraced (c :: mid) ∧
      Unbraced (0x7b :: c :: (mid ++ endTag)) (0x7b :: c :: (mid ++ endTag))) ∨
    (¬isIdentifier (c :: mid) = true ∧ EndsBraced (c :: mid) ∧
      ∃ w, Unbraced (0x7b :: c :: (mid ++ endTag)) w ∧ w.length < (0x7b :: c :: (mid ++ endTag)).length) := by
  by_cases hid : isIdentifier (c :: mid) = true
  · exact .inl ⟨hid, by simpa [bracedId] using Unbraced.braced hid .nil⟩
  · by_cases hends : EndsBraced (c :: mid)
    · obtain ⟨w, hw⟩ := exists_unbraced (0x7b :: c :: (mid ++ endTag))
      obtain ⟨front, id, hfront, hid'⟩ := hends
      have hwhole : c :: (mid ++ endTag) = (front ++ 0x7b :: id) ++ endTag := by
        rw [← hfront]
        rfl
      refine .inr (.inr ⟨hid, ⟨front, id, hfront, hid'⟩, w, hw, hw.length_lt hid' ?_⟩)
      exact ⟨0x7b :: front, [], by rw [hwhole]; simp [bracedId]⟩
    · refine .inr (.inl ⟨hid, hends, unbraced_self fun id hid' hinside => ?_⟩)
      rcases occurrence_cases hfirst hid' hinside with rfl | h
      · exact hid hid'
      · exact hends h

/-! ## What the scan finds -/

/-- A text of which the scan finds every "{id}%": no '{' that it comes to is
the last character, and from each of them to the "}%" it goes on behind there
is an identifier, or no "{id}%" ends there. -/
inductive FindsAll : List UInt8 → Prop
  | plain {t : List UInt8} (h : 0x7b ∉ t) : FindsAll t
  | noEnd {pre more : List UInt8} {c : UInt8} (hpre : 0x7b ∉ pre) (hend : ¬endTag <:+: more) :
      FindsAll (pre ++ 0x7b :: c :: more)
  | next {pre mid t : List UInt8} {c : UInt8} (hpre : 0x7b ∉ pre) (hfirst : FirstBehind endTag mid t)
      (hid : isIdentifier (c :: mid) = true ∨ ¬EndsBraced (c :: mid)) (h : FindsAll t) :
      FindsAll (pre ++ 0x7b :: c :: (mid ++ endTag ++ t))

theorem not_findsAll_last (hpre : 0x7b ∉ pre) : ¬FindsAll (pre ++ [0x7b]) := by
  generalize hs : pre ++ [0x7b] = s
  intro h
  cases h with
  | plain h => exact h (hs ▸ List.mem_append_right _ (List.mem_singleton_self _))
  | noEnd hpre' _ => cases (split_unique hpre hpre' hs).2
  | next hpre' _ _ _ => cases (split_unique hpre hpre' hs).2

theorem findsAll_next_iff (hpre : 0x7b ∉ pre) (hfirst : FirstBehind endTag mid t) :
    FindsAll (pre ++ 0x7b :: c :: (mid ++ endTag ++ t)) ↔
      (isIdentifier (c :: mid) = true ∨ ¬EndsBraced (c :: mid)) ∧ FindsAll t := by
  refine ⟨fun h => ?_, fun h => .next hpre hfirst h.1 h.2⟩
  generalize hs : pre ++ 0x7b :: c :: (mid ++ endTag ++ t) = s at h
  cases h with
  | plain h => exact absurd (hs ▸ List.mem_append_right _ List.mem_cons_self) h
  | noEnd hpre' hend =>
    obtain ⟨-, hbehind⟩ := split_unique hpre hpre' hs
    obtain ⟨-, rfl⟩ := List.cons.inj hbehind
    exact absurd (List.infix_append _ _ _) hend
  | @next _ mid' t' _ hpre' hfirst' hid h =>
    obtain ⟨-, hbehind⟩ := split_unique hpre hpre' hs
    obtain ⟨rfl, hmid⟩ := List.cons.inj hbehind
    have hlength := Nat.le_antisymm (hfirst.length_le hmid) (hfirst'.length_le hmid.symm)
    rw [List.append_assoc, List.append_assoc] at hmid
    obtain ⟨rfl, ht⟩ := List.append_inj hmid hlength
    obtain rfl := List.append_cancel_left ht
    exact ⟨hid, h⟩

/-! ## The loop -/

/-- `cut_here` is behind `t`, or there is none. -/
inductive Cuts (pos : Nat) (t : List UInt8) : Option Nat → List UInt8 → Prop
  | none : Cuts pos t none []
  | cut (more : List UInt8) (hlast : t.getLast? ≠ some 0x7b) :
      Cuts pos t (some (pos + t.length)) (cutTag ++ more)

/-- What holds at `scan_this`, where `t` is before `cut_here` still. -/
structure Scan.At (sc : Scan) (bufsz : Nat) (cutHere : Option Nat) (t tail : List UInt8) : Prop where
  scanThis : sc.scanThis = t ++ tail
  room : sc.dest.length + sc.copyThis.length + t.length < bufsz
  copied : sc.copyThis.length ≤ sc.pos
  cuts : Cuts sc.pos t cutHere tail

variable {sc : Scan} {bufsz fuel : Nat} {cutHere : Option Nat}

/-- What is left is copied up to `cut_here`. -/
theorem Scan.At.done (h : sc.At bufsz cutHere t tail) :
    sc.done bufsz cutHere = sc.dest ++ sc.copyThis ++ t := by
  obtain ⟨hscan, hroom, hcopied, hcuts⟩ := h
  have hlength : (sc.copyThis ++ t).length = sc.copyThis.length + t.length := List.length_append
  unfold Scan.done
  rw [hscan, ← List.append_assoc sc.copyThis, List.append_assoc sc.dest]
  cases hcuts with
  | none =>
    dsimp only
    rw [List.append_nil, List.take_of_length_le (by omega)]
  | cut more _ =>
    dsimp only
    rw [List.take_left' (by omega)]

/-- No '{' is left before `cut_here`. -/
theorem Scan.At.loop_plain (h : sc.At bufsz cutHere t tail) (hplain : 0x7b ∉ t) :
    unbraceLoop bufsz cutHere (fuel + 1) sc = some (sc.dest ++ sc.copyThis ++ t) := by
  rw [unbraceLoop, h.scanThis]
  rcases h.cuts with _ | ⟨more, -⟩
  · rw [List.append_nil, strstr_singleton_eq_none.2 hplain, h.done]
  · have hfound : strstr [0x7b] (t ++ (cutTag ++ more)) = some (t, cutTag ++ more) :=
      strstr_singleton_append hplain (0x7b :: more)
    rw [hfound]
    dsimp only [cutTag, List.cons_append, List.nil_append, List.tail_cons]
    split
    · rw [h.done]
    · rw [if_pos (by simp; omega), h.done]

theorem lt_of_endTag (hend : ¬endTag <:+: more) (h : more ++ (cutTag ++ tail) = mid ++ endTag ++ y) :
    more.length < mid.length := by
  by_contra hle
  have hprefix : mid <+: more := by
    refine List.prefix_of_prefix_length_le ?_ (List.prefix_append more (cutTag ++ tail)) (Nat.le_of_not_lt hle)
    rw [h, List.append_assoc]
    exact List.prefix_append _ _
  obtain ⟨rest, rfl⟩ := hprefix
  rw [List.append_assoc, List.append_assoc] at h
  have hrest := List.append_cancel_left h
  match rest with
  | [] => simp [cutTag, endTag] at hrest
  | [a] => simp [cutTag, endTag] at hrest
  | a :: b :: rest =>
    simp only [endTag, List.cons_append, List.nil_append, List.cons.injEq] at hrest
    obtain ⟨rfl, rfl, -⟩ := hrest
    exact hend ⟨mid, rest, by simp [endTag]⟩

/-- A '{' at the end: what is behind the NUL is looked at. -/
theorem Scan.At.loop_last (h : sc.At bufsz cutHere (pre ++ [0x7b]) tail) (hpre : 0x7b ∉ pre) :
    unbraceLoop bufsz cutHere (fuel + 1) sc = none := by
  rw [unbraceLoop, h.scanThis]
  rcases h.cuts with _ | ⟨more, hlast⟩
  · rw [List.append_nil, strstr_singleton_append hpre]
    rfl
  · exact absurd List.getLast?_concat hlast

/-- There is no "}%" before `cut_here`. -/
theorem Scan.At.loop_noEnd (h : sc.At bufsz cutHere (pre ++ 0x7b :: c :: more) tail)
    (hpre : 0x7b ∉ pre) (hend : ¬endTag <:+: more) :
    unbraceLoop bufsz cutHere (fuel + 1) sc = some (sc.dest ++ sc.copyThis ++ (pre ++ 0x7b :: c :: more)) := by
  rw [unbraceLoop, h.scanThis, List.append_assoc, List.cons_append, List.cons_append,
    strstr_singleton_append hpre]
  dsimp only [List.tail_cons]
  split
  · rw [h.done]
  · next mid rcb hfound =>
    obtain ⟨y, rfl, hmid, -⟩ := strstr_eq_some hfound
    rcases h.cuts with _ | ⟨tail, -⟩
    · rw [List.append_nil, List.append_assoc] at hmid
      exact absurd (hmid ▸ List.infix_append' _ _ _) hend
    · have hlt : more.length < mid.length := lt_of_endTag hend hmid
      rw [if_pos (by simp; omega), h.done]

theorem Scan.At.next {sc : Scan} {bufsz : Nat} {cutHere : Option Nat} {seg t tail : List UInt8}
    (h : sc.At bufsz cutHere (seg ++ t) tail) (dest copyThis : List UInt8) {pos : Nat}
    (hpos : pos = sc.pos + seg.length)
    (hroom : dest.length + copyThis.length ≤ sc.dest.length + sc.copyThis.length + seg.length)
    (hcopied : copyThis.length ≤ pos) :
    Scan.At ⟨dest, copyThis, pos, t ++ tail⟩ bufsz cutHere t tail := by
  have hlength : (seg ++ t).length = seg.length + t.length := List.length_append
  have hbefore := h.room
  refine ⟨rfl, by dsimp only; omega, hcopied, ?_⟩
  rcases h.cuts with _ | ⟨more, hlast⟩
  · exact .none
  · have hcut : sc.pos + (seg ++ t).length = pos + t.length := by omega
    rw [hcut]
    refine .cut more fun hbrace => hlast ?_
    have hne : t ≠ [] := by
      rintro rfl
      simp at hbrace
    rw [List.getLast?_append_of_ne_nil _ hne, hbrace]

theorem Scan.At.loop_next (h : sc.At bufsz cutHere (pre ++ 0x7b :: c :: more) tail)
    (hpre : 0x7b ∉ pre) (hfound : strstr endTag more = some (mid, endTag ++ t))
    (hmore : more = mid ++ endTag ++ t) :
    unbraceLoop bufsz cutHere (fuel + 1) sc = unbraceLoop bufsz cutHere fuel
      (if isIdentifier (c :: mid) = true then
        ⟨sc.dest ++ (sc.copyThis ++ pre), [0x25], sc.pos + pre.length + 2 + mid.length + 2, t ++ tail⟩
      else
        ⟨sc.dest, sc.copyThis ++ pre ++ 0x7b :: c :: mid ++ endTag, sc.pos + pre.length + 2 + mid.length + 2,
          t ++ tail⟩) := by
  have hroom := h.room
  have hlength : (pre ++ 0x7b :: c :: more).length = pre.length + (mid.length + 2 + t.length + 2) := by
    simp [hmore, endTag]
    omega
  have hbefore : ¬(cutHere.any (· < sc.pos + pre.length + 2 + mid.length)) = true := by
    rcases h.cuts with _ | ⟨_, -⟩
    · simp
    · simp only [Option.any_some, decide_eq_true_eq]
      omega
  have hcopy : (sc.copyThis ++ pre).take (min (sc.copyThis ++ pre).length (bufsz - (sc.dest.length + 1))) =
      sc.copyThis ++ pre := by
    refine List.take_of_length_le ?_
    rw [List.length_append]
    omega
  rw [unbraceLoop, h.scanThis, List.append_assoc, List.cons_append, List.cons_append,
    strstr_singleton_append hpre]
  dsimp only [List.tail_cons]
  rw [strstr_append hfound]
  dsimp only
  rw [if_neg hbefore, hcopy]
  split
  · rfl
  · rfl

/-- The loop finds what is there, or what it gives is too long. -/
theorem unbraceLoop_spec (hsc : sc.At bufsz cutHere t tail) (hfuel : t.length ≤ fuel)
    (hu : Unbraced t u) :
    (FindsAll t ∧ unbraceLoop bufsz cutHere fuel sc = some (sc.dest ++ sc.copyThis ++ u)) ∨
      (¬FindsAll t ∧ ∀ v, unbraceLoop bufsz cutHere fuel sc = some v →
        (sc.dest ++ sc.copyThis ++ u).length < v.length) := by
  induction fuel generalizing sc t u with
  | zero =>
    obtain rfl : t = [] := List.length_eq_zero_iff.1 (Nat.le_zero.1 hfuel)
    obtain rfl := hu.unique .nil
    exact .inl ⟨.plain List.not_mem_nil, by rw [unbraceLoop, hsc.done]⟩
  | succ fuel ih =>
    by_cases hplain : 0x7b ∉ t
    · obtain rfl := hu.unique (unbraced_of_plain hplain)
      exact .inl ⟨.plain hplain, hsc.loop_plain hplain⟩
    · obtain ⟨pre, behind, rfl, hpre⟩ := List.eq_append_cons_of_mem (not_not.1 hplain)
      cases behind with
      | nil => exact .inr ⟨not_findsAll_last hpre, fun v hv => by rw [hsc.loop_last hpre] at hv; cases hv⟩
      | cons c more =>
        cases hfound : strstr endTag more with
        | none =>
          have hend := strstr_eq_none.1 hfound
          obtain rfl := hu.unique (unbraced_of_noEnd hpre hend)
          exact .inl ⟨.noEnd hpre hend, hsc.loop_noEnd hpre hend⟩
        | some found =>
          obtain ⟨mid, rcb⟩ := found
          obtain ⟨t, rfl, hmore, hfirst⟩ := strstr_eq_some hfound
          obtain ⟨u', hu'⟩ := exists_unbraced t
          have hlast : (0x7b :: c :: (mid ++ endTag)).getLast? = some 0x25 :=
            List.getLast?_eq_some_iff.2 ⟨0x7b :: c :: mid ++ [0x7d], by simp [endTag]⟩
          have hwhole : pre ++ 0x7b :: c :: more = (pre ++ 0x7b :: c :: (mid ++ endTag)) ++ t := by
            simp [hmore]
          have hcomes : ∀ w, Unbraced (0x7b :: c :: (mid ++ endTag)) w → u = pre ++ (w ++ u') := by
            intro w hw
            have hsegment := Unbraced.plain_append hpre (hw.append hu' (.inr hlast))
            exact hu.unique (by simpa [hmore] using hsegment)
          have hfuel' : t.length ≤ fuel := by
            simp only [hmore, List.length_append, List.length_cons] at hfuel
            omega
          have hcopied := hsc.copied
          rw [hsc.loop_next hpre hfound hmore]
          rw [hwhole] at hsc
          rw [hmore, findsAll_next_iff hpre hfirst]
          rcases unbraced_segment (c := c) hfirst with ⟨hid, hw⟩ | ⟨hid, hends, hw⟩ | ⟨hid, hends, w, hw, hlt⟩
          · obtain rfl := hcomes _ hw
            rw [if_pos hid]
            have hnext := hsc.next (sc.dest ++ (sc.copyThis ++ pre)) [0x25]
              (show sc.pos + pre.length + 2 + mid.length + 2 = _ by simp [endTag]; omega) (by simp [endTag]; omega) (by simp)
            simpa [hid] using ih hnext hfuel' hu'
          · obtain rfl := hcomes _ hw
            rw [if_neg hid]
            have hnext := hsc.next sc.dest (sc.copyThis ++ pre ++ 0x7b :: c :: mid ++ endTag)
              (show sc.pos + pre.length + 2 + mid.length + 2 = _ by simp [endTag]; omega) (by simp [endTag]; omega) (by simp [endTag]; omega)
            simpa [hends] using ih hnext hfuel' hu'
          · obtain rfl := hcomes _ hw
            rw [if_neg hid]
            have hnext := hsc.next sc.dest (sc.copyThis ++ pre ++ 0x7b :: c :: mid ++ endTag)
              (show sc.pos + pre.length + 2 + mid.length + 2 = _ by simp [endTag]; omega) (by simp [endTag]; omega) (by simp [endTag]; omega)
            refine .inr ⟨fun h => h.1.elim hid fun hends' => hends' hends, fun v hv => ?_⟩
            simp only [List.length_append, List.length_cons] at hlt ⊢
            rcases ih hnext hfuel' hu' with ⟨-, hloop⟩ | ⟨-, hloop⟩
            · rw [hloop] at hv
              cases hv
              simp only [List.length_append, List.length_cons]
              omega
            · have hlonger := hloop v hv
              simp only [List.length_append, List.length_cons] at hlonger
              omega

/-! ## What is asked of `_evl_unbrace` -/

def beforeCut (fmt : List UInt8) : List UInt8 :=
  match strstr cutTag fmt with
  | none => fmt
  | some (before, _) => before

/-- The text before "{{" comes out with its identifiers taken out, in a buffer
as long as the format, and nothing behind the NUL is looked at. -/
def UnbracesRight (fmt : List UInt8) : Prop :=
  ∃ u, evlUnbrace fmt = some u ∧ Unbraced (beforeCut fmt) u ∧ u.length + 1 ≤ fmt.length + 1

theorem at_start (fmt : List UInt8) :
    ∃ tail, Scan.At ⟨[], [], 0, fmt⟩ (fmt.length + 1) ((strstr cutTag fmt).map fun found => found.1.length)
      (beforeCut fmt) tail ∧ (beforeCut fmt).length ≤ fmt.length := by
  unfold beforeCut
  cases hcut : strstr cutTag fmt with
  | none => exact ⟨[], ⟨by simp, by simp, by simp, .none⟩, le_rfl⟩
  | some found =>
    obtain ⟨before, rest⟩ := found
    obtain ⟨more, rfl, hfmt, hfirst⟩ := strstr_eq_some hcut
    have hlength : before.length ≤ fmt.length := by
      rw [hfmt, List.append_assoc, List.length_append]
      exact Nat.le_add_right _ _
    refine ⟨cutTag ++ more, ⟨by simpa using hfmt, by simpa using Nat.lt_succ_of_le hlength, by simp, ?_⟩, hlength⟩
    have hlast : before.getLast? ≠ some 0x7b := by
      intro hbrace
      obtain ⟨front, rfl⟩ := List.getLast?_eq_some_iff.1 hbrace
      refine hfirst front.length (by simp) ⟨0x7b :: more, ?_⟩
      simp [cutTag]
    have hcuts : Cuts 0 before (some (0 + before.length)) (cutTag ++ more) := .cut more hlast
    simpa using hcuts

/-- Where `_evl_unbrace` takes out the identifiers. -/
theorem unbracesRight_iff (fmt : List UInt8) : UnbracesRight fmt ↔ FindsAll (beforeCut fmt) := by
  obtain ⟨tail, hstart, hlength⟩ := at_start fmt
  obtain ⟨u, hu⟩ := exists_unbraced (beforeCut fmt)
  rcases unbraceLoop_spec hstart hlength hu with ⟨hfinds, hloop⟩ | ⟨hfinds, hloop⟩
  · refine ⟨fun _ => hfinds, fun _ => ⟨u, by simpa [evlUnbrace] using hloop, hu, ?_⟩⟩
    exact Nat.succ_le_succ (hu.length_le.trans hlength)
  · refine ⟨fun ⟨v, hv, hunbraced, _⟩ => ?_, fun h => absurd h hfinds⟩
    obtain rfl := hu.unique hunbraced
    exact absurd (hloop u hv) (by simp)

/-- In "{ {n}%d" the identifier is missed. -/
theorem unbraces_missed : ¬UnbracesRight [0x7b, 0x20, 0x7b, 0x6e, 0x7d, 0x25, 0x64] := by
  rintro ⟨u, hu, hunbraced, -⟩
  have hsame : u = [0x7b, 0x20, 0x7b, 0x6e, 0x7d, 0x25, 0x64] := by
    have hcomputed : evlUnbrace [0x7b, 0x20, 0x7b, 0x6e, 0x7d, 0x25, 0x64] =
        some [0x7b, 0x20, 0x7b, 0x6e, 0x7d, 0x25, 0x64] := by decide
    rw [hcomputed] at hu
    exact (Option.some.inj hu).symm
  have hid : isIdentifier [0x6e] = true := by decide
  have hshorter := hunbraced.length_lt hid (by decide)
  rw [hsame] at hshorter
  exact absurd hshorter (by decide)

/-- A '{' at the end. -/
example : evlUnbrace [0x61, 0x7b] = none := by decide

end Evlog.Printf
