/-
Evlog.Util.FormatFixedTheorems — the size that `evl_format_evrec_fixed`
asks for is the size it needs.

The text is a matter of the record, the separator and the line length
(`layout`); the buffer decides only how much of it is there. One attribute
keeps `Kept`: the count is right, and either the text so far stands in the
buffer or there is no room for it.

Other flags and longer separators are refused with a required length of 0, by
design. Nothing is said of the host's name, which `attr` has no room set aside
for, and of the user's name of a record from another host.
-/
import Evlog.Util.FormatFixed

namespace Evlog.Util

open Evlog.Lib Evlog.Posix
open Evlog.Query (System Selector posixLogMemtostr evlAttributes evlGetHostNameEx decimal memberText)

/-! ## What should be -/

/-- The length that is asked for is the same for every buffer, a call
succeeds just when the buffer has it, and then a string of that length
less one stands in the buffer. -/
def SizeHonest (call : Dest → Bool → Except Undefined Formatted) : Prop :=
  ∃ n : Nat, ∀ (buf : List UInt8) (reqlen : Bool), ∃ r, call (.mem buf) reqlen = .ok r
    ∧ (reqlen = true → r.reqlen = some n)
    ∧ (r.status = none ↔ n ≤ buf.length)
    ∧ (r.status = none → ∃ (mem : List UInt8) (text : CString), r.dest = .mem mem
        ∧ mem.length = buf.length ∧ Stands mem text ∧ text.bytes.length = n - 1)

/-! ## The text -/

/-- The attributes one behind the other, with their line breaks. -/
def layout (separator : CString) (linelen : Nat) : Nat → List CString → CString
  | _, [] => ⟨[], CString.noNul_nil⟩
  | curLineLen, attr :: rest =>
    if needNewLine (some separator) linelen curLineLen attr.bytes.length then
      newLine.append (attr.append (layout separator linelen attr.bytes.length rest))
    else attr.append (layout separator linelen (curLineLen + attr.bytes.length) rest)

section Loop

variable {sys : System} {entry : PosixLogEntry} {separator : CString} {linelen : Nat}
  {fmtFlags : Int32}

/-- `addAttr` comes to append this text, whatever the buffer. -/
def Built (sys : System) (entry : PosixLogEntry) (separator : CString) (linelen : Nat)
    (fmtFlags : Int32) (nv : Selector × String) (lastAttr : Bool) (attr : CString) : Prop :=
  ∀ (buflen : Nat) (st : AttrState),
    addAttr sys entry nv.1 nv.2 buflen (some separator) linelen fmtFlags lastAttr st =
      appendAttr buflen (some separator) linelen st attr

/-- The texts of all attributes of a list. -/
inductive BuiltAll (sys : System) (entry : PosixLogEntry) (separator : CString) (linelen : Nat)
    (fmtFlags : Int32) : List (Selector × String) → List CString → Prop
  | nil : BuiltAll sys entry separator linelen fmtFlags [] []
  | cons {nv : Selector × String} {nvs : List (Selector × String)} {attr : CString}
      {attrs : List CString}
      (head : Built sys entry separator linelen fmtFlags nv nvs.isEmpty attr)
      (tail : BuiltAll sys entry separator linelen fmtFlags nvs attrs) :
      BuiltAll sys entry separator linelen fmtFlags (nv :: nvs) (attr :: attrs)

/-- The state after the text `t`. -/
structure Kept (buflen : Nat) (t : CString) (status : Option Errno) (st : AttrState) : Prop where
  size : st.totalSize = t.bytes.length
  shown : (status = none ∧ ∃ mem, st.dest = .mem mem ∧ mem.length = buflen ∧ Stands mem t)
    ∨ (status ≠ none ∧ buflen < t.bytes.length + 1)

/-- What a call that comes to the text `t` returns. -/
structure Ends (buflen : Nat) (reqlen : Bool) (t : CString) (r : Formatted) : Prop where
  asks : reqlen = true → r.reqlen = some (t.bytes.length + 1)
  succeeds : r.status = none ↔ t.bytes.length + 1 ≤ buflen
  shows : r.status = none → ∃ mem, r.dest = .mem mem ∧ mem.length = buflen ∧ Stands mem t

/-- A call that fails, on a buffer that has not the room. -/
theorem ends_of_error {buflen : Nat} {reqlen : Bool} {t : CString} {r : Formatted}
    (herr : r.status ≠ none) (hlt : buflen < t.bytes.length + 1)
    (hasks : reqlen = true → r.reqlen = some (t.bytes.length + 1)) : Ends buflen reqlen t r where
  asks := hasks
  succeeds := iff_of_false herr (by omega)
  shows hnone := absurd hnone herr

theorem Kept.ends {buflen : Nat} {t : CString} {status : Option Errno} {st : AttrState}
    (h : Kept buflen t status st) (reqlen : Bool) :
    Ends buflen reqlen t
      { status, reqlen := if reqlen then some (st.totalSize + 1) else none, dest := st.dest } where
  asks := by
    intro hreq
    rw [if_pos hreq, h.size]
  succeeds := by
    cases h.shown with
    | inl hin =>
      obtain ⟨hnone, mem, _, hlen, hstands⟩ := hin
      have hlt := hstands.lt_length
      exact iff_of_true hnone (by omega)
    | inr hout => exact iff_of_false hout.1 (by omega)
  shows := by
    intro hnone
    cases h.shown with
    | inl hin => exact hin.2
    | inr hout => exact absurd hnone hout.1

/-- `addAttr` appends to the string in the buffer. -/
theorem catBuf_eq {buf : List UInt8} {t s : CString} (h : Stands buf t) {pos : Nat}
    (hpos : pos ≤ t.bytes.length) (hroom : (t.append s).bytes.length < buf.length) :
    ∃ mem, catBuf (.mem buf) pos s = .ok (.mem mem) ∧ mem.length = buf.length
      ∧ Stands mem (t.append s) := by
  obtain ⟨mem, heq, hlen, hstands⟩ := strcatAt_eq h hpos hroom
  refine ⟨mem, ?_, hlen, hstands⟩
  simp only [catBuf]
  rw [heq]

def piece (wrap : Bool) (attr : CString) : CString :=
  if wrap then newLine.append attr else attr

theorem piece_length (wrap : Bool) (attr : CString) :
    (piece wrap attr).bytes.length = wrap.toNat + attr.bytes.length := by
  cases wrap with
  | false => exact (Nat.zero_add _).symm
  | true =>
    have hnl : newLine.bytes.length = 1 := by decide
    show (newLine.bytes ++ attr.bytes).length = 1 + attr.bytes.length
    rw [List.length_append, hnl]

/-- The line break and the attribute go in one behind the other. -/
theorem catPiece_eq {buf : List UInt8} {t : CString} (h : Stands buf t) {wrap : Bool}
    {attr : CString} (hroom : (t.append (piece wrap attr)).bytes.length < buf.length) :
    ∃ mem, catPiece (.mem buf) t.bytes.length wrap attr = .ok (.mem mem)
      ∧ mem.length = buf.length ∧ Stands mem (t.append (piece wrap attr)) := by
  cases wrap with
  | false => exact catBuf_eq h le_rfl hroom
  | true =>
    have hassoc : (t.append newLine).append attr = t.append (newLine.append attr) :=
      CString.ext (List.append_assoc _ _ _)
    rw [piece, if_pos rfl, ← hassoc] at hroom
    have hle : (t.append newLine).bytes.length ≤ ((t.append newLine).append attr).bytes.length := by
      simp
    obtain ⟨mem, heq, hlen, hstands⟩ := catBuf_eq h le_rfl (lt_of_le_of_lt hle hroom)
    have hpos : t.bytes.length ≤ (t.append newLine).bytes.length := by simp
    obtain ⟨mem', heq', hlen', hstands'⟩ := catBuf_eq hstands hpos (by rw [hlen]; exact hroom)
    refine ⟨mem', ?_, hlen'.trans hlen, ?_⟩
    · rw [catPiece, if_pos rfl, heq]
      exact heq'
    · rw [piece, if_pos rfl, ← hassoc]
      exact hstands'

/-- One attribute: it is appended, or there is no room for it. -/
theorem appendAttr_kept {buflen : Nat} {t : CString} {status : Option Errno} {st : AttrState}
    (h : Kept buflen t status st) (attr : CString) :
    ∃ (result : Option Errno) (st' : AttrState) (t' : CString),
      appendAttr buflen (some separator) linelen st attr = .ok (result, st')
        ∧ (∀ attrs, t.append (layout separator linelen st.curLineLen (attr :: attrs)) =
            t'.append (layout separator linelen st'.curLineLen attrs))
        ∧ (result = none ∧ status = none ∨ result = some .emsgsize)
        ∧ Kept buflen t' result st' := by
  unfold appendAttr
  simp only [layout]
  generalize needNewLine (some separator) linelen st.curLineLen attr.bytes.length = wrap
  have hpiece : ∀ attrs, t.append
      (if wrap then newLine.append (attr.append (layout separator linelen attr.bytes.length attrs))
        else attr.append (layout separator linelen (st.curLineLen + attr.bytes.length) attrs)) =
      (t.append (piece wrap attr)).append (layout separator linelen
        (if wrap then attr.bytes.length else st.curLineLen + attr.bytes.length) attrs) := by
    intro attrs
    refine CString.ext ?_
    cases wrap <;> simp [piece]
  have hsize : st.totalSize + wrap.toNat + attr.bytes.length =
      (t.append (piece wrap attr)).bytes.length := by
    rw [CString.append_bytes, List.length_append, piece_length, h.size, Nat.add_assoc]
  rw [hsize]
  by_cases hfull : (t.append (piece wrap attr)).bytes.length + 1 > buflen
  · rw [if_pos hfull]
    exact ⟨_, _, t.append (piece wrap attr), rfl, hpiece, Or.inr rfl, rfl,
      Or.inr ⟨Option.some_ne_none _, hfull⟩⟩
  · rw [if_neg hfull]
    cases h.shown with
    | inr hout =>
      have hlt := hout.2
      have hge : t.bytes.length ≤ (t.append (piece wrap attr)).bytes.length := by
        rw [CString.append_bytes, List.length_append]
        exact Nat.le_add_right _ _
      omega
    | inl hin =>
      obtain ⟨hnone, mem, hdest, hlen, hstands⟩ := hin
      obtain ⟨mem', hcat, hlen', hstands'⟩ :=
        @catPiece_eq mem t hstands wrap attr (by omega)
      rw [hdest, h.size, hcat]
      exact ⟨_, _, t.append (piece wrap attr), rfl, hpiece, Or.inl ⟨rfl, hnone⟩, rfl,
        Or.inl ⟨rfl, mem', rfl, hlen'.trans hlen, hstands'⟩⟩

theorem addAttrs_ends {nvs : List (Selector × String)} {attrs : List CString}
    (hbuilt : BuiltAll sys entry separator linelen fmtFlags nvs attrs) {buflen : Nat}
    {t : CString} {status : Option Errno} {st : AttrState} (h : Kept buflen t status st)
    {reqlen : Bool} (hstatus : reqlen = false → status = none) :
    ∃ r, addAttrs sys entry buflen reqlen (some separator) linelen fmtFlags status st nvs = .ok r
      ∧ Ends buflen reqlen (t.append (layout separator linelen st.curLineLen attrs)) r := by
  induction hbuilt generalizing t status st with
  | nil =>
    refine ⟨_, rfl, ?_⟩
    have hnil : t.append (layout separator linelen st.curLineLen []) = t :=
      CString.ext (List.append_nil t.bytes)
    rw [hnil]
    exact h.ends reqlen
  | @cons nv nvs attr attrs head tail ih =>
    obtain ⟨result, st', t', heq, hlayout, hresult, h'⟩ :=
      @appendAttr_kept separator linelen _ _ _ _ h attr
    rw [hlayout, addAttrs, head, heq]
    simp only [bind, Except.bind]
    cases hresult with
    | inl hok =>
      obtain ⟨hnone, hprev⟩ := hok
      subst hnone hprev
      exact ih h' fun _ => rfl
    | inr hfull =>
      subst hfull
      cases reqlen with
      | true => exact ih h' fun hfalse => Bool.noConfusion hfalse
      | false =>
        refine ⟨_, rfl, ends_of_error (Option.some_ne_none _) ?_ fun htrue => Bool.noConfusion htrue⟩
        cases h'.shown with
        | inl hin => exact absurd hin.1 (Option.some_ne_none _)
        | inr hout =>
          rw [CString.append_bytes, List.length_append]
          omega

end Loop

/-! ## The attributes -/

theorem cText_length (s : String) : (cText s).bytes.length ≤ s.length := by
  calc (cText s).bytes.length ≤ (s.toList.map fun c => c.toNat.toUInt8).length :=
        (List.takeWhile_sublist _).length_le
    _ = s.length := by rw [List.length_map, String.length_toList]

theorem catAttr_eq {attr s : CString} (h : attr.bytes.length + s.bytes.length < attrSize) :
    catAttr attr s = .ok (attr.append s) := by
  have hlt : (attr.append s).bytes.length < attrSize := by
    rw [CString.append_bytes, List.length_append]
    exact h
  exact if_pos hlt

theorem catAttr_bind {attr s : CString} (h : attr.bytes.length + s.bytes.length < attrSize)
    (f : CString → Except Undefined CString) : (catAttr attr s >>= f) = f (attr.append s) := by
  rw [catAttr_eq h]
  rfl

/-- What the texts of a record must be for `val` and `attr` to hold them.
The first two are promised by `getpwuid_r` and `getgrgid_r`, which have a
buffer of that size; of the other two nothing is promised. -/
structure TextsFit (sys : System) (entry : PosixLogEntry) (separator : CString)
    (fmtFlags : Int32) : Prop where
  user : ∀ uid name, sys.getpwuid uid = some name → name.length < posixLogMemstrMaxlen
  group : ∀ gid name, sys.getgrgid gid = some name → name.length < posixLogMemstrMaxlen
  remote : entry.logProcessor >>> 16 ≠ 0 → sys.uninitialized.length < posixLogMemstrMaxlen
  processor : (if fmtFlags &&& evlCompact ≠ 0 then 0 else 15)
    + (cText (decimal (entry.logProcessor &&& 0xffff).toInt)).bytes.length
    + separator.bytes.length
    + (cText (evlGetHostNameEx sys (entry.logProcessor >>> 16))).bytes.length < attrSize

section Attributes

variable {sys : System} {entry : PosixLogEntry} {separator : CString} {linelen : Nat}
  {fmtFlags : Int32}

theorem addFlag_length (flags flag : UInt32) (name : String) (s : String × Bool) :
    (Query.addFlag flags flag name s).1.length ≤ s.1.length + 2 + name.length := by
  have h1 : "|".length = 1 := by decide
  have h2 : " (".length = 2 := by decide
  unfold Query.addFlag
  split_ifs
  · simp only [String.length_append]
    omega
  · simp only [String.length_append]
    omega
  · omega

theorem flagsText_length (flags : UInt32) : (Query.flagsText flags).length ≤ 49 := by
  have hhex := Query.hex_length flags
  have h1 := addFlag_length flags evlKernelEvent "KERNEL" (Query.hex flags, false)
  have h2 := addFlag_length flags evlPrintk "PRINTK" (Query.addFlag flags evlKernelEvent "KERNEL"
    (Query.hex flags, false))
  have h3 := addFlag_length flags evlInterrupt "INTERRUPT" (Query.addFlag flags evlPrintk "PRINTK"
    (Query.addFlag flags evlKernelEvent "KERNEL" (Query.hex flags, false)))
  have h4 := addFlag_length flags posixLogTruncate "TRUNCATE" (Query.addFlag flags evlInterrupt
    "INTERRUPT" (Query.addFlag flags evlPrintk "PRINTK"
      (Query.addFlag flags evlKernelEvent "KERNEL" (Query.hex flags, false))))
  have hnames : "KERNEL".length = 6 ∧ "PRINTK".length = 6 ∧ "INTERRUPT".length = 9
      ∧ "TRUNCATE".length = 8 ∧ ")".length = 1 := by decide
  unfold Query.flagsText
  dsimp only at *
  split_ifs
  · rw [String.length_append]
    omega
  · omega

/-- The text of every attribute fits in `val`. -/
theorem memberText_fits (h : TextsFit sys entry separator fmtFlags) {nv : Selector × String}
    (hnv : nv ∈ evlAttributes) :
    ∃ val, memberText sys (rechdr entry nv.1) nv.1 = .ok val
      ∧ val.length < posixLogMemstrMaxlen := by
  have hshort : ∀ {n : Nat}, n ≤ 49 → n < posixLogMemstrMaxlen := by
    intro n hn
    simp only [posixLogMemstrMaxlen]
    omega
  have hrepr : ∀ n : UInt32, n.toNat.repr.length ≤ 10 := by
    intro n
    have hn := n.toNat_lt
    exact Query.natRepr_length_le (by decide) (by omega)
  obtain ⟨sel, name⟩ := nv
  cases sel with
  | recid | pid | pgrp | processor =>
    exact ⟨_, rfl, hshort ((Query.decimal_int32_length _).trans (by decide))⟩
  | format | severity =>
    exact ⟨_, rfl, hshort ((Query.evlGetNameByValue_length (by decide) _).trans (by decide))⟩
  | eventType | thread => exact ⟨_, rfl, hshort ((Query.hex_length _).trans (by decide))⟩
  | size => exact ⟨_, rfl, hshort ((hrepr _).trans (by decide))⟩
  | flags => exact ⟨_, rfl, hshort (flagsText_length _)⟩
  | facility =>
    simp only [memberText]
    cases hn : sys.facilityName (rechdr entry .facility).logFacility with
    | none => exact ⟨_, rfl, hshort ((Query.hex_length _).trans (by decide))⟩
    | some name => exact ⟨_, rfl, sys.facilityName_length _ _ hn⟩
  | time =>
    refine ⟨_, rfl, ?_⟩
    rw [String.length_ofList]
    calc _ ≤ (sys.strftime (rechdr entry .time).logTimeSec).toList.length :=
          (List.takeWhile_sublist _).length_le
      _ = (sys.strftime (rechdr entry .time).logTimeSec).length := String.length_toList
      _ < posixLogMemstrMaxlen := sys.strftime_length _
  | uid =>
    have hentry : rechdr entry .uid = entry := rfl
    simp only [memberText, hentry]
    split_ifs with hremote
    · exact ⟨_, rfl, h.remote hremote⟩
    · cases hn : sys.getpwuid entry.logUid with
      | none => exact ⟨_, rfl, hshort ((hrepr _).trans (by decide))⟩
      | some name => exact ⟨_, rfl, h.user _ _ hn⟩
  | gid =>
    simp only [memberText]
    cases hn : sys.getgrgid (rechdr entry .gid).logGid with
    | none => exact ⟨_, rfl, hshort ((hrepr _).trans (by decide))⟩
    | some name => exact ⟨_, rfl, h.group _ _ hn⟩
  | data | age | host => simp [evlAttributes] at hnv

/-- Every other attribute has room for its name and the separator. -/
theorem buildAttr_other {sel : Selector} (hsel : sel ≠ .processor) {name val : String}
    (hname : name.length ≤ 10) (hval : val.length < posixLogMemstrMaxlen)
    (hsep : separator.bytes.length ≤ maxseplen) (lastAttr : Bool) :
    ∃ attr, buildAttr sys entry sel name val (some separator) fmtFlags lastAttr = .ok attr := by
  have hname' := (cText_length name).trans hname
  have hval' := lt_of_le_of_lt (cText_length val) hval
  have h0 : (cText "").bytes.length = 0 := by decide
  have h1 : (cText "=").bytes.length = 1 := by decide
  have hsize : attrSize = 166 := rfl
  simp only [posixLogMemstrMaxlen, maxseplen] at hval' hsep
  unfold buildAttr
  simp only [hsel, if_false]
  split_ifs with hcompact hlast hlast
  · rw [catAttr_bind (by omega)]
    exact ⟨_, rfl⟩
  · rw [catAttr_bind (by omega)]
    exact ⟨_, catAttr_eq (by simp only [CString.append_bytes, List.length_append]; omega)⟩
  · rw [catAttr_bind (by omega),
      catAttr_bind (by simp only [CString.append_bytes, List.length_append]; omega),
      catAttr_bind (by simp only [CString.append_bytes, List.length_append]; omega)]
    exact ⟨_, rfl⟩
  · rw [catAttr_bind (by omega),
      catAttr_bind (by simp only [CString.append_bytes, List.length_append]; omega),
      catAttr_bind (by simp only [CString.append_bytes, List.length_append]; omega)]
    exact ⟨_, catAttr_eq (by simp only [CString.append_bytes, List.length_append]; omega)⟩

theorem buildAttr_processor (h : TextsFit sys entry separator fmtFlags) :
    ∃ attr, buildAttr sys entry .processor "processor"
      (decimal (entry.logProcessor &&& 0xffff).toInt) (some separator) fmtFlags true = .ok attr := by
  have hfit := h.processor
  have h0 : (cText "").bytes.length = 0 := by decide
  have h1 : (cText "=").bytes.length = 1 := by decide
  have h4 : (cText "host").bytes.length = 4 := by decide
  have h9 : (cText "processor").bytes.length = 9 := by decide
  unfold buildAttr
  simp only [if_true, catSeparator]
  split_ifs at hfit ⊢ with hcompact
  · rw [catAttr_bind (by omega),
      catAttr_bind (by simp only [CString.append_bytes, List.length_append]; omega),
      catAttr_bind (by simp only [CString.append_bytes, List.length_append]; omega)]
    exact ⟨_, rfl⟩
  · rw [catAttr_bind (by omega),
      catAttr_bind (by simp only [CString.append_bytes, List.length_append]; omega),
      catAttr_bind (by simp only [CString.append_bytes, List.length_append]; omega),
      catAttr_bind (by simp only [CString.append_bytes, List.length_append]; omega),
      catAttr_bind (by simp only [CString.append_bytes, List.length_append]; omega),
      catAttr_bind (by simp only [CString.append_bytes, List.length_append]; omega),
      catAttr_bind (by simp only [CString.append_bytes, List.length_append]; omega)]
    exact ⟨_, rfl⟩

theorem built_of_buildAttr {nv : Selector × String} {val : String} {lastAttr : Bool}
    {attr : CString} (htext : memberText sys (rechdr entry nv.1) nv.1 = .ok val)
    (hval : val.length < posixLogMemstrMaxlen)
    (hattr : buildAttr sys entry nv.1 nv.2 val (some separator) fmtFlags lastAttr = .ok attr) :
    Built sys entry separator linelen fmtFlags nv lastAttr attr := by
  intro buflen st
  have hmem : posixLogMemtostr sys nv.1 (rechdr entry nv.1) posixLogMemstrMaxlen = .ok val := by
    unfold posixLogMemtostr
    rw [htext]
    exact if_neg (by omega)
  unfold addAttr
  rw [hmem]
  dsimp only
  rw [hattr]
  rfl

/-- The attributes in front of the last one, and the last one. -/
theorem exists_builtAll_append {others : List (Selector × String)} {nv : Selector × String}
    {attr : CString}
    (hothers : ∀ other ∈ others,
      ∃ attr, Built sys entry separator linelen fmtFlags other false attr)
    (hlast : Built sys entry separator linelen fmtFlags nv true attr) :
    ∃ attrs, BuiltAll sys entry separator linelen fmtFlags (others ++ [nv]) attrs := by
  induction others with
  | nil => exact ⟨[attr], .cons hlast .nil⟩
  | cons other others ih =>
    obtain ⟨attrs, hattrs⟩ := ih fun o ho => hothers o (List.mem_cons_of_mem _ ho)
    obtain ⟨attr', hattr'⟩ := hothers other List.mem_cons_self
    refine ⟨attr' :: attrs, .cons ?_ hattrs⟩
    show Built sys entry separator linelen fmtFlags other (others ++ [nv]).isEmpty attr'
    rw [List.isEmpty_eq_false_iff.mpr (List.concat_ne_nil nv others)]
    exact hattr'

theorem exists_builtAll (h : TextsFit sys entry separator fmtFlags)
    (hsep : separator.bytes.length ≤ maxseplen) :
    ∃ attrs, BuiltAll sys entry separator linelen fmtFlags evlAttributes attrs := by
  have hsplit : evlAttributes = evlAttributes.dropLast ++ [(.processor, "processor")] := by decide
  have hother : ∀ nv ∈ evlAttributes.dropLast, nv.1 ≠ .processor ∧ nv.2.length ≤ 10 := by decide
  obtain ⟨last, hlast⟩ := buildAttr_processor h
  rw [hsplit]
  refine @exists_builtAll_append _ _ _ _ _ _ _ last ?_ ?_
  · intro nv hnv
    obtain ⟨hsel, hname⟩ := hother nv hnv
    obtain ⟨val, htext, hval⟩ := memberText_fits h (List.mem_of_mem_dropLast hnv)
    obtain ⟨attr, hattr⟩ :=
      @buildAttr_other sys entry separator fmtFlags nv.1 hsel nv.2 val hname hval hsep false
    exact ⟨attr, built_of_buildAttr htext hval hattr⟩
  · have hval : (decimal (entry.logProcessor &&& 0xffff).toInt).length < posixLogMemstrMaxlen :=
      lt_of_le_of_lt (Query.decimal_int32_length _) (by decide)
    exact built_of_buildAttr rfl hval hlast

end Attributes

/-! ## The result -/

/-- The fixed part reports its size honestly: with the flags there
are, a separator that is not too long, and texts that fit. -/
theorem evlFormatEvrecFixed_honest (sys : System) (entry : PosixLogEntry) (separator : CString)
    (linelen : Nat) (fmtFlags : Int32) (hflags : fmtFlags = 0 ∨ fmtFlags = evlCompact)
    (hsep : separator.bytes.length ≤ maxseplen)
    (hfit : TextsFit sys entry separator fmtFlags) :
    SizeHonest fun dest reqlen =>
      evlFormatEvrecFixed sys (some entry) dest reqlen (some separator) linelen fmtFlags := by
  obtain ⟨attrs, hbuilt⟩ := @exists_builtAll _ _ _ linelen _ hfit hsep
  refine ⟨(layout separator linelen 0 attrs).bytes.length + 1, ?_⟩
  intro buf reqlen
  have hguard : ¬ (fmtFlags ≠ 0 ∧ fmtFlags ≠ evlCompact) := by
    intro hbad
    cases hflags with
    | inl h0 => exact hbad.1 h0
    | inr h1 => exact hbad.2 h1
  have hsep' : ¬ ((some separator).map fun s : CString => s.bytes.length).getD 0 > maxseplen :=
    not_lt.mpr hsep
  unfold evlFormatEvrecFixed
  dsimp only
  rw [if_neg hguard, if_neg hsep']
  have hends : ∀ r, Ends buf.length reqlen (layout separator linelen 0 attrs) r →
      (reqlen = true → r.reqlen = some ((layout separator linelen 0 attrs).bytes.length + 1))
        ∧ (r.status = none ↔ (layout separator linelen 0 attrs).bytes.length + 1 ≤ buf.length)
        ∧ (r.status = none → ∃ (mem : List UInt8) (text : CString), r.dest = .mem mem
            ∧ mem.length = buf.length ∧ Stands mem text
            ∧ text.bytes.length = (layout separator linelen 0 attrs).bytes.length + 1 - 1) := by
    intro r hr
    refine ⟨hr.asks, hr.succeeds, ?_⟩
    intro hnone
    obtain ⟨mem, hdest, hlen, hstands⟩ := hr.shows hnone
    exact ⟨mem, _, hdest, hlen, hstands, rfl⟩
  have hnil : (⟨[], CString.noNul_nil⟩ : CString).append (layout separator linelen 0 attrs) =
      layout separator linelen 0 attrs := rfl
  cases buf with
  | cons b rest =>
    have hkept : Kept (b :: rest).length ⟨[], CString.noNul_nil⟩ none
        { dest := .mem (0 :: rest), totalSize := 0, curLineLen := 0 } :=
      ⟨rfl, Or.inl ⟨rfl, 0 :: rest, rfl, rfl, stands_nil rest⟩⟩
    obtain ⟨r, hr, hr'⟩ := @addAttrs_ends _ _ _ _ _ _ _ hbuilt _ _ _ _ hkept reqlen fun _ => rfl
    exact ⟨r, hr, hends r hr'⟩
  | nil =>
    cases reqlen with
    | false =>
      refine ⟨_, rfl, hends _ (ends_of_error (Option.some_ne_none _) ?_ ?_)⟩
      · exact Nat.succ_pos _
      · exact fun htrue => Bool.noConfusion htrue
    | true =>
      have hkept : Kept ([] : List UInt8).length ⟨[], CString.noNul_nil⟩ (some .einval)
          { dest := .mem [], totalSize := 0, curLineLen := 0 } :=
        ⟨rfl, Or.inr ⟨Option.some_ne_none _, Nat.zero_lt_one⟩⟩
      obtain ⟨r, hr, hr'⟩ := @addAttrs_ends _ _ _ _ _ _ _ hbuilt _ _ _ _ hkept true
        fun hfalse => Bool.noConfusion hfalse
      exact ⟨r, hr, hends r hr'⟩

theorem zeroHeader_fits : TextsFit System.bare (PosixLogEntry.ofBytes []) (cText ", ") 0 where
  user uid name h := by cases h
  group gid name h := by cases h
  remote h := by decide
  processor := by decide

/-- A header of zeros, with the separator and the line length that
evlview uses. -/
theorem zeroHeader_honest :
    SizeHonest fun dest reqlen => evlFormatEvrecFixed System.bare (some (PosixLogEntry.ofBytes []))
      dest reqlen (some (cText ", ")) 80 0 :=
  evlFormatEvrecFixed_honest System.bare (PosixLogEntry.ofBytes []) (cText ", ") 80 0 (Or.inl rfl)
    (by decide) zeroHeader_fits

/-- With flags that there are not, no buffer is large enough. -/
theorem flagsTwo_not_honest : ¬ SizeHonest fun dest reqlen => evlFormatEvrecFixed System.bare
      (some (PosixLogEntry.ofBytes [])) dest reqlen (some (cText ", ")) 80 2 := by
  intro h
  obtain ⟨n, hall⟩ := h
  obtain ⟨r, hcall, hasks, hsucceeds, _⟩ := hall (List.replicate n 0) true
  have hr : r = { status := some .einval, reqlen := some 0, dest := .mem (List.replicate n 0) } :=
    (Except.ok.inj hcall).symm
  have hnone : r.status = none := hsucceeds.mpr (by rw [List.length_replicate])
  rw [hr] at hnone
  cases hnone

end Evlog.Util
