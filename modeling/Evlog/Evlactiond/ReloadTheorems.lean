/-
Evlog.Evlactiond.ReloadTheorems — when the action registry is read back as
it was written.

A line is its first seven fields (`headText`), then the interval, the name
and `any_str`. It is read back as the action it was written for if the
query and the command have no separator of theirs in them, the name and
`any_str` none of the three that end them, and what `snprintf` cut off is
nothing, or fields that are read as what they were by default (`Readable`).
The lines are then registered with one variable of flags for all of them,
so they have to agree on `POSIX_LOG_ONCE_ONLY`.
-/
import Mathlib.Data.Bool.AllAny
import Evlog.Evlactiond.RegistryTheorems
import Evlog.Evlactiond.Reload
import Evlog.Lib.SerialList

namespace Evlog.Evlactiond

open Evlog.Lib

/-! ## What is expected, and the condition -/

def NfyAction.onceOnly (act : NfyAction) : Int32 := act.hdr.flags &&& posixLogOnceOnly

structure SameAction (act loaded : NfyAction) : Prop where
  nfyId : loaded.hdr.nfyId = act.hdr.nfyId
  quStr : loaded.quStr = act.quStr
  cmd : loaded.cmd = act.cmd
  uid : loaded.hdr.uid = act.hdr.uid
  gid : loaded.hdr.gid = act.hdr.gid
  thres : loaded.hdr.thres = act.hdr.thres
  interval : loaded.hdr.interval = act.hdr.interval
  name : loaded.name = act.name
  anyStr : loaded.anyStr = act.anyStr
  onceOnly : loaded.onceOnly = act.onceOnly

structure OwnCall (act : NfyAction) (call : NotifyCall) : Prop where
  quStr : call.quStr = act.quStr
  nfyId : call.nfyId = act.hdr.nfyId
  onceOnly : call.flags &&& posixLogOnceOnly = act.onceOnly

/-- The persistent actions of the daemon, as they are written and read when
evlnotifyd takes their queries. -/
def RoundTrip (passwd : UInt32 → Bool) (d : Actiond) : Prop :=
  ∃ loaded calls,
    reload passwd (fun _ => true) (refreshActionRegistry true d).registry = some (loaded, calls) ∧
    List.Forall₂ SameAction (d.actions.filter NfyAction.persistent) loaded ∧
    List.Forall₂ OwnCall (d.actions.filter NfyAction.persistent) calls

/-- An action such as clients register: its strings are there, and its user
is known. -/
structure Ordinary (passwd : UInt32 → Bool) (act : NfyAction) : Prop where
  quStr : act.quStr.bytes ≠ []
  cmd : act.cmd.bytes ≠ []
  name : act.name.bytes ≠ []
  anyStr : act.anyStr.bytes ≠ []
  uid : passwd act.hdr.uid = true

def wordDelims : List UInt8 := [colon, 32, newline]

def IsWord (s : CString) : Prop := ∀ b ∈ s.bytes, b ∉ wordDelims

def headText (act : NfyAction) : List UInt8 :=
  CString.decimal act.hdr.nfyId.toUInt32.toNat ++ colon :: (act.quStr.bytes ++ colon ::
    (act.cmd.bytes ++ colon :: (CString.decimal act.hdr.uid.toNat ++ colon ::
    (CString.decimal act.hdr.gid.toNat ++ colon ::
    (CString.decimal act.onceOnly.toUInt32.toNat ++ colon ::
    CString.decimal act.hdr.thres.toUInt32.toNat)))))

def tailText (act : NfyAction) : List UInt8 :=
  CString.decimal act.hdr.interval.toNat ++ colon :: (act.name.bytes ++ colon ::
    (act.anyStr.bytes ++ [newline]))

def numbersLength (act : NfyAction) : Nat :=
  (headText act).length + 1 + (CString.decimal act.hdr.interval.toNat).length

/-- The buffer has room for the line without its newline. Or it ends right
before or behind a colon, and the fields it has no room for are the
defaults. -/
def LineKept (act : NfyAction) : Prop :=
  numbersLength act + 1 + act.name.bytes.length + 1 + act.anyStr.bytes.length ≤ smallBufSize - 1 ∨
  (act.anyStr = noAnyStr ∧ numbersLength act + 1 + act.name.bytes.length ≤ smallBufSize - 1 ∧
    smallBufSize - 2 ≤ numbersLength act + 1 + act.name.bytes.length) ∨
  (act.name = noname ∧ act.anyStr = noAnyStr ∧ numbersLength act ≤ smallBufSize - 1 ∧
    smallBufSize - 2 ≤ numbersLength act)

/-- The line of the action can be read back. -/
structure Readable (act : NfyAction) : Prop where
  quStr : IsField act.quStr
  cmd : IsField act.cmd
  name : IsWord act.name
  anyStr : IsWord act.anyStr
  kept : LineKept act

theorem registryText_eq_head (act : NfyAction) :
    registryText act = headText act ++ colon :: tailText act := by
  simp [registryText, headText, tailText, NfyAction.onceOnly]

/-! ## Fields -/

section Fields

variable {s : CString} {r : List UInt8}

variable {tok anyStr : CString}

theorem field_append (hne : tok.bytes ≠ []) (hcolon : colon ∉ tok.bytes)
    (hr : ∀ b ∈ r.head?, b = colon) (hs : s.bytes = tok.bytes ++ r) :
    ∃ s', s'.bytes = r.tail ∧ field s = .ok (tok, s') := by
  have hsep : ∀ b ∈ tok.bytes, b ∉ [colon] := by
    intro b hb
    simpa using fun e : b = colon => hcolon (e ▸ hb)
  obtain ⟨s', hs', htok⟩ := CString.strtok_append hne hsep (fun b hb => by simp [hr b hb]) hs
  exact ⟨s', hs', field_eq_ok.2 htok⟩

theorem number_append {n : Nat} (hn : n < 2 ^ 64) (hr : ∀ b ∈ r.head?, b = colon)
    (hs : s.bytes = CString.decimal n ++ r) :
    ∃ s', s'.bytes = r.tail ∧ number s = .ok (.ofNat n, s') := by
  have hsep : ∀ b ∈ (CString.printed n).bytes, b ∉ [colon] := by
    intro b hb
    simpa using fun e : b = colon => colon_not_mem_decimal n (e ▸ hb)
  obtain ⟨s', hs', htok⟩ :=
    CString.strtok_append (CString.decimal_ne_nil n) hsep
      (fun b hb => by simp [hr b hb]) (show s.bytes = (CString.printed n).bytes ++ r from hs)
  exact ⟨s', hs', number_eq_ok.2 ⟨_, htok, CString.strtoul_printed hn⟩⟩

theorem word_append (default : CString) (hne : tok.bytes ≠ []) (htok : IsWord tok)
    (hr : ∀ b ∈ r.head?, b ∈ wordDelims) (hs : s.bytes = tok.bytes ++ r) :
    (word default s).1 = tok ∧ (word default s).2.bytes = r.tail := by
  obtain ⟨s', hs', hstrtok⟩ := CString.strtok_append hne htok hr hs
  unfold wordDelims at hstrtok
  rw [word, hstrtok]
  exact ⟨rfl, hs'⟩

theorem word_of_nil (default : CString) (hs : s.bytes = []) :
    (word default s).1 = default ∧ (word default s).2.bytes = [] := by
  rw [word, CString.strtok_of_nil hs]
  exact ⟨rfl, rfl⟩

theorem isWord_word {default : CString} (h : IsWord default) : IsWord (word default s).1 := by
  rw [word]
  cases htok : CString.strtok [colon, 32, newline] s with
  | none => exact h
  | some r => exact (CString.strtok_eq_some htok).2.1

theorem word_of_take {m : Nat} (default : CString) (hm : 0 < m) (hlt : m < tok.bytes.length)
    (htok : IsWord tok) (hs : s.bytes = tok.bytes.take m) : (word default s).1 ≠ tok := by
  have hlen : (tok.bytes.take m).length = m := by
    rw [List.length_take, Nat.min_eq_left hlt.le]
  have hne : s.bytes ≠ [] := by
    rw [hs]
    exact List.length_pos_iff.1 (by omega)
  have hword : IsWord s := by
    intro b hb
    rw [hs] at hb
    exact htok b (List.mem_of_mem_take hb)
  obtain ⟨heq, -⟩ := word_append default hne hword (r := []) (by simp) (List.append_nil _).symm
  rw [heq]
  intro e
  rw [← hs, e] at hlen
  omega

def WordsKept (name anyStr : CString) (m : Nat) : Prop :=
  name.bytes.length + 1 + anyStr.bytes.length ≤ m ∨
  (anyStr = noAnyStr ∧ name.bytes.length ≤ m ∧ m ≤ name.bytes.length + 1) ∨
  (name = noname ∧ anyStr = noAnyStr ∧ m = 0)

theorem anyStr_iff {m : Nat} (hne : anyStr.bytes ≠ [])
    (hs : s.bytes = (anyStr.bytes ++ [newline]).take m) :
    (word noAnyStr s).1 = anyStr ↔
      IsWord anyStr ∧ (anyStr.bytes.length ≤ m ∨ anyStr = noAnyStr ∧ m = 0) := by
  have hdefault : IsWord noAnyStr := List.all_iff_forall_prop.1 (by decide)
  constructor
  · intro h
    have hword : IsWord anyStr := h ▸ isWord_word hdefault
    refine ⟨hword, ?_⟩
    rcases Nat.eq_zero_or_pos m with rfl | hm
    · rw [(word_of_nil noAnyStr (by simpa using hs)).1] at h
      exact .inr ⟨h.symm, rfl⟩
    · by_contra hcut
      have hlt : m < anyStr.bytes.length := by omega
      rw [List.take_append_of_le_length hlt.le] at hs
      exact word_of_take noAnyStr hm hlt hword hs h
  · rintro ⟨hword, hle | ⟨rfl, rfl⟩⟩
    · obtain ⟨j, rfl⟩ := Nat.exists_eq_add_of_le hle
      rw [List.take_length_add_append] at hs
      refine (word_append noAnyStr hne hword ?_ hs).1
      intro b hb
      have hmem := List.mem_of_mem_take (List.mem_of_mem_head? hb)
      rw [List.mem_singleton.1 hmem]
      decide
    · exact (word_of_nil noAnyStr (by simpa using hs)).1

/-- The last two fields are read as they were written, if they are words
and enough of them is there. -/
theorem words_iff {name : CString} {m : Nat} (hname : name.bytes ≠ []) (hany : anyStr.bytes ≠ [])
    (hs : s.bytes = (name.bytes ++ colon :: (anyStr.bytes ++ [newline])).take m) :
    ((word noname s).1 = name ∧ (word noAnyStr (word noname s).2).1 = anyStr) ↔
      IsWord name ∧ IsWord anyStr ∧ WordsKept name anyStr m := by
  have hdefault : IsWord noname := List.all_iff_forall_prop.1 (by decide)
  have hdefault' : IsWord noAnyStr := List.all_iff_forall_prop.1 (by decide)
  have hpos := List.length_pos_iff.2 hname
  have hpos' := List.length_pos_iff.2 hany
  by_cases hword : IsWord name
  case neg =>
    refine ⟨fun h => absurd (h.1 ▸ isWord_word hdefault) hword, fun h => absurd h.1 hword⟩
  rcases Nat.eq_zero_or_pos m with rfl | hm
  · -- nothing is there
    obtain ⟨hfst, hsnd⟩ := word_of_nil noname (s := s) (by simpa using hs)
    rw [hfst, (word_of_nil noAnyStr hsnd).1, WordsKept]
    constructor
    · rintro ⟨rfl, rfl⟩
      exact ⟨hword, hdefault', .inr (.inr ⟨rfl, rfl, rfl⟩)⟩
    · rintro ⟨-, -, hlong | ⟨-, hlong, -⟩ | ⟨rfl, rfl, -⟩⟩
      · omega
      · omega
      · exact ⟨rfl, rfl⟩
  rcases Nat.lt_or_ge m name.bytes.length with hlt | hge
  · -- the name is cut
    rw [List.take_append_of_le_length hlt.le] at hs
    constructor
    · exact fun h => absurd h.1 (word_of_take noname hm hlt hword hs)
    · rintro ⟨-, -, hlong | ⟨-, hlong, -⟩ | ⟨-, -, hzero⟩⟩
      all_goals omega
  -- the name is there
  obtain ⟨j, rfl⟩ := Nat.exists_eq_add_of_le hge
  rw [List.take_length_add_append] at hs
  have hhead : ∀ b ∈ ((colon :: (anyStr.bytes ++ [newline])).take j).head?, b ∈ wordDelims := by
    cases j with
    | zero => simp
    | succ j => simp [wordDelims]
  obtain ⟨hfst, hsnd⟩ := word_append noname hname hword hhead hs
  have hrest : (word noname s).2.bytes = (anyStr.bytes ++ [newline]).take (j - 1) := by
    rw [hsnd]
    cases j with
    | zero => rfl
    | succ j => rfl
  rw [anyStr_iff hany hrest, hfst, WordsKept]
  constructor
  · rintro ⟨-, hany', hkept | ⟨heq, hzero⟩⟩
    · exact ⟨hword, hany', .inl (by omega)⟩
    · exact ⟨hword, hany', .inr (.inl ⟨heq, by omega, by omega⟩)⟩
  · rintro ⟨-, hany', hkept | ⟨heq, -, hle⟩ | ⟨-, -, hzero⟩⟩
    · exact ⟨rfl, hany', .inl (by omega)⟩
    · exact ⟨rfl, hany', .inr ⟨heq, by omega⟩⟩
    · omega

end Fields

/-! ## One line -/

section Line

variable {passwd : UInt32 → Bool} {origin : Origin} {id : UInt64} {line s : CString}
  {act loaded : NfyAction} {t : List UInt8}

theorem seven_colons (hid : number line = .ok (id, s))
    (hload : loadAction passwd origin id s = .ok loaded) : 7 ≤ line.bytes.count colon := by
  unfold loadAction at hload
  obtain ⟨⟨quStr, s₁⟩, hquStr, hload⟩ := bind_eq_ok hload
  dsimp only at hload
  split at hload
  · cases hload
  obtain ⟨⟨cmd, s₂⟩, hcmd, hload⟩ := bind_eq_ok hload
  dsimp only at hload
  split at hload
  · cases hload
  obtain ⟨⟨uid, s₃⟩, huid, hload⟩ := bind_eq_ok hload
  dsimp only at hload
  split at hload
  · cases hload
  obtain ⟨⟨gid, s₄⟩, hgid, hload⟩ := bind_eq_ok hload
  dsimp only at hload
  obtain ⟨⟨flags, s₅⟩, hflags, hload⟩ := bind_eq_ok hload
  dsimp only at hload
  obtain ⟨⟨thres, s₆⟩, hthres, hload⟩ := bind_eq_ok hload
  dsimp only at hload
  obtain ⟨⟨interval, s₇⟩, hinterval, -⟩ := bind_eq_ok hload
  -- the eight tokens, and the colon behind each but the last
  obtain ⟨_, htok₀, -⟩ := number_eq_ok.1 hid
  have htok₁ := field_eq_ok.1 hquStr
  have htok₂ := field_eq_ok.1 hcmd
  obtain ⟨_, htok₃, -⟩ := number_eq_ok.1 huid
  obtain ⟨_, htok₄, -⟩ := number_eq_ok.1 hgid
  obtain ⟨_, htok₅, -⟩ := number_eq_ok.1 hflags
  obtain ⟨_, htok₆, -⟩ := number_eq_ok.1 hthres
  obtain ⟨_, htok₇, -⟩ := number_eq_ok.1 hinterval
  have h₀ := count_of_strtok htok₀ htok₁
  have h₁ := count_of_strtok htok₁ htok₂
  have h₂ := count_of_strtok htok₂ htok₃
  have h₃ := count_of_strtok htok₃ htok₄
  have h₄ := count_of_strtok htok₄ htok₅
  have h₅ := count_of_strtok htok₅ htok₆
  have h₆ := count_of_strtok htok₆ htok₇
  omega

theorem count_colon_headText (hquStr : IsField act.quStr) (hcmd : IsField act.cmd) :
    (headText act).count colon = 6 := by
  simp [headText, List.count_eq_zero_of_not_mem, colon_not_mem_decimal, hquStr.no_colon,
    hcmd.no_colon]

/-- The action of a line that begins as that of `act` does. -/
def tailAction (act : NfyAction) (origin : Origin) (interval : UInt64) (s : CString) : NfyAction where
  hdr := {
    cmdType := 0, nfyId := act.hdr.nfyId, uid := act.hdr.uid, gid := act.hdr.gid,
    flags := act.onceOnly ||| posixLogActionPersist,
    quStrLen := 0, actionCmdLen := 0, nameLen := 0, anyStrLen := 0,
    thres := act.hdr.thres, interval := interval.toUInt32, queryFlags := 0 }
  quStr := act.quStr
  cmd := act.cmd
  name := (word noname s).1
  anyStr := (word noAnyStr (word noname s).2).1
  origin := origin

def loadTail (act : NfyAction) (origin : Origin) (s : CString) : Except LineFault NfyAction := do
  let (interval, s) ← number s
  return tailAction act origin interval s

theorem toUInt32_ofNat (n : UInt32) : (UInt64.ofNat n.toNat).toUInt32 = n := by
  simp

theorem number_uint32 (n : UInt32) (hs : s.bytes = CString.decimal n.toNat ++ colon :: t) :
    ∃ s' : CString, s'.bytes = t ∧ number s = .ok (.ofNat n.toNat, s') := by
  have hlt := n.toNat_lt
  exact number_append (by omega) (by simp) hs

theorem loadAction_of_head (hquStr : IsField act.quStr) (hcmd : IsField act.cmd)
    (hpasswd : passwd act.hdr.uid = true) (hline : line.bytes = headText act ++ colon :: t) :
    ∃ id s s', s'.bytes = t ∧ number line = .ok (id, s) ∧
      ∀ origin, loadAction passwd origin id s = loadTail act origin s' := by
  simp only [headText, List.append_assoc, List.cons_append] at hline
  obtain ⟨s₀, hs₀, hid⟩ := number_uint32 _ hline
  obtain ⟨s₁, hs₁, hqu⟩ := field_append hquStr.ne_nil hquStr.no_colon (by simp) hs₀
  obtain ⟨s₂, hs₂, hcm⟩ := field_append hcmd.ne_nil hcmd.no_colon (by simp) hs₁
  obtain ⟨s₃, hs₃, huid⟩ := number_uint32 _ hs₂
  obtain ⟨s₄, hs₄, hgid⟩ := number_uint32 _ hs₃
  obtain ⟨s₅, hs₅, hflags⟩ := number_uint32 _ hs₄
  obtain ⟨s₆, hs₆, hthres⟩ := number_uint32 _ hs₅
  refine ⟨_, s₀, s₆, hs₆, hid, fun origin => ?_⟩
  have hpasswd' : ¬ passwd act.hdr.uid = false := by simp [hpasswd]
  unfold loadAction loadTail tailAction
  simp only [hqu, hcm, huid, hgid, hflags, hthres, bind, Except.bind, pure, Except.pure,
    toUInt32_ofNat, Int32.toInt32_toUInt32, if_neg hquStr.ne_nil, if_neg hcmd.ne_nil,
    if_neg hpasswd']

def writtenLine (act : NfyAction) : List UInt8 := (registryText act).take (smallBufSize - 1)

theorem ofBuf_writeActionToFile (act : NfyAction) :
    (CString.ofBuf ((writeActionToFile act).map Prod.fst)).bytes = writtenLine act := by
  have hfst : (writeActionToFile act).map Prod.fst = writtenLine act := by
    simp [writeActionToFile, writtenLine, Function.comp_def]
  rw [hfst]
  refine CString.ofBuf_bytes ⟨_, ?_⟩
  exact fun hnul => nul_not_mem_registryText act (List.mem_of_mem_take hnul)

theorem writeActionToFile_eq_cons (act : NfyAction) :
    ∃ b rest, writeActionToFile act = (b, act.origin) :: rest ∧ ¬ (b = 35 ∨ b = newline) := by
  obtain ⟨b, l, hb⟩ := List.exists_cons_of_ne_nil
    (CString.decimal_ne_nil act.hdr.nfyId.toUInt32.toNat)
  have hdigit : CString.isDigit b = true :=
    CString.isDigit_of_mem_decimal (n := act.hdr.nfyId.toUInt32.toNat) (by simp [hb])
  have hcut : smallBufSize - 1 = smallBufSize - 2 + 1 := by decide
  refine ⟨b, ?_, ?_, ?_⟩
  rotate_left
  · rw [writeActionToFile, registryText_eq_head, headText, hb, List.append_assoc,
      List.cons_append, hcut, List.take_succ_cons, List.map_cons]
  · rintro (rfl | rfl)
    · exact absurd hdigit (by decide)
    · exact absurd hdigit (by decide)

/-- A line whose threshold is not followed by its colon is no action. -/
theorem not_loads_of_head (hquStr : IsField act.quStr) (hcmd : IsField act.cmd)
    (hle : smallBufSize - 1 ≤ (headText act).length) : ¬ Loads passwd (writeActionToFile act) loaded := by
  rintro ⟨b, origin, rest, id, s, -, -, hid, hload⟩
  have hseven := seven_colons hid hload
  rw [ofBuf_writeActionToFile, writtenLine, registryText_eq_head,
    List.take_append_of_le_length hle] at hseven
  have hsix := ((headText act).take_sublist (smallBufSize - 1)).count_le colon
  rw [count_colon_headText hquStr hcmd] at hsix
  omega

theorem loads_iff_loadTail (hquStr : IsField act.quStr) (hcmd : IsField act.cmd)
    (hpasswd : passwd act.hdr.uid = true) {k : Nat}
    (hk : smallBufSize - 1 = (headText act).length + (k + 1)) :
    ∃ s : CString, s.bytes = (tailText act).take k ∧
      ∀ loaded, Loads passwd (writeActionToFile act) loaded ↔
        loadTail act act.origin s = .ok loaded := by
  have hline : (CString.ofBuf ((writeActionToFile act).map Prod.fst)).bytes =
      headText act ++ colon :: (tailText act).take k := by
    rw [ofBuf_writeActionToFile, writtenLine, registryText_eq_head, hk, List.take_length_add_append,
      List.take_succ_cons]
  obtain ⟨id, s, s', hs', hid, hload⟩ := loadAction_of_head hquStr hcmd hpasswd hline
  obtain ⟨b, rest, hcons, hb⟩ := writeActionToFile_eq_cons act
  refine ⟨s', hs', fun loaded => ?_⟩
  rw [← hload]
  constructor
  · rintro ⟨b', origin, rest', id', t, hcons', -, hid', hload'⟩
    rw [hid, Except.ok.injEq, Prod.mk.injEq] at hid'
    rw [hcons, List.cons.injEq, Prod.mk.injEq] at hcons'
    obtain ⟨rfl, rfl⟩ := hid'
    obtain ⟨⟨-, rfl⟩, -⟩ := hcons'
    exact hload'
  · exact fun h => ⟨b, act.origin, rest, id, s, hcons, hb, hid, h⟩

theorem loadTail_eq_ok : loadTail act origin s = .ok loaded ↔
      ∃ interval s', number s = .ok (interval, s') ∧ loaded = tailAction act origin interval s' := by
  rw [loadTail]
  constructor
  · intro h
    obtain ⟨⟨interval, s'⟩, hnum, hloaded⟩ := bind_eq_ok h
    cases hloaded
    exact ⟨interval, s', hnum, rfl⟩
  · rintro ⟨interval, s', hnum, rfl⟩
    rw [hnum]
    rfl

theorem onceOnly_cases (act : NfyAction) : act.onceOnly = 0 ∨ act.onceOnly = 1 := by
  have hmod : (act.hdr.flags.toBitVec &&& 1#32).toNat = act.hdr.flags.toBitVec.toNat % 2 := by
    rw [BitVec.toNat_and]
    exact Nat.and_one_is_mod _
  rcases Nat.mod_two_eq_zero_or_one act.hdr.flags.toBitVec.toNat with h | h
  · left
    exact Int32.toBitVec_inj.1 (BitVec.eq_of_toNat_eq (hmod.trans h))
  · right
    exact Int32.toBitVec_inj.1 (BitVec.eq_of_toNat_eq (hmod.trans h))

theorem sameAction_tailAction {interval : UInt64} :
    SameAction act (tailAction act origin interval s) ↔
      interval.toUInt32 = act.hdr.interval ∧ (word noname s).1 = act.name ∧
        (word noAnyStr (word noname s).2).1 = act.anyStr := by
  have honce : (tailAction act origin interval s).onceOnly = act.onceOnly := by
    change (act.onceOnly ||| posixLogActionPersist) &&& posixLogOnceOnly = act.onceOnly
    rcases onceOnly_cases act with h | h
    · rw [h]
      rfl
    · rw [h]
      rfl
  constructor
  · intro h
    exact ⟨h.interval, h.name, h.anyStr⟩
  · rintro ⟨hinterval, hname, hany⟩
    exact ⟨rfl, rfl, rfl, rfl, rfl, rfl, hinterval, hname, hany, honce⟩

theorem kept_iff {k : Nat} (hpos : 0 < act.name.bytes.length)
    (hk : smallBufSize - 1 = numbersLength act + k) :
    LineKept act ↔ WordsKept act.name act.anyStr (k - 1) := by
  have hcut : smallBufSize - 2 = numbersLength act + k - 1 := by
    rw [← hk]
    rfl
  have hlong : 0 < numbersLength act := by
    rw [numbersLength]
    omega
  rw [LineKept, WordsKept, hcut, hk]
  refine or_congr (by omega) (or_congr ?_ ?_)
  · exact and_congr_right fun _ => by omega
  · exact and_congr_right fun _ => and_congr_right fun _ => by omega

theorem not_kept (h : smallBufSize - 1 < numbersLength act) : ¬ LineKept act := by
  rintro (hlong | ⟨-, hlong, -⟩ | ⟨-, -, hlong, -⟩)
  all_goals omega

/-- The line of an action is read as it was written, if its last fields
are words and as much of it is kept as there has to be. -/
theorem reads_iff (hact : Ordinary passwd act) (hquStr : IsField act.quStr)
    (hcmd : IsField act.cmd) :
    (∃ loaded, Loads passwd (writeActionToFile act) loaded ∧ SameAction act loaded) ↔
      IsWord act.name ∧ IsWord act.anyStr ∧ LineKept act := by
  have hdigits := List.length_pos_iff.2 (CString.decimal_ne_nil act.hdr.interval.toNat)
  have hpos := List.length_pos_iff.2 hact.name
  have hlt := act.hdr.interval.toNat_lt
  rcases Nat.lt_or_ge (headText act).length (smallBufSize - 1) with hhead | hhead
  case inr =>
    refine ⟨fun ⟨loaded, hload, _⟩ => absurd hload (not_loads_of_head hquStr hcmd hhead), ?_⟩
    rintro ⟨-, -, hkept⟩
    exact absurd hkept (not_kept (by rw [numbersLength]; omega))
  obtain ⟨k, hk⟩ : ∃ k, smallBufSize - 1 = (headText act).length + (k + 1) :=
    ⟨smallBufSize - 1 - (headText act).length - 1, by omega⟩
  obtain ⟨s, hs, hloads⟩ := loads_iff_loadTail hquStr hcmd hact.uid hk
  rcases Nat.lt_or_ge k (CString.decimal act.hdr.interval.toNat).length with hcut | hwhole
  · -- the interval is cut
    have hnot : ¬ LineKept act := not_kept (by rw [numbersLength]; omega)
    refine ⟨?_, fun h => absurd h.2.2 hnot⟩
    rintro ⟨loaded, hload, hsame⟩
    obtain ⟨interval, s', hnum, rfl⟩ := loadTail_eq_ok.1 ((hloads loaded).1 hload)
    have hinterval := (sameAction_tailAction.1 hsame).1
    rw [tailText, List.take_append_of_le_length hcut.le] at hs
    rcases Nat.eq_zero_or_pos k with rfl | hk0
    · obtain ⟨tok, htok, -⟩ := number_eq_ok.1 hnum
      rw [CString.strtok_of_nil hs] at htok
      cases htok
    · obtain ⟨m, hm, hmlt⟩ := CString.take_decimal hk0 hcut
      rw [hm] at hs
      obtain ⟨s'', -, hnum'⟩ :=
        number_append (n := m) (by omega) (r := []) (by simp) (hs.trans (List.append_nil _).symm)
      rw [hnum, Except.ok.injEq, Prod.mk.injEq] at hnum'
      have hval := congrArg UInt32.toNat hinterval
      rw [hnum'.1] at hval
      simp at hval
      omega
  · -- the interval is there, and the words decide
    obtain ⟨j, rfl⟩ := Nat.exists_eq_add_of_le hwhole
    rw [tailText, List.take_length_add_append] at hs
    have hhead' : ∀ b ∈ ((colon :: (act.name.bytes ++ colon ::
        (act.anyStr.bytes ++ [newline]))).take j).head?, b = colon := by
      cases j with
      | zero => simp
      | succ j => simp
    obtain ⟨s', hs', hnum⟩ := number_append (by omega) hhead' hs
    have hrest : s'.bytes =
        (act.name.bytes ++ colon :: (act.anyStr.bytes ++ [newline])).take (j - 1) := by
      rw [hs']
      cases j with
      | zero => rfl
      | succ j => rfl
    have hkept : LineKept act ↔ WordsKept act.name act.anyStr (j - 1) :=
      kept_iff hpos (by rw [hk, numbersLength]; omega)
    rw [hkept, ← words_iff hact.name hact.anyStr hrest]
    constructor
    · rintro ⟨loaded, hload, hsame⟩
      obtain ⟨interval, s'', hnum', rfl⟩ := loadTail_eq_ok.1 ((hloads loaded).1 hload)
      rw [hnum, Except.ok.injEq, Prod.mk.injEq] at hnum'
      obtain ⟨rfl, rfl⟩ := hnum'
      exact (sameAction_tailAction.1 hsame).2
    · intro hwords
      refine ⟨_, (hloads _).2 (loadTail_eq_ok.2 ⟨_, _, hnum, rfl⟩), ?_⟩
      exact sameAction_tailAction.2 ⟨toUInt32_ofNat _, hwords⟩

end Line

/-! ## All the lines -/

section Lines

variable {passwd : UInt32 → Bool} {lines : List (List (UInt8 × Origin))} {acts : List NfyAction}

variable {line : List (UInt8 × Origin)} {loaded : NfyAction}

theorem loadLine_of_loads (d : Actiond) (h : Loads passwd line loaded) : ∃ nextNfyId,
      loadLine passwd d line = some { d with nextNfyId, actions := d.actions ++ [loaded] } := by
  obtain ⟨b, origin, rest, id, s, rfl, hb, hid, hload⟩ := h
  refine ⟨id.toUInt32.toInt32, ?_⟩
  unfold loadLine
  simp only [if_neg hb, hid, hload]

/-- Lines that are all made into actions give the list of them. -/
theorem foldlM_loadLine (h : List.Forall₂ (Loads passwd) lines acts) (d : Actiond) :
    ∃ d', lines.foldlM (loadLine passwd) d = some d' ∧ d'.actions = d.actions ++ acts := by
  induction h generalizing d with
  | nil => exact ⟨d, rfl, (List.append_nil _).symm⟩
  | @cons line loaded lines acts hload _ ih =>
    obtain ⟨nextNfyId, hline⟩ := loadLine_of_loads d hload
    obtain ⟨d', hfold, hactions⟩ := ih { d with nextNfyId, actions := d.actions ++ [loaded] }
    refine ⟨d', ?_, ?_⟩
    · rw [List.foldlM_cons, hline]
      exact hfold
    · rw [hactions, List.append_assoc]
      rfl

theorem loads_of_foldlM {d d' : Actiond} (h : lines.foldlM (loadLine passwd) d = some d') :
    ∃ acts, d'.actions = d.actions ++ acts ∧ acts.length ≤ lines.length ∧
      (∀ loaded ∈ acts, ∃ line ∈ lines, Loads passwd line loaded) ∧
      (acts.length = lines.length → List.Forall₂ (Loads passwd) lines acts) := by
  induction lines generalizing d with
  | nil =>
    rw [List.foldlM_nil] at h
    cases h
    exact ⟨[], (List.append_nil _).symm, le_rfl, by simp, fun _ => .nil⟩
  | cons line lines ih =>
    rw [List.foldlM_cons] at h
    obtain ⟨d₁, hline, hfold⟩ := Option.bind_eq_some_iff.1 h
    obtain ⟨acts, hactions, hlen, hmem, hall⟩ := ih hfold
    obtain ⟨nextNfyId, rfl | ⟨loaded, hload, rfl⟩⟩ := loadLine_cases hline
    · refine ⟨acts, hactions, ?_, ?_, ?_⟩
      · rw [List.length_cons]
        omega
      · intro loaded hloaded
        obtain ⟨l, hl, hload⟩ := hmem loaded hloaded
        exact ⟨l, List.mem_cons_of_mem _ hl, hload⟩
      · intro heq
        rw [List.length_cons] at heq
        omega
    · refine ⟨loaded :: acts, ?_, ?_, ?_, ?_⟩
      · rw [hactions, List.append_assoc]
        rfl
      · simpa using hlen
      · intro l hl
        rcases List.mem_cons.1 hl with rfl | hl
        · exact ⟨line, List.mem_cons_self, hload⟩
        · obtain ⟨line', hline', hload'⟩ := hmem l hl
          exact ⟨line', List.mem_cons_of_mem _ hline', hload'⟩
      · intro heq
        exact .cons hload (hall (by simpa using heq))

/-! ### The flags -/

theorem readFlags_of_loadAction {origin : Origin} {id : UInt64} {s : CString}
    (h : loadAction passwd origin id s = .ok loaded) :
    readFlags passwd s = .ok loaded.hdr.flags := by
  unfold loadAction at h
  unfold readFlags
  obtain ⟨⟨quStr, s₁⟩, hquStr, h⟩ := bind_eq_ok h
  dsimp only at h
  split at h
  · cases h
  rename_i hqu
  obtain ⟨⟨cmd, s₂⟩, hcmd, h⟩ := bind_eq_ok h
  dsimp only at h
  split at h
  · cases h
  rename_i hcm
  obtain ⟨⟨uid, s₃⟩, huid, h⟩ := bind_eq_ok h
  dsimp only at h
  split at h
  · cases h
  rename_i hpasswd
  obtain ⟨⟨gid, s₄⟩, hgid, h⟩ := bind_eq_ok h
  dsimp only at h
  obtain ⟨⟨flags, s₅⟩, hflags, h⟩ := bind_eq_ok h
  dsimp only at h
  obtain ⟨⟨thres, s₆⟩, -, h⟩ := bind_eq_ok h
  dsimp only at h
  obtain ⟨⟨interval, s₇⟩, -, h⟩ := bind_eq_ok h
  cases h
  simp only [hquStr, hcmd, huid, hgid, hflags, bind, Except.bind, pure, Except.pure, if_neg hqu,
    if_neg hcm, if_neg hpasswd]

theorem lineFlags_of_loads (h : Loads passwd line loaded) :
    lineFlags passwd line = loaded.onceOnly := by
  obtain ⟨b, origin, rest, id, s, rfl, hb, hid, hload⟩ := h
  unfold lineFlags
  simp only [if_neg hb, hid, readFlags_of_loadAction hload]
  change (if loaded.onceOnly ≠ 0 then posixLogOnceOnly else 0) = loaded.onceOnly
  rcases onceOnly_cases loaded with h | h
  · rw [h]
    rfl
  · rw [h]
    rfl

/-- The flags of some lines are those of each, if they agree. -/
theorem linesFlags_eq {once : Int32} (hne : lines ≠ [])
    (h : ∀ line ∈ lines, lineFlags passwd line = once) : linesFlags passwd lines = once := by
  have hself : once ||| once = once := Int32.or_self
  have hfold : ∀ (ls : List (List (UInt8 × Origin))), (∀ line ∈ ls, lineFlags passwd line = once) →
      ls.foldl (fun flags line => flags ||| lineFlags passwd line) once = once := by
    intro ls
    induction ls with
    | nil => exact fun _ => rfl
    | cons line ls ih =>
      intro hls
      rw [List.foldl_cons, hls line List.mem_cons_self, hself]
      exact ih fun l hl => hls l (List.mem_cons_of_mem _ hl)
  cases lines with
  | nil => exact absurd rfl hne
  | cons line lines =>
    rw [linesFlags, List.foldl_cons, h line List.mem_cons_self, Int32.zero_or]
    exact hfold lines fun l hl => h l (List.mem_cons_of_mem _ hl)

theorem notifyCalls_eq_map (flags : Int32) (i : Nat) (acts : List NfyAction) :
    notifyCalls (fun _ => true) flags i acts =
      acts.map fun act => ⟨act.quStr, queryFlagsNotSet, act.hdr.nfyId, flags⟩ := by
  induction acts generalizing i with
  | nil => rfl
  | cons act acts ih =>
    rw [notifyCalls, if_pos rfl, ih]
    rfl

end Lines

/-! ## The registry -/

section Registry

variable {passwd : UInt32 → Bool}

/-- The lines can be read back, and they agree on the flag. -/
structure ReadableAll (acts : List NfyAction) : Prop where
  readable : ∀ act ∈ acts, Readable act
  agree : ∀ act ∈ acts, ∀ act' ∈ acts, act.onceOnly = act'.onceOnly

theorem printable_of_readable {act : NfyAction} (h : Readable act) :
    Printable act.quStr act.cmd act.name act.anyStr := by
  refine ⟨h.quStr, h.cmd, fun hb => h.name newline hb ?_, fun hb => h.anyStr newline hb ?_⟩
  · decide
  · decide

variable {loaded acts : List NfyAction}

theorem reload_eq_some {registry : List (UInt8 × Origin)} {calls : List NotifyCall} :
    reload passwd (fun _ => true) registry = some (loaded, calls) ↔
      ∃ d, (registryLines registry).foldlM (loadLine passwd) (beforeStart registry) = some d ∧
        d.actions = loaded ∧
        calls = loaded.map fun act =>
          ⟨act.quStr, queryFlagsNotSet, act.hdr.nfyId, linesFlags passwd (registryLines registry)⟩ := by
  unfold reload
  cases hfold : (registryLines registry).foldlM (loadLine passwd) (beforeStart registry) with
  | none => simp
  | some d =>
    simp only [notifyCalls_eq_map, Option.some.injEq, Prod.mk.injEq, exists_eq_left']
    constructor
    · rintro ⟨rfl, rfl⟩
      exact ⟨rfl, rfl⟩
    · rintro ⟨rfl, rfl⟩
      exact ⟨rfl, rfl⟩

/-- What was written for actions that can be read back is read back. -/
theorem reload_of_readable (hacts : ∀ act ∈ acts, Ordinary passwd act) (h : ReadableAll acts) :
    ∃ loaded calls,
      reload passwd (fun _ => true) (acts.flatMap writeActionToFile) = some (loaded, calls) ∧
        List.Forall₂ SameAction acts loaded ∧ List.Forall₂ OwnCall acts calls := by
  have hlines := registryLines_flatMap fun act hact => printable_of_readable (h.readable act hact)
  obtain ⟨loaded, hloaded⟩ := exists_forall₂ fun act hact =>
    (reads_iff (hacts act hact) (h.readable act hact).quStr (h.readable act hact).cmd).2
      ⟨(h.readable act hact).name, (h.readable act hact).anyStr, (h.readable act hact).kept⟩
  have hsame : List.Forall₂ SameAction acts loaded := hloaded.imp fun _ _ hr => hr.2
  have hloads : List.Forall₂ (Loads passwd) (acts.map writeActionToFile) loaded :=
    List.forall₂_map_left_iff.2 (hloaded.imp fun _ _ hr => hr.1)
  obtain ⟨d, hfold, hactions⟩ := foldlM_loadLine hloads (beforeStart (acts.flatMap writeActionToFile))
  -- every line has the flag that the lines have together
  have hflags : ∀ act ∈ acts, linesFlags passwd (acts.map writeActionToFile) = act.onceOnly := by
    intro act hact
    refine linesFlags_eq ?_ ?_
    · exact List.ne_nil_of_mem (List.mem_map_of_mem hact)
    · intro line hline
      obtain ⟨act', hact', rfl⟩ := List.mem_map.1 hline
      obtain ⟨l, -, hl, hsame'⟩ := exists_right_of_mem hloaded hact'
      rw [lineFlags_of_loads hl, hsame'.onceOnly]
      exact h.agree act' hact' act hact
  refine ⟨loaded, _, reload_eq_some.2 ⟨d, ?_, by simpa [beforeStart] using hactions, rfl⟩, hsame, ?_⟩
  · rw [hlines]
    exact hfold
  · rw [List.forall₂_map_right_iff, hlines]
    have hown : List.Forall₂ (fun act l => act ∈ acts ∧ SameAction act l) acts loaded :=
      (List.forall₂_and_left acts loaded).2 ⟨fun act hact => hact, hsame⟩
    refine hown.imp fun act l hr => ⟨hr.2.quStr, hr.2.nfyId, ?_⟩
    dsimp only
    rw [hflags act hr.1]
    rcases onceOnly_cases act with h0 | h1
    · rw [h0]
      rfl
    · rw [h1]
      rfl

theorem readable_of_reload {calls : List NotifyCall} (hacts : ∀ act ∈ acts, Ordinary passwd act)
    (h : reload passwd (fun _ => true) (acts.flatMap writeActionToFile) = some (loaded, calls))
    (hsame : List.Forall₂ SameAction acts loaded) (hown : List.Forall₂ OwnCall acts calls) :
    ReadableAll acts := by
  obtain ⟨d, hfold, rfl, rfl⟩ := reload_eq_some.1 h
  obtain ⟨loaded, hactions, -, hmem, hall⟩ := loads_of_foldlM hfold
  replace hactions : d.actions = loaded := by simpa [beforeStart] using hactions
  rw [hactions] at hsame hown
  -- the strings came from a line, so they can be printed
  have hprintable : ∀ act ∈ acts, Printable act.quStr act.cmd act.name act.anyStr := by
    intro act hact
    obtain ⟨l, hl, hsame'⟩ := exists_right_of_mem hsame hact
    obtain ⟨line, hline, hload⟩ := hmem l hl
    have hp := printable_of_loads hline hload
    rw [hsame'.quStr, hsame'.cmd, hsame'.name, hsame'.anyStr] at hp
    exact hp
  have hlines := registryLines_flatMap hprintable
  rw [hlines] at hall
  -- as many actions as lines: each line gave one
  have hlen : loaded.length = (acts.map writeActionToFile).length := by
    rw [List.length_map, hsame.length_eq]
  have hloads := List.forall₂_map_left_iff.1 (hall hlen)
  have hboth := List.Forall₂.mp (fun _ _ h₁ h₂ => And.intro h₁ h₂) hloads hsame
  refine ⟨fun act hact => ?_, fun act hact act' hact' => ?_⟩
  · obtain ⟨l, -, hread⟩ := exists_right_of_mem hboth hact
    have hp := hprintable act hact
    obtain ⟨hname, hany, hkept⟩ := (reads_iff (hacts act hact) hp.quStr hp.cmd).1 ⟨l, hread⟩
    exact ⟨hp.quStr, hp.cmd, hname, hany, hkept⟩
  · rw [List.forall₂_map_right_iff] at hown
    obtain ⟨l, -, hl⟩ := exists_right_of_mem hown hact
    obtain ⟨l', -, hl'⟩ := exists_right_of_mem hown hact'
    exact hl.onceOnly.symm.trans hl'.onceOnly

/-- The registry is read back as it was written if, and only if, its lines
can be, and all of them agree on `POSIX_LOG_ONCE_ONLY`. -/
theorem roundTrip_iff {d : Actiond} (hacts : ∀ act ∈ d.actions, Ordinary passwd act) :
    RoundTrip passwd d ↔ ReadableAll (d.actions.filter NfyAction.persistent) := by
  have hacts' : ∀ act ∈ d.actions.filter NfyAction.persistent, Ordinary passwd act :=
    fun act hact => hacts act (List.mem_of_mem_filter hact)
  constructor
  · rintro ⟨loaded, calls, hreload, hsame, hown⟩
    exact readable_of_reload hacts' hreload hsame hown
  · exact reload_of_readable hacts'

/-! ### Examples -/

/-- `a`, as the query, the command, the name and `any_str`. -/
def letterA : CString := ⟨[97], by decide⟩

def plainAction (flags : Int32) (id : Int32) (cmd : CString) : NfyAction where
  hdr := {
    cmdType := 0, nfyId := id, uid := 0, gid := 0, flags
    quStrLen := 1, actionCmdLen := 1, nameLen := 1, anyStrLen := 1
    thres := 0, interval := 0, queryFlags := 0 }
  quStr := letterA
  cmd := cmd
  name := letterA
  anyStr := letterA
  origin := ⟨0, 0⟩

def plainDaemon (actions : List NfyAction) : Actiond :=
  { beforeStart [] with status := .running, actions }

theorem ordinary_plainAction (flags id : Int32) {cmd : CString} (hcmd : cmd.bytes ≠ []) :
    Ordinary (· == 0) (plainAction flags id cmd) :=
  ⟨List.cons_ne_nil _ _, hcmd, List.cons_ne_nil _ _, List.cons_ne_nil _ _, rfl⟩

theorem isField_letterA : IsField letterA := by
  refine ⟨by decide, ?_, ?_⟩
  · decide
  · decide

theorem isWord_letterA : IsWord letterA := List.all_iff_forall_prop.1 (by decide)

/-- Two actions that are registered alike. -/
def alikeDaemon : Actiond := plainDaemon [plainAction 0x17 1 letterA, plainAction 0x17 2 letterA]

theorem kept_alike : ∀ act ∈ alikeDaemon.actions, LineKept act := by
  intro act hact
  left
  rcases List.mem_cons.1 hact with rfl | hact
  · decide
  · rw [List.mem_singleton.1 hact]
    decide

theorem roundTrip_plain : RoundTrip (· == 0) alikeDaemon := by
  have hall : ∀ act ∈ alikeDaemon.actions, ∃ id, act = plainAction 0x17 id letterA := by
    intro act hact
    rcases List.mem_cons.1 hact with rfl | hact
    · exact ⟨1, rfl⟩
    · exact ⟨2, List.mem_singleton.1 hact⟩
  refine (roundTrip_iff ?_).2 ⟨?_, ?_⟩
  · intro act hact
    obtain ⟨id, rfl⟩ := hall act hact
    exact ordinary_plainAction _ _ (by decide)
  · intro act hact
    have hkept := kept_alike act (List.mem_of_mem_filter hact)
    obtain ⟨id, rfl⟩ := hall act (List.mem_of_mem_filter hact)
    exact ⟨isField_letterA, isField_letterA, isWord_letterA, isWord_letterA, hkept⟩
  · intro act hact act' hact'
    obtain ⟨id, rfl⟩ := hall act (List.mem_of_mem_filter hact)
    obtain ⟨id', rfl⟩ := hall act' (List.mem_of_mem_filter hact')
    rfl

def onceDaemon : Actiond := plainDaemon [plainAction 0x17 1 letterA, plainAction 0x16 2 letterA]

/-- Both are registered as the first one is. -/
theorem once_shared :
    (∀ act ∈ onceDaemon.actions, Ordinary (· == 0) act) ∧ ¬ RoundTrip (· == 0) onceDaemon := by
  constructor
  · intro act hact
    rcases List.mem_cons.1 hact with rfl | hact
    · exact ordinary_plainAction _ _ (by decide)
    · rw [List.mem_singleton.1 hact]
      exact ordinary_plainAction _ _ (by decide)
  · rintro ⟨loaded, calls, hreload, -, hown⟩
    have hflags : (reload (· == 0) (fun _ => true) (refreshActionRegistry true onceDaemon).registry).map
        (fun r => r.2.map NotifyCall.flags) = some [posixLogOnceOnly, posixLogOnceOnly] := by
      decide
    rw [hreload, Option.map_some, Option.some.injEq] at hflags
    cases hown with
    | @cons _ c _ calls _ hown =>
      cases hown with
      | @cons _ c' _ _ hc' _ =>
        have hflag : c'.flags = posixLogOnceOnly := by
          simp only [List.map_cons, List.cons.injEq] at hflags
          exact hflags.2.1
        have honce := hc'.onceOnly
        rw [hflag] at honce
        exact absurd honce (by decide)

end Registry

end Evlog.Evlactiond
