/-
Evlog.Evlactiond.RegistryTheorems — what a line of the action registry
says when it is read back.

A line is separated by colons and ended by a newline, and nothing in it is
escaped. So it is read back as the action it was written for only if the
strings in it leave the separators alone (`Printable`). Then the lines
that are read are the lines that were written (`registryLines_flatMap`),
and each gives the uid it was written with (`loads_writeActionToFile`).

A line that `snprintf` cut is no exception: one that was cut before the uid
was complete has three colons at most, and its fifth token is NULL, which
ends the daemon. Whatever is read from a line is printable again.
-/
import Evlog.Evlactiond.Actiond

namespace Evlog.Evlactiond

open Evlog.Lib

/-- A string that is one field of a line: it is there, and neither
separator is in it. -/
structure IsField (s : CString) : Prop where
  ne_nil : s.bytes ≠ []
  no_colon : colon ∉ s.bytes
  no_newline : newline ∉ s.bytes

/-- The strings of an action leave the separators alone, as far as the
fields up to the uid and the end of the line depend on it. -/
structure Printable (quStr cmd name anyStr : CString) : Prop where
  quStr : IsField quStr
  cmd : IsField cmd
  name : newline ∉ name.bytes
  anyStr : newline ∉ anyStr.bytes

/-! ## Reading fields -/

section Fields

variable {s s' tok : CString} {n : UInt64}

/-- The last step of a computation is reached only through the first. -/
theorem bind_eq_ok {ε α β : Type} {x : Except ε α} {f : α → Except ε β} {b : β}
    (h : x >>= f = .ok b) : ∃ a, x = .ok a ∧ f a = .ok b := by
  cases x with
  | error e => cases h
  | ok a => exact ⟨a, rfl, h⟩

theorem field_eq_ok {r : CString × CString} :
    field s = .ok r ↔ CString.strtok [colon] s = some r := by
  rw [field]
  cases CString.strtok [colon] s <;> simp

theorem number_eq_ok : number s = .ok (n, s') ↔
      ∃ tok, CString.strtok [colon] s = some (tok, s') ∧ CString.strtoul tok = some n := by
  rw [number]
  cases hfield : field s with
  | error e =>
    have hnone : ∀ r, CString.strtok [colon] s ≠ some r := by
      intro r hr
      rw [field_eq_ok.2 hr] at hfield
      cases hfield
    simp [bind, Except.bind, hnone]
  | ok r =>
    obtain ⟨tok, rest⟩ := r
    rw [field_eq_ok.1 hfield]
    simp only [bind, Except.bind]
    cases htok : CString.strtoul tok <;> grind

/-- What a line has to hold behind its id to be made into an action. -/
theorem loadAction_eq_ok {passwd : UInt32 → Bool} {origin : Origin} {id : UInt64} {act : NfyAction}
    (h : loadAction passwd origin id s = .ok act) :
    ∃ s₁ s₂ s₃ s₄ s₅ uid gid,
      CString.strtok [colon] s = some (act.quStr, s₁) ∧
      CString.strtok [colon] s₁ = some (act.cmd, s₂) ∧
      number s₂ = .ok (uid, s₃) ∧ number s₃ = .ok (gid, s₄) ∧
      act.hdr.uid = uid.toUInt32 ∧ act.name = (word noname s₅).1 ∧
      act.anyStr = (word noAnyStr (word noname s₅).2).1 ∧ act.origin = origin := by
  unfold loadAction at h
  obtain ⟨⟨quStr, s₁⟩, hquStr, h⟩ := bind_eq_ok h
  dsimp only at h
  split at h
  · cases h
  obtain ⟨⟨cmd, s₂⟩, hcmd, h⟩ := bind_eq_ok h
  dsimp only at h
  split at h
  · cases h
  obtain ⟨⟨uid, s₃⟩, huid, h⟩ := bind_eq_ok h
  dsimp only at h
  split at h
  · cases h
  obtain ⟨⟨gid, s₄⟩, hgid, h⟩ := bind_eq_ok h
  obtain ⟨⟨flags, s₅⟩, -, h⟩ := bind_eq_ok h
  obtain ⟨⟨thres, s₆⟩, -, h⟩ := bind_eq_ok h
  obtain ⟨⟨interval, s₇⟩, -, h⟩ := bind_eq_ok h
  cases h
  exact ⟨s₁, s₂, s₃, s₄, s₇, uid, gid, field_eq_ok.1 hquStr, field_eq_ok.1 hcmd, huid, hgid,
    rfl, rfl, rfl, rfl⟩

end Fields

/-! ## The line of an action -/

theorem not_mem_decimal {b : UInt8} (hb : CString.isDigit b = false) (n : Nat) :
    b ∉ CString.decimal n := by
  intro h
  rw [CString.isDigit_of_mem_decimal h] at hb
  cases hb

theorem colon_not_mem_decimal (n : Nat) : colon ∉ CString.decimal n := not_mem_decimal (by decide) n

theorem newline_not_mem_decimal (n : Nat) : newline ∉ CString.decimal n :=
  not_mem_decimal (by decide) n

def uidText (act : NfyAction) : List UInt8 :=
  CString.decimal act.hdr.nfyId.toUInt32.toNat ++ colon :: (act.quStr.bytes ++ colon ::
    (act.cmd.bytes ++ colon :: CString.decimal act.hdr.uid.toNat))

def gidText (act : NfyAction) : List UInt8 :=
  colon :: (CString.decimal act.hdr.gid.toNat ++ colon ::
    CString.decimal (act.hdr.flags &&& posixLogOnceOnly).toUInt32.toNat ++ colon ::
    CString.decimal act.hdr.thres.toUInt32.toNat ++ colon ::
    CString.decimal act.hdr.interval.toNat ++ colon :: act.name.bytes ++ colon ::
    act.anyStr.bytes)

theorem registryText_eq (act : NfyAction) :
    registryText act = uidText act ++ gidText act ++ [newline] := by
  simp [registryText, uidText, gidText]

variable {act : NfyAction} {quStr cmd name anyStr : CString}

theorem newline_not_mem_line (h : Printable act.quStr act.cmd act.name act.anyStr) :
    newline ∉ uidText act ++ gidText act := by
  simp [uidText, gidText, newline_not_mem_decimal, h.quStr.no_newline, h.cmd.no_newline, h.name,
    h.anyStr, show newline ≠ colon by decide]

theorem count_colon_uidText (h : Printable act.quStr act.cmd act.name act.anyStr) :
    (uidText act).count colon = 3 := by
  simp [uidText, List.count_eq_zero_of_not_mem, colon_not_mem_decimal, h.quStr.no_colon,
    h.cmd.no_colon]

/-- What is written for an action is one line, cut or not. -/
theorem lineLike_writeActionToFile (h : Printable act.quStr act.cmd act.name act.anyStr) :
    LineLike isNewline (smallBufSize - 1) (writeActionToFile act) := by
  rw [writeActionToFile, registryText_eq, List.map_take, List.map_append]
  refine lineLike_take ?_ rfl (by decide)
  intro b hb
  obtain ⟨c, hc, rfl⟩ := List.mem_map.1 hb
  have hne : c ≠ newline := fun e => newline_not_mem_line h (e ▸ hc)
  simpa [isNewline] using hne

/-- The lines of a registry that was written are those that were written. -/
theorem registryLines_flatMap {acts : List NfyAction}
    (h : ∀ act ∈ acts, Printable act.quStr act.cmd act.name act.anyStr) :
    registryLines (acts.flatMap writeActionToFile) = acts.map writeActionToFile := by
  have hlines : ∀ p ∈ acts.map writeActionToFile, LineLike isNewline (smallBufSize - 1) p := by
    intro p hp
    obtain ⟨act, hact, rfl⟩ := List.mem_map.1 hp
    exact lineLike_writeActionToFile (h act hact)
  rw [registryLines, List.flatMap_def]
  exact fgetsAll_flatten hlines le_rfl

/-! ## Reading the line of an action -/

variable {passwd : UInt32 → Bool} {origin : Origin} {id : UInt64} {line s : CString}
  {loaded : NfyAction}

variable {tok s' : CString}

/-- A token is followed by another one only if a colon was used up. -/
theorem count_of_strtok {r : CString × CString} (h : CString.strtok [colon] s = some (tok, s'))
    (hnext : CString.strtok [colon] s' = some r) :
    s'.bytes.count colon + 1 ≤ s.bytes.count colon := by
  rcases CString.strtok_count h with hnil | hcount
  · rw [CString.strtok_of_nil hnil] at hnext
    cases hnext
  · exact hcount

theorem four_colons (hid : number line = .ok (id, s))
    (hload : loadAction passwd origin id s = .ok loaded) : 4 ≤ line.bytes.count colon := by
  obtain ⟨s₁, s₂, s₃, s₄, s₅, uid, gid, hquStr, hcmd, huid, hgid, -⟩ := loadAction_eq_ok hload
  obtain ⟨idTok, hidTok, -⟩ := number_eq_ok.1 hid
  obtain ⟨uidTok, huidTok, -⟩ := number_eq_ok.1 huid
  obtain ⟨gidTok, hgidTok, -⟩ := number_eq_ok.1 hgid
  have h₁ := count_of_strtok hidTok hquStr
  have h₂ := count_of_strtok hquStr hcmd
  have h₃ := count_of_strtok hcmd huidTok
  have h₄ := count_of_strtok huidTok hgidTok
  omega

/-- A token that is behind it is the one that was written. -/
theorem strtok_field {t : CString} {r : List UInt8} (hne : tok.bytes ≠ [])
    (hcolon : colon ∉ tok.bytes) (hs : s.bytes = tok.bytes ++ colon :: r)
    (h : CString.strtok [colon] s = some (t, s')) : t = tok ∧ s'.bytes = r := by
  have hsep : ∀ b ∈ tok.bytes, b ∉ [colon] := by
    intro b hb
    simpa using fun e : b = colon => hcolon (e ▸ hb)
  obtain ⟨rest, hrest, heq⟩ := CString.strtok_append hne hsep (by simp) hs
  rw [h, Option.some.injEq, Prod.mk.injEq] at heq
  obtain ⟨rfl, rfl⟩ := heq
  exact ⟨rfl, hrest⟩

/-- A line that holds the uid and the colon behind it gives that uid. -/
theorem uid_of_uidText (h : Printable act.quStr act.cmd act.name act.anyStr) {r : List UInt8}
    (hline : line.bytes = uidText act ++ colon :: r) (hid : number line = .ok (id, s))
    (hload : loadAction passwd origin id s = .ok loaded) : loaded.hdr.uid = act.hdr.uid := by
  obtain ⟨s₁, s₂, s₃, s₄, s₅, uid, gid, hquStr, hcmd, huid, -, heq, -⟩ := loadAction_eq_ok hload
  obtain ⟨idTok, hidTok, -⟩ := number_eq_ok.1 hid
  obtain ⟨uidTok, huidTok, hval⟩ := number_eq_ok.1 huid
  have hline' : line.bytes = (CString.printed act.hdr.nfyId.toUInt32.toNat).bytes ++ colon ::
      (act.quStr.bytes ++ colon :: (act.cmd.bytes ++ colon ::
        ((CString.printed act.hdr.uid.toNat).bytes ++ colon :: r))) := by
    simpa [uidText, CString.printed] using hline
  -- the four tokens, one after the other
  obtain ⟨-, hs⟩ := strtok_field (CString.decimal_ne_nil _) (colon_not_mem_decimal _) hline' hidTok
  obtain ⟨-, hs₁⟩ := strtok_field h.quStr.ne_nil h.quStr.no_colon hs hquStr
  obtain ⟨-, hs₂⟩ := strtok_field h.cmd.ne_nil h.cmd.no_colon hs₁ hcmd
  obtain ⟨rfl, -⟩ := strtok_field (CString.decimal_ne_nil _) (colon_not_mem_decimal _) hs₂ huidTok
  have hlt := act.hdr.uid.toNat_lt
  rw [CString.strtoul_printed (by omega)] at hval
  obtain rfl := Option.some.inj hval
  rw [heq]
  simp

/-- The uid of an action that was written and read is the one it had,
however much of its line was kept. -/
theorem uid_of_take (h : Printable act.quStr act.cmd act.name act.anyStr) {n : Nat}
    (hline : line.bytes = (registryText act).take n) (hid : number line = .ok (id, s))
    (hload : loadAction passwd origin id s = .ok loaded) : loaded.hdr.uid = act.hdr.uid := by
  rw [registryText_eq, List.append_assoc] at hline
  rcases Nat.lt_or_ge (uidText act).length n with hlt | hge
  · obtain ⟨m, rfl⟩ : ∃ m, n = (uidText act).length + (m + 1) :=
      ⟨n - (uidText act).length - 1, by omega⟩
    rw [List.take_length_add_append, gidText, List.cons_append, List.take_succ_cons] at hline
    exact uid_of_uidText h hline hid hload
  · -- too few colons are left for the gid
    rw [List.take_append_of_le_length hge] at hline
    have hfour := four_colons hid hload
    have hthree := ((uidText act).take_sublist n).count_le colon
    rw [hline] at hfour
    rw [count_colon_uidText h] at hthree
    omega

/-! ## What is read can be written again -/

/-- The fields of a line that are not the last have no newline, if the line
has none but at its end. -/
theorem newline_of_strtok {r : CString × CString} (hs : newline ∉ s.bytes.dropLast)
    (h : CString.strtok [colon] s = some (tok, s')) (hnext : CString.strtok [colon] s' = some r) :
    IsField tok ∧ newline ∉ s'.bytes.dropLast := by
  obtain ⟨hne, hcolon, hsplit⟩ := CString.strtok_eq_some h
  have hne' : s'.bytes ≠ [] := by
    intro hnil
    rw [CString.strtok_of_nil hnil] at hnext
    cases hnext
  rcases hsplit with ⟨pre, d, -, heq⟩ | hnil
  · have hlast : s.bytes.dropLast = pre ++ tok.bytes ++ d :: s'.bytes.dropLast := by
      rw [heq, List.dropLast_append_of_ne_nil (by simp), List.dropLast_cons_of_ne_nil hne']
    rw [hlast] at hs
    simp only [List.mem_append, List.mem_cons, not_or] at hs
    exact ⟨⟨hne, fun hb => hcolon colon hb (by simp), hs.1.2⟩, hs.2.2⟩
  · exact absurd hnil hne'

theorem newline_not_mem_word {default : CString} (h : newline ∉ default.bytes) :
    newline ∉ (word default s).1.bytes := by
  rw [word]
  cases htok : CString.strtok [colon, 32, newline] s with
  | none => exact h
  | some r =>
    obtain ⟨tok, rest⟩ := r
    intro hb
    exact (CString.strtok_eq_some htok).2.1 newline hb (by simp)

theorem printable_of_load (hline : newline ∉ line.bytes.dropLast) (hid : number line = .ok (id, s))
    (hload : loadAction passwd origin id s = .ok loaded) :
    Printable loaded.quStr loaded.cmd loaded.name loaded.anyStr := by
  obtain ⟨s₁, s₂, s₃, s₄, s₅, uid, gid, hquStr, hcmd, huid, hgid, -, hname, hany, -⟩ :=
    loadAction_eq_ok hload
  obtain ⟨idTok, hidTok, -⟩ := number_eq_ok.1 hid
  obtain ⟨uidTok, huidTok, -⟩ := number_eq_ok.1 huid
  have hs := (newline_of_strtok hline hidTok hquStr).2
  obtain ⟨hfield, hs₁⟩ := newline_of_strtok hs hquStr hcmd
  refine ⟨hfield, (newline_of_strtok hs₁ hcmd huidTok).1, ?_, ?_⟩
  · rw [hname]
    exact newline_not_mem_word (by decide)
  · rw [hany]
    exact newline_not_mem_word (by decide)

/-! ## Lines of the file -/

def Loads (passwd : UInt32 → Bool) (line : List (UInt8 × Origin)) (loaded : NfyAction) : Prop :=
  ∃ b origin rest id s, line = (b, origin) :: rest ∧ ¬ (b = 35 ∨ b = newline) ∧
    number (.ofBuf (line.map Prod.fst)) = .ok (id, s) ∧
    loadAction passwd origin id s = .ok loaded

theorem loadLine_cases {d d' : Actiond} {line : List (UInt8 × Origin)}
    (h : loadLine passwd d line = some d') :
    ∃ nextNfyId, d' = { d with nextNfyId } ∨
      ∃ loaded, Loads passwd line loaded ∧
        d' = { d with nextNfyId, actions := d.actions ++ [loaded] } := by
  unfold loadLine at h
  split at h
  · cases h
    exact ⟨_, .inl rfl⟩
  rename_i b origin rest
  split at h
  · cases h
    exact ⟨_, .inl rfl⟩
  rename_i hb
  split at h
  · cases h
    exact ⟨_, .inl rfl⟩
  · cases h
  rename_i id s hid
  dsimp only at h
  split at h
  · cases h
    exact ⟨_, .inl rfl⟩
  · cases h
  · rename_i loaded hload
    cases h
    exact ⟨_, .inr ⟨loaded, ⟨b, origin, rest, id, s, rfl, hb, hid, hload⟩, rfl⟩⟩

theorem nul_not_mem_registryText (act : NfyAction) : 0 ∉ registryText act := by
  have hdecimal : ∀ n, 0 ∉ CString.decimal n := fun n => not_mem_decimal (by decide) n
  simp [registryText, hdecimal, act.quStr.noNul, act.cmd.noNul, act.name.noNul, act.anyStr.noNul,
    show (0 : UInt8) ≠ colon by decide, show (0 : UInt8) ≠ newline by decide]

/-- What the line of an action is made into: the same user's, on behalf of
the same connections. -/
theorem loads_writeActionToFile (h : Printable act.quStr act.cmd act.name act.anyStr)
    (hload : Loads passwd (writeActionToFile act) loaded) :
    loaded.hdr.uid = act.hdr.uid ∧ loaded.origin = act.origin := by
  obtain ⟨b, origin, rest, id, s, hline, -, hid, hload⟩ := hload
  have horigin : origin = act.origin := by
    have hmem : (b, origin) ∈ writeActionToFile act := by simp [hline]
    obtain ⟨c, -, hc⟩ := List.mem_map.1 hmem
    exact (congrArg Prod.snd hc).symm
  have hbytes : (CString.ofBuf ((writeActionToFile act).map Prod.fst)).bytes =
      (registryText act).take (smallBufSize - 1) := by
    have hfst : (writeActionToFile act).map Prod.fst = (registryText act).take (smallBufSize - 1) := by
      simp [writeActionToFile, Function.comp_def]
    rw [hfst]
    refine CString.ofBuf_bytes ⟨_, ?_⟩
    exact fun hnul => nul_not_mem_registryText act (List.mem_of_mem_take hnul)
  obtain ⟨_, _, _, _, _, _, _, _, _, _, _, _, _, _, hsame⟩ := loadAction_eq_ok hload
  exact ⟨uid_of_take h hbytes hid hload, hsame.trans horigin⟩

/-- What any line of a file is made into can be written again. -/
theorem printable_of_loads {r line : List (UInt8 × Origin)} (hline : line ∈ registryLines r)
    (hload : Loads passwd line loaded) :
    Printable loaded.quStr loaded.cmd loaded.name loaded.anyStr := by
  obtain ⟨b, origin, rest, id, s, -, -, hid, hload⟩ := hload
  have hinner := fgetsAll_inner hline
  have hlast : newline ∉ (line.map Prod.fst).dropLast := by
    rw [← List.map_dropLast]
    intro hmem
    obtain ⟨c, hc, hnl⟩ := List.mem_map.1 hmem
    have := hinner c hc
    simp [isNewline, hnl] at this
  refine printable_of_load ?_ hid hload
  -- a string in the buffer ends at the end of the line or before it
  have hpre : (CString.ofBuf (line.map Prod.fst)).bytes <+: line.map Prod.fst :=
    List.takeWhile_prefix _
  obtain ⟨t, ht⟩ := hpre
  intro hmem
  refine hlast ?_
  rw [← ht]
  cases t with
  | nil => simpa using hmem
  | cons c t =>
    rw [List.dropLast_append_of_ne_nil (by simp)]
    exact List.mem_append_left _ (List.mem_of_mem_dropLast hmem)

end Evlog.Evlactiond
