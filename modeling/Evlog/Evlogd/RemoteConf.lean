/-
Evlog.Evlogd.RemoteConf — parameters of the remote logging daemons
(rmt_common.c).

`getConfigStringParam` and `getConfigIntParam` read a file line by line into
a buffer of 256 bytes, cut each line at its '=' with `strtok` and trim the
two parts in place. Neither asks whether there is a part: a line of nothing
but '=' has no name, and behind a bare name or a bare "name=" there is no
value. And `trim` looks for the end of a string of blanks in front of it, at
the start of a line in front of the buffer. All three are `outside` in the
model.

A file says what its lines say, of any length: `parameter` is the trimmed
text behind the first '=' of the first line that is no comment and has the
name before it. The reader goes by the texts `fgets` makes of a line
(`textsOf`) instead, and whether it gets what the file says is decided on
the lines and their texts (`LinesSay`).
-/
import Evlog.Lib.CString
import Evlog.Evlogd.Config
import Mathlib.Data.List.DropRight

namespace Evlog.Evlogd.RemoteConf

open Evlog.Lib
open Evlog.Evlogd.Config (newline hash isBlank cstr ascii)

def equals : UInt8 := 0x3d

/-! ## `trim` -/

/-- `trim`; `before` is the byte in front of the string, if it is in the
buffer. -/
def trim (before : Option UInt8) (str : List UInt8) : Option (List UInt8) :=
  if str = [] then some []
  else
    let psrc := str.dropWhile isBlank
    if psrc = [] then
      -- the search for the end goes back over the blanks to what is before them
      if before.any fun b => !isBlank b then some [] else none
    else some (psrc.rdropWhile isBlank)

/-! ## The lines of the file -/

def lower (b : UInt8) : UInt8 := if 0x41 ≤ b ∧ b ≤ 0x5a then b + 0x20 else b

/-- `strcasecmp` is 0. -/
def sameName (s t : List UInt8) : Bool := s.map lower == t.map lower

/-- What comes of a line. -/
inductive Found where
  | next
  /-- Something is read that is not in the line. -/
  | outside
  | value (text : List UInt8)
  deriving DecidableEq, Repr

/-- The body of the loop, for a line without its newline. -/
def searchLine (name line : List UInt8) : Found :=
  let attname := CString.token [equals] line
  if attname = [] then .outside
  else
    match trim (line.takeWhile (· = equals)).getLast? attname with
    | none => .outside
    | some attname =>
      if !sameName attname name then .next
      else
        let attvalue := CString.token [newline] (CString.behind [equals] line)
        if attvalue = [] then .outside
        else
          -- `strtok` has put a NUL in front of the value
          match trim (some 0) attvalue with
          | none => .outside
          | some attvalue => .value attvalue

def lineOf (buf : List UInt8) : Option (List UInt8) :=
  let line := cstr buf
  if buf.head? = some hash ∨ buf.head? = some newline ∨ line = [] then none
  else some (if line.getLast? = some newline then line.dropLast else line)

def bufferFound (name buf : List UInt8) : Found :=
  match lineOf buf with
  | none => .next
  | some line => searchLine name line

def firstFound (found : List UInt8 → Found) : List (List UInt8) → Option (Option (List UInt8))
  | [] => some none
  | buf :: rest =>
    match found buf with
    | .next => firstFound found rest
    | .outside => none
    | .value text => some (some text)

/-- What `fgets(line, 256, f)` gives one after the other. -/
def confPieces (content : List UInt8) : List (List UInt8) :=
  fgetsAll (· == newline) 255 content.length content

/-! ## The two functions -/

/-- What is returned: -1 is the inner `none`. `store` puts the text into
the caller's variable. -/
def deliver {V : Type} (store : List UInt8 → Option V) :
    Option (Option (List UInt8)) → Option (Option V)
  | none => none
  | some none => some none
  | some (some text) => (store text).map some

def getConfigParam {V : Type} (store : List UInt8 → Option V) (configFile : Option (List UInt8))
    (name : List UInt8) : Option (Option V) :=
  match configFile with
  | none => some none
  | some content => deliver store (firstFound (bufferFound name) (confPieces content))

/-- `strncpy(value, attvalue, vbufsize-1)` and the NUL behind it. -/
def storeString (vbufsize : Nat) (text : List UInt8) : Option (List UInt8) :=
  if vbufsize = 0 then none else some (text.take (vbufsize - 1))

/-- `(int) strtol(attvalue, (char **)NULL, 0)`. -/
def storeInt (text : List UInt8) : Option Int :=
  some (((CString.strtol text).getD 0).bmod (2 ^ 32))

def getConfigStringParam (configFile : Option (List UInt8)) (name : List UInt8) (vbufsize : Nat) :
    Option (Option (List UInt8)) :=
  getConfigParam (storeString vbufsize) configFile name

def getConfigIntParam (configFile : Option (List UInt8)) (name : List UInt8) :
    Option (Option Int) :=
  getConfigParam storeInt configFile name

/-! ## What a file says -/

def trimBlanks (l : List UInt8) : List UInt8 := (l.dropWhile isBlank).rdropWhile isBlank

def nameText (line : List UInt8) : List UInt8 := line.takeWhile (· ≠ equals)

def valueText (line : List UInt8) : List UInt8 := (line.dropWhile (· ≠ equals)).tail

def paramOf (name line : List UInt8) : Option (List UInt8) :=
  if line.head? ≠ some hash ∧ equals ∈ line ∧ sameName (trimBlanks (nameText line)) name then
    some (trimBlanks (valueText line))
  else none

def parameter (content name : List UInt8) : Option (List UInt8) :=
  (content.splitOn newline).findSome? (paramOf name)

/-- The call gives what the file says; `meaning` is what the text stands
for. -/
def RightFor {V : Type} (store : List UInt8 → Option V) (meaning : List UInt8 → V)
    (content name : List UInt8) : Prop :=
  getConfigParam store (some content) name = some ((parameter content name).map meaning)

/-! ## A line in the buffer -/

variable {str text : List UInt8}

theorem trim_of_not_blank {before : Option UInt8} (h : ∃ b ∈ str, isBlank b = false) :
    trim before str = some (trimBlanks str) := by
  obtain ⟨b, hb, hblank⟩ := h
  have hne : str ≠ [] := List.ne_nil_of_mem hb
  have hrest : str.dropWhile isBlank ≠ [] := by
    intro hnil
    rw [List.dropWhile_eq_nil_iff] at hnil
    rw [hnil b hb] at hblank
    cases hblank
  rw [trim, if_neg hne, if_neg hrest, trimBlanks]

theorem trimBlanks_of_blank (h : ∀ b ∈ str, isBlank b = true) : trimBlanks str = [] := by
  rw [trimBlanks, List.dropWhile_eq_nil_iff.mpr h, List.rdropWhile_nil]

/-- Behind a byte that is no blank, `trim` stays in the line. -/
theorem trim_behind {b : UInt8} (hb : isBlank b = false) (str : List UInt8) :
    trim (some b) str = some (trimBlanks str) := by
  by_cases hblank : ∀ c ∈ str, isBlank c = true
  · rw [trim, trimBlanks_of_blank hblank, List.dropWhile_eq_nil_iff.mpr hblank]
    simp [hb]
  · push Not at hblank
    obtain ⟨c, hc, hne⟩ := hblank
    exact trim_of_not_blank ⟨c, hc, by simpa using hne⟩

/-- At the start of the line it does not, if there is nothing but blanks. -/
theorem trim_first (hne : str ≠ []) (h : ∀ b ∈ str, isBlank b = true) : trim none str = none := by
  rw [trim, if_neg hne, List.dropWhile_eq_nil_iff.mpr h]
  rfl

/-- `strtok` skips every '=' at the start. -/
def bare (line : List UInt8) : List UInt8 := line.dropWhile (· = equals)

def BlankName (line : List UInt8) : Prop := ∀ b ∈ nameText line, isBlank b = true

instance (line : List UInt8) : Decidable (BlankName line) :=
  inferInstanceAs (Decidable (∀ b ∈ nameText line, isBlank b = true))

/-- There is no name, and a '=' in front of the blanks does not stop `trim`. -/
def NoName (line : List UInt8) : Prop :=
  bare line = [] ∨ line.head? ≠ some equals ∧ BlankName line

instance (line : List UInt8) : Decidable (NoName line) := inferInstanceAs (Decidable (_ ∨ _ ∧ _))

variable {name line : List UInt8}

theorem token_equals (line : List UInt8) : CString.token [equals] line = nameText (bare line) := by
  simp only [CString.token, List.mem_singleton, nameText, bare]

theorem behind_equals (line : List UInt8) : CString.behind [equals] line = valueText (bare line) := by
  simp only [CString.behind, List.mem_singleton, valueText, bare]

theorem bare_of_head (h : line.head? ≠ some equals) : bare line = line := by
  cases line with
  | nil => rfl
  | cons b line =>
    have hb : ¬ b = equals := fun heq => h (by rw [heq]; rfl)
    exact List.dropWhile_cons_of_neg (by simpa using hb)

theorem head_bare (line : List UInt8) : (bare line).head? ≠ some equals := by
  intro h
  have hhead := List.head?_dropWhile_not (· = equals) line
  rw [← bare, h] at hhead
  simp at hhead

theorem takeWhile_of_head (h : line.head? ≠ some equals) : line.takeWhile (· = equals) = [] := by
  cases line with
  | nil => rfl
  | cons b line =>
    have hb : ¬ b = equals := fun heq => h (by rw [heq]; rfl)
    exact List.takeWhile_cons_of_neg (by simpa using hb)

/-- In front of a name that `strtok` went over a '=' for stands a '='. -/
theorem getLast_takeWhile_of_head (h : line.head? = some equals) :
    (line.takeWhile (· = equals)).getLast? = some equals := by
  cases line with
  | nil => cases h
  | cons b line =>
    cases h
    have hne : (equals :: line).takeWhile (· = equals) ≠ [] := by simp
    rw [List.getLast?_eq_some_getLast hne]
    have hmem := List.mem_takeWhile_imp (List.getLast_mem hne)
    simpa using hmem

theorem nameText_ne_nil (hne : line ≠ []) (h : line.head? ≠ some equals) : nameText line ≠ [] := by
  cases line with
  | nil => exact absurd rfl hne
  | cons b line =>
    have hb : b ≠ equals := fun heq => h (by rw [heq]; rfl)
    rw [nameText, List.takeWhile_cons_of_pos (by simpa using hb)]
    exact List.cons_ne_nil b _

theorem valueText_subset (line : List UInt8) : valueText line ⊆ line :=
  ((List.tail_sublist _).trans (List.dropWhile_sublist _)).subset

theorem token_newline (h : newline ∉ text) : CString.token [newline] text = text := by
  have hall : ∀ b ∈ text, b ∉ [newline] := by
    intro b hb hmem
    rw [List.mem_singleton.mp hmem] at hb
    exact h hb
  have hdrop : text.dropWhile (· ∈ [newline]) = text := by
    cases text with
    | nil => rfl
    | cons b text => exact List.dropWhile_cons_of_neg (by simpa using hall b List.mem_cons_self)
  rw [CString.token, hdrop]
  exact List.takeWhile_eq_self_iff.mpr (by simpa using hall)

theorem trim_name (hbare : bare line ≠ []) :
    trim (line.takeWhile (· = equals)).getLast? (nameText (bare line)) =
      if NoName line then none else some (trimBlanks (nameText (bare line))) := by
  by_cases hhead : line.head? = some equals
  · have hname : ¬ NoName line := by
      rintro (hnil | hno)
      · exact hbare hnil
      · exact hno.1 hhead
    rw [getLast_takeWhile_of_head hhead, if_neg hname, trim_behind rfl]
  · have hself := bare_of_head hhead
    rw [hself] at hbare ⊢
    rw [takeWhile_of_head hhead, List.getLast?_nil]
    by_cases hblank : BlankName line
    · rw [if_pos (.inr ⟨hhead, hblank⟩), trim_first (nameText_ne_nil hbare hhead) hblank]
    · have hsome : ∃ b ∈ nameText line, isBlank b = false := by
        unfold BlankName at hblank
        push Not at hblank
        simpa using hblank
      have hname : ¬ NoName line := by
        rintro (hnil | hno)
        · exact hbare (hself.symm.trans hnil)
        · exact hblank hno.2
      rw [if_neg hname, trim_of_not_blank hsome]

theorem searchLine_eq (name : List UInt8) (hnl : newline ∉ line) :
    searchLine name line =
      if NoName line then .outside
      else if !sameName (trimBlanks (nameText (bare line))) name then .next
      else if valueText (bare line) = [] then .outside
      else .value (trimBlanks (valueText (bare line))) := by
  by_cases hbare : bare line = []
  · have hname : nameText (bare line) = [] := by
      rw [hbare]
      rfl
    rw [searchLine, token_equals, hname, if_pos rfl, if_pos (.inl hbare)]
  · have hname := nameText_ne_nil hbare (head_bare line)
    have hvalue : newline ∉ valueText (bare line) := fun hmem =>
      hnl ((List.dropWhile_sublist _).subset (valueText_subset _ hmem))
    rw [searchLine, token_equals, behind_equals, trim_name hbare, token_newline hvalue]
    simp only [hname, if_false]
    by_cases hno : NoName line
    · rw [if_pos hno, if_pos hno]
    · rw [if_neg hno, if_neg hno]
      simp only [trim_behind (b := 0) rfl]

/-! ## The texts of a line -/

def lineFound (name line : List UInt8) : Found :=
  if line = [] ∨ line.head? = some hash then .next else searchLine name line

/-- What the reader sees of a line, one piece after the other. -/
def textsOf (line : List UInt8) : List (List UInt8) := (confPieces line).map cstr

theorem head_cstr {buf : List UInt8} (h : cstr buf ≠ []) : (cstr buf).head? = buf.head? := by
  cases buf with
  | nil => rfl
  | cons b buf =>
    by_cases hb : b = 0
    · subst hb
      exact absurd rfl h
    · rw [cstr, List.takeWhile_cons_of_pos (by simpa using hb)]
      rfl

theorem cstr_subset (buf : List UInt8) : cstr buf ⊆ buf := (List.takeWhile_sublist _).subset

theorem cstr_append_of_noNul {buf : List UInt8} (h : 0 ∉ buf) (rest : List UInt8) :
    cstr (buf ++ rest) = buf ++ cstr rest := by
  refine List.takeWhile_append_of_pos ?_
  intro b hb
  have hb0 : b ≠ 0 := fun h0 => h (h0 ▸ hb)
  simpa using hb0

/-- A piece in the buffer that does not end with a newline. -/
theorem bufferFound_piece (name : List UInt8) {piece : List UInt8} (hnl : newline ∉ piece) :
    bufferFound name piece = lineFound name (cstr piece) := by
  rw [bufferFound, lineOf, lineFound]
  by_cases hnil : cstr piece = []
  · simp only [hnil, or_true, true_or, if_true]
  · have hhead := head_cstr hnil
    have hfirst : piece.head? ≠ some newline := fun h => hnl (List.mem_of_mem_head? h)
    have hlast : (cstr piece).getLast? ≠ some newline := fun h =>
      hnl (cstr_subset _ (List.mem_of_getLast? h))
    simp only [hnil, hhead, hfirst, hlast, or_false, false_or, if_false]
    by_cases hhash : piece.head? = some hash
    · rw [if_pos hhash, if_pos hhash]
    · rw [if_neg hhash, if_neg hhash]

/-- And one that does. -/
theorem bufferFound_line (name : List UInt8) {piece : List UInt8} (hnl : newline ∉ piece) :
    bufferFound name (piece ++ [newline]) = lineFound name (cstr piece) := by
  rw [← bufferFound_piece name hnl]
  by_cases hnul : 0 ∈ piece
  · have hcut : cstr (piece ++ [newline]) = cstr piece := by
      obtain ⟨pre, post, rfl, hpre⟩ := List.eq_append_cons_of_mem hnul
      rw [List.append_assoc, List.cons_append, cstr_append_of_noNul hpre, cstr_append_of_noNul hpre]
      rfl
    have hne : piece ≠ [] := List.ne_nil_of_mem hnul
    rw [bufferFound, bufferFound, lineOf, lineOf, hcut, List.head?_append_of_ne_nil _ hne]
  · have hcut : cstr piece = piece := by
      have hnil : cstr [] = [] := rfl
      have happend := cstr_append_of_noNul hnul []
      rwa [hnil, List.append_nil] at happend
    have hcutline : cstr (piece ++ [newline]) = piece ++ [newline] := cstr_append_of_noNul hnul _
    cases piece with
    | nil => rfl
    | cons b piece =>
      have hlast : (b :: piece).getLast? ≠ some newline := fun h => hnl (List.mem_of_getLast? h)
      have hb : b ≠ newline := fun heq => hnl (heq ▸ List.mem_cons_self)
      rw [bufferFound, bufferFound, lineOf, lineOf, hcut, hcutline, List.getLast?_concat,
        List.dropLast_concat]
      simp only [hlast, if_true, if_false, List.cons_append, List.head?_cons, List.cons_ne_nil]

theorem beq_newline_of_notMem {line : List UInt8} (h : newline ∉ line) :
    ∀ b ∈ line, (b == newline) = false := by
  intro b hb
  rw [beq_eq_false_iff_ne]
  exact fun heq => h (heq ▸ hb)

theorem confPieces_flatten (content : List UInt8) : (confPieces content).flatten = content :=
  (fgetsAll_fileLines (by decide) (Nat.le_refl _)).2

theorem confPieces_eq {pieces : List (List UInt8)} (h : FileLines (· == newline) 255 pieces) :
    confPieces pieces.flatten = pieces := h.fgetsAll_flatten (Nat.le_refl _)

/-- A line that fits in the buffer is seen as it is. -/
theorem textsOf_short (hnl : newline ∉ line) (hne : line ≠ []) (hfits : line.length ≤ 255) :
    textsOf line = [cstr line] := by
  have hlast : FileLines (· == newline) 255 [line] :=
    .last hne (fun b hb => beq_newline_of_notMem hnl b (List.mem_of_mem_dropLast hb)) hfits
  have hpieces := confPieces_eq hlast
  rw [List.flatten_singleton] at hpieces
  rw [textsOf, hpieces]
  rfl

/-- Of a longer one, what fills the buffer is seen first. -/
theorem textsOf_append {piece : List UInt8} (hnl : newline ∉ piece) (hfull : piece.length = 255)
    (rest : List UInt8) : textsOf (piece ++ rest) = cstr piece :: textsOf rest := by
  have hne : piece ≠ [] := by
    intro hnil
    rw [hnil] at hfull
    cases hfull
  have hpiece : LineLike (· == newline) 255 piece :=
    ⟨hne, fun b hb => beq_newline_of_notMem hnl b (List.mem_of_mem_dropLast hb), hfull.le, .inl hfull⟩
  have hrest : FileLines (· == newline) 255 (confPieces rest) :=
    (fgetsAll_fileLines (by decide) (Nat.le_refl _)).1
  have hpieces := confPieces_eq (.cons hpiece hrest)
  rw [List.flatten_cons, confPieces_flatten] at hpieces
  rw [textsOf, hpieces, List.map_cons, textsOf]

theorem splitOn_append {piece : List UInt8} (hnl : newline ∉ piece) (rest : List UInt8) :
    ∃ line lines, rest.splitOn newline = line :: lines ∧
      (piece ++ rest).splitOn newline = (piece ++ line) :: lines := by
  by_cases hmem : newline ∈ rest
  · obtain ⟨line, later, rfl, hline⟩ := List.eq_append_cons_of_mem hmem
    have hboth : newline ∉ piece ++ line := by
      rw [List.mem_append, not_or]
      exact ⟨hnl, hline⟩
    refine ⟨line, later.splitOn newline, List.splitOn_append_cons_self_of_not_mem hline later, ?_⟩
    rw [← List.append_assoc]
    exact List.splitOn_append_cons_self_of_not_mem hboth later
  · have hboth : newline ∉ piece ++ rest := by
      rw [List.mem_append, not_or]
      exact ⟨hnl, hmem⟩
    exact ⟨rest, [], List.splitOn_eq_singleton hmem, List.splitOn_eq_singleton hboth⟩

/-- A piece ends with the newline of its line, or has none. -/
theorem piece_cases {piece : List UInt8} (hne : piece ≠ [])
    (hinner : ∀ b ∈ piece.dropLast, (b == newline) = false) :
    (∃ line, newline ∉ line ∧ piece = line ++ [newline]) ∨ newline ∉ piece := by
  have hfree : newline ∉ piece.dropLast := fun hmem => by simpa using hinner newline hmem
  obtain ⟨last, hsplit⟩ : ∃ last, piece = piece.dropLast ++ [last] :=
    ⟨piece.getLast hne, (List.dropLast_concat_getLast hne).symm⟩
  by_cases hlast : last = newline
  · exact .inl ⟨piece.dropLast, hfree, by rw [← hlast]; exact hsplit⟩
  · right
    rw [hsplit, List.mem_append, List.mem_singleton, not_or]
    exact ⟨hfree, fun h => hlast h.symm⟩

/-- The reader goes by the texts of the lines. -/
theorem firstFound_pieces (name : List UInt8) {pieces : List (List UInt8)}
    (h : FileLines (· == newline) 255 pieces) :
    firstFound (bufferFound name) pieces
      = firstFound (lineFound name) ((pieces.flatten.splitOn newline).flatMap textsOf) := by
  have hline : ∀ {line rest : List UInt8}, newline ∉ line → line.length ≤ 255 →
      firstFound (lineFound name) (((line ++ newline :: rest).splitOn newline).flatMap textsOf)
        = match bufferFound name (line ++ [newline]) with
          | .next => firstFound (lineFound name) ((rest.splitOn newline).flatMap textsOf)
          | .outside => none
          | .value text => some (some text) := by
    intro line rest hnl hfits
    rw [List.splitOn_append_cons_self_of_not_mem hnl, List.flatMap_cons, bufferFound_line name hnl]
    by_cases hne : line = []
    · subst hne
      rfl
    · rw [textsOf_short hnl hne hfits, List.singleton_append, firstFound]
  induction h with
  | nil => rfl
  | @last piece hne hinner hfits =>
    rw [List.flatten_singleton]
    rcases piece_cases hne hinner with ⟨line, hnl, rfl⟩ | hnl
    · rw [List.length_append, List.length_singleton] at hfits
      rw [hline hnl (by omega), firstFound]
      rfl
    · rw [List.splitOn_eq_singleton hnl, List.flatMap_singleton, textsOf_short hnl hne hfits, firstFound,
        firstFound, bufferFound_piece name hnl]
      rfl
  | @cons piece pieces hp _ ih =>
    rw [List.flatten_cons, firstFound, ih]
    rcases piece_cases hp.ne_nil hp.inner with ⟨line, hnl, rfl⟩ | hnl
    · have hfits := hp.fits
      rw [List.length_append, List.length_singleton] at hfits
      rw [List.append_assoc, List.singleton_append, hline hnl (by omega)]
    · have hfull : piece.length = 255 := by
        refine hp.ends.resolve_right ?_
        rintro ⟨b, hb, heq⟩
        rw [beq_iff_eq] at heq
        exact hnl (heq ▸ List.mem_of_getLast? hb)
      obtain ⟨line, lines, hrest, hall⟩ := splitOn_append hnl pieces.flatten
      rw [hall, hrest, List.flatMap_cons, List.flatMap_cons, textsOf_append hnl hfull,
        List.cons_append, firstFound, bufferFound_piece name hnl]

/-! ## When a file is read as it says -/

/-- The reader does not go on behind this text: it has the name, or none. -/
def Halts (name text : List UInt8) : Prop :=
  text ≠ [] ∧ text.head? ≠ some hash ∧
    (NoName text ∨ sameName (trimBlanks (nameText (bare text))) name = true)

instance (name text : List UInt8) : Decidable (Halts name text) :=
  inferInstanceAs (Decidable (_ ∧ _ ∧ (_ ∨ _)))

def Readable (text : List UInt8) : Prop := ¬ NoName text ∧ valueText (bare text) ≠ []

instance (text : List UInt8) : Decidable (Readable text) :=
  inferInstanceAs (Decidable (_ ∧ _))

def haltsAt (name : List UInt8) (texts : List (List UInt8)) : Option (List UInt8) :=
  texts.find? fun text => decide (Halts name text)

variable {V : Type} {store : List UInt8 → Option V} {meaning : List UInt8 → V} {said : List UInt8}

/-- The text has a name and a value, and what is stored of the value stands
for what is said. -/
def Gives (store : List UInt8 → Option V) (meaning : List UInt8 → V) (text said : List UInt8) :
    Prop :=
  Readable text ∧ store (trimBlanks (valueText (bare text))) = some (meaning said)

/-- Line after line, as long as a line has not the name and no text of it
stops the reader. Then both are so, and the text gives what the line says,
or what is missing is made up for further down. -/
def LinesSay (store : List UInt8 → Option V) (meaning : List UInt8 → V) (name : List UInt8) :
    List (List UInt8) → Prop
  | [] => True
  | line :: lines =>
    match haltsAt name (textsOf line), paramOf name line with
    | none, none => LinesSay store meaning name lines
    | some text, some said => Gives store meaning text said
    | some text, none => ∃ said ∈ lines.findSome? (paramOf name), Gives store meaning text said
    | none, some said =>
      ∃ text ∈ haltsAt name (lines.flatMap textsOf), Gives store meaning text said

theorem lineFound_eq (name : List UInt8) (hnl : newline ∉ text) :
    lineFound name text =
      if ¬ Halts name text then .next
      else if Readable text then .value (trimBlanks (valueText (bare text))) else .outside := by
  by_cases hskip : text = [] ∨ text.head? = some hash
  · have hgoes : ¬ Halts name text := fun h => hskip.elim h.1 h.2.1
    rw [lineFound, if_pos hskip, if_pos hgoes]
  · obtain ⟨hne, hhash⟩ := not_or.mp hskip
    rw [lineFound, if_neg hskip, searchLine_eq name hnl]
    by_cases hno : NoName text
    · have hhalts : Halts name text := ⟨hne, hhash, .inl hno⟩
      rw [if_pos hno, if_neg (not_not.mpr hhalts), if_neg fun h => h.1 hno]
    · by_cases hname : sameName (trimBlanks (nameText (bare text))) name = true
      · have hhalts : Halts name text := ⟨hne, hhash, .inr hname⟩
        by_cases hvalue : valueText (bare text) = []
        · simp [hno, hname, hhalts, hvalue, Readable]
        · simp [hno, hname, hhalts, hvalue, Readable]
      · have hgoes : ¬ Halts name text := fun h => h.2.2.elim hno hname
        simp [hno, hname, hgoes]

/-- The reader stops at the first text that halts it. -/
theorem firstFound_eq {texts : List (List UInt8)} (h : ∀ text ∈ texts, newline ∉ text) :
    firstFound (lineFound name) texts =
      match haltsAt name texts with
      | none => some none
      | some text =>
        if Readable text then some (some (trimBlanks (valueText (bare text)))) else none := by
  induction texts with
  | nil => rfl
  | cons text texts ih =>
    obtain ⟨hnl, hrest⟩ := List.forall_mem_cons.mp h
    rw [firstFound, lineFound_eq name hnl, haltsAt, List.find?_cons]
    by_cases hhalts : Halts name text
    · by_cases hread : Readable text
      · simp [hhalts, hread]
      · simp [hhalts, hread]
    · simp only [hhalts, not_false_eq_true, if_true, decide_false]
      exact ih hrest

theorem newline_notMem_texts (hnl : newline ∉ line) : ∀ text ∈ textsOf line, newline ∉ text := by
  intro text htext hmem
  obtain ⟨piece, hpiece, rfl⟩ := List.mem_map.mp htext
  rw [← confPieces_flatten line] at hnl
  exact hnl (List.mem_flatten_of_mem hpiece (cstr_subset piece hmem))

theorem deliver_gives (text said : List UInt8) :
    deliver store (if Readable text then some (some (trimBlanks (valueText (bare text)))) else none)
        = some (some (meaning said)) ↔ Gives store meaning text said := by
  by_cases hread : Readable text
  · simp [hread, deliver, Gives]
  · simp [hread, deliver, Gives]

/-- Two answers agree where neither has anything, or the one gives what the
other says. -/
theorem deliver_iff (halted said : Option (List UInt8)) :
    deliver store
        (match halted with
        | none => some none
        | some text =>
          if Readable text then some (some (trimBlanks (valueText (bare text)))) else none)
        = some (said.map meaning) ↔
      match halted, said with
      | none, none => True
      | some text, some said => Gives store meaning text said
      | _, _ => False := by
  cases halted with
  | none => cases said <;> simp [deliver]
  | some text =>
    cases said with
    | some said => exact deliver_gives text said
    | none =>
      by_cases hread : Readable text
      · simp [hread, deliver]
      · simp [hread, deliver]

theorem linesSay_iff (lines : List (List UInt8)) :
    LinesSay store meaning name lines ↔
      match haltsAt name (lines.flatMap textsOf), lines.findSome? (paramOf name) with
      | none, none => True
      | some text, some said => Gives store meaning text said
      | _, _ => False := by
  induction lines with
  | nil => simp [LinesSay, haltsAt]
  | cons line lines ih =>
    have hfind : haltsAt name ((line :: lines).flatMap textsOf)
        = (haltsAt name (textsOf line)).or (haltsAt name (lines.flatMap textsOf)) := by
      rw [List.flatMap_cons, haltsAt, List.find?_append]
      rfl
    rw [hfind, LinesSay, List.findSome?_cons]
    cases haltsAt name (textsOf line) with
    | none =>
      cases paramOf name line with
      | none => exact ih
      | some said => cases haltsAt name (lines.flatMap textsOf) <;> simp
    | some text =>
      cases paramOf name line with
      | none => cases lines.findSome? (paramOf name) <;> simp
      | some said => rfl

theorem newline_notMem_splitOn (content : List UInt8) :
    ∀ line ∈ content.splitOn newline, newline ∉ line := by
  induction hlen : content.length using Nat.strong_induction_on generalizing content with
  | _ n ih =>
    subst hlen
    intro l hl
    by_cases hnl : newline ∈ content
    · obtain ⟨line, rest, rfl, hline⟩ := List.eq_append_cons_of_mem hnl
      rw [List.splitOn_append_cons_self_of_not_mem hline] at hl
      have hshort : rest.length < (line ++ newline :: rest).length := by
        rw [List.length_append, List.length_cons]
        omega
      rcases List.mem_cons.mp hl with rfl | hl
      · exact hline
      · exact ih rest.length hshort rest rfl l hl
    · rw [List.splitOn_eq_singleton hnl] at hl
      rwa [List.mem_singleton.mp hl]

theorem rightFor_iff (content name : List UInt8) : RightFor store meaning content name ↔
    LinesSay store meaning name (content.splitOn newline) := by
  have hpieces : FileLines (· == newline) 255 (confPieces content) :=
    (fgetsAll_fileLines (by decide) (Nat.le_refl _)).1
  have hfree : ∀ text ∈ (content.splitOn newline).flatMap textsOf, newline ∉ text := by
    intro text htext
    obtain ⟨line, hline, htext⟩ := List.mem_flatMap.mp htext
    exact newline_notMem_texts (newline_notMem_splitOn content line hline) text htext
  rw [RightFor, getConfigParam, firstFound_pieces name hpieces, confPieces_flatten,
    firstFound_eq hfree, linesSay_iff]
  exact deliver_iff _ _

def numberOf (text : List UInt8) : Int := (CString.strtol text).getD 0

end Evlog.Evlogd.RemoteConf
