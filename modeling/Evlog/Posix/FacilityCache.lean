/-
Evlog.Posix.FacilityCache — when the registry file is read again (facreg.c).

`evlCheckInterval` is 0 here, so each look-up asks `facRegUpToDate`, which
compares the file's time and size with those that `stat` gave when it was
read last. The time and the size are noted before the content is read, and
for a file that is refused as well.
-/
import Evlog.Posix.FacilityFileTheorems

namespace Evlog.Posix

open Evlog.Lib

/-! ## The file and its image -/

/-- The registry file from one change to the next. -/
structure Version where
  content : List UInt8
  mtime : Int
  deriving DecidableEq, Repr

/-- `st_size`. -/
def Version.size (v : Version) : Nat := v.content.length

def Version.Differs (v w : Version) : Prop := v.mtime ≠ w.mtime ∨ v.size ≠ w.size

variable {Query : Type}

/-- The file, and what is kept of it: `facilities` and `faCapacity`,
`lastMod` and `lastSize`. -/
structure Image (Query : Type) where
  file : Version
  inUse : InUse Query
  lastMod : Int
  lastSize : Nat

def Image.start (Query : Type) (file : Version) : Image Query := ⟨file, ⟨none, 50⟩, 0, 0⟩

/-- `facRegUpToDate`, with `stat` done. -/
def facRegUpToDate (lastMod : Int) (lastSize : Nat) (st : Version) : Bool :=
  st.mtime ≤ lastMod && lastSize = st.size

def Image.upToDate (im : Image Query) : Bool :=
  im.inUse.facilities.isSome && facRegUpToDate im.lastMod im.lastSize im.file

/-- `syncFacilities` in a look-up. What is read, if the file is read, is
`read`. -/
def Image.sync (busy : Nat → Bool) (check : List UInt8 → Except Errno Query) (im : Image Query)
    (read : Version) : Option (Image Query) :=
  (syncFacilities busy check (facRegUpToDate im.lastMod im.lastSize im.file) (some read.content) im.inUse).map
    fun inUse =>
      if im.upToDate then { im with inUse := inUse }
      else ⟨read, inUse, im.file.mtime, im.file.size⟩

/-! ## Runs -/

/-- What happens: a version is put in place, or something is looked up. In a
look-up a version may be put in place behind the `stat` and before the
content is read, and is what is read then. -/
inductive Event where
  | put (v : Version)
  | lookup (during : Option Version)

variable (busy : Nat → Bool) (check : List UInt8 → Except Errno Query)

inductive Step : Image Query → Event → Image Query → Prop
  | put {im : Image Query} {v : Version} (hdiffers : v.Differs im.file) :
      Step im (.put v) { im with file := v }
  | lookup {im im' : Image Query} (h : im.sync busy check im.file = some im') :
      Step im (.lookup none) im'
  | during {im im' : Image Query} {v : Version} (hread : im.upToDate = false) (hdiffers : v.Differs im.file)
      (h : im.sync busy check v = some im') : Step im (.lookup (some v)) im'

/-! ## What the look-ups should answer by -/

/-- `_evlReadFacilities` takes the version. -/
def Version.Valid (v : Version) : Prop := Accepted check (chunksOf busy v.content)

/-- The version in place, and the newest valid one that was in place at a
look-up. -/
structure Seen where
  file : Version
  newest : Option Version

open Classical in
/-- A look-up sees the version that is in place when the file is read. -/
noncomputable def Seen.step (s : Seen) : Event → Seen
  | .put v => { s with file := v }
  | .lookup during =>
    let v := during.getD s.file
    ⟨v, if v.Valid busy check then some v else s.newest⟩

noncomputable def seen (file : Version) (events : List Event) : Seen :=
  events.foldl (Seen.step busy check) ⟨file, none⟩

def AnswersBy (inUse : InUse Query) : Option Version → Prop
  | none => ∃ faCapacity facReg, setUpDefaultRegistry Query faCapacity = some facReg ∧
      inUse.facilities = some facReg
  | some v => ∃ faCapacity facReg,
      evlReadFacilities busy check faCapacity (some v.content) = some (some facReg) ∧
        inUse.facilities = some facReg

/-- A look-up does not take a valid version for the one it has read: either
its content is that of the registry in use, or its time is later than the
one noted, or its size is another. -/
def Notices (im : Image Query) (newest : Option Version) : Event → Prop
  | .put _ => True
  | .lookup _ =>
    im.inUse.facilities = none ∨ ¬im.file.Valid busy check ∨ (∃ v, newest = some v ∧ v.content = im.file.content) ∨
      im.lastMod < im.file.mtime ∨ im.lastSize ≠ im.file.size

/-- Runs from a file on, of which every step satisfies `G`. -/
inductive Run (G : Image Query → Option Version → Event → Prop) (file : Version) :
    List Event → Image Query → Prop
  | nil : Run G file [] (Image.start Query file)
  | snoc {events : List Event} {im im' : Image Query} {e : Event} (h : Run G file events im)
      (hG : G im (seen busy check file events).newest e) (hstep : Step busy check im e im') :
      Run G file (events ++ [e]) im'

/-! ## A step -/

theorem seen_snoc (file : Version) (events : List Event) (e : Event) :
    seen busy check file (events ++ [e]) = (seen busy check file events).step busy check e := by
  rw [seen, seen, List.foldl_append]
  rfl

/-- What holds between the steps. -/
structure Image.Current (im : Image Query) (s : Seen) : Prop where
  file : im.file = s.file
  fresh : im.inUse.facilities = none → s.newest = none
  answers : im.inUse.facilities ≠ none → AnswersBy busy check im.inUse s.newest

variable {busy check}

theorem upToDate_eq (im : Image Query) :
    im.upToDate = true ↔ im.inUse.facilities.isSome = true ∧ im.file.mtime ≤ im.lastMod ∧ im.lastSize = im.file.size := by
  simp [Image.upToDate, facRegUpToDate]

variable {im im' : Image Query}

theorem Image.sync_upToDate (hup : im.upToDate = true) (read : Version) :
    im.sync busy check read = some im := by
  have hsync : syncFacilities busy check (facRegUpToDate im.lastMod im.lastSize im.file)
      (some read.content) im.inUse = some im.inUse := if_pos hup
  rw [Image.sync, hsync, Option.map_some, if_pos hup]

/-- The file is read: it is taken, or what was there stays, or there was
nothing. -/
theorem Image.sync_read {read : Version} (hup : im.upToDate = false)
    (h : im.sync busy check read = some im') :
    im'.file = read ∧
      ((read.Valid busy check ∧ AnswersBy busy check im'.inUse (some read)) ∨
        (¬read.Valid busy check ∧ im.inUse.facilities ≠ none ∧ im'.inUse = im.inUse) ∨
        (¬read.Valid busy check ∧ im.inUse.facilities = none ∧ AnswersBy busy check im'.inUse none)) := by
  obtain ⟨inUse, hsync, rfl⟩ := Option.map_eq_some_iff.1 h
  rw [if_neg (by simp [hup])]
  refine ⟨rfl, ?_⟩
  unfold syncFacilities at hsync
  rw [if_neg (by simpa [Image.upToDate] using hup)] at hsync
  obtain ⟨facs, facReg, hread, hacc, -⟩ | ⟨hread, hacc⟩ | ⟨hread, -⟩ :=
    evlReadFacilities_spec busy check im.inUse.faCapacity read.content
  · rw [hread, Option.bind_some] at hsync
    cases hsync
    exact .inl ⟨hacc, im.inUse.faCapacity, facReg, hread, rfl⟩
  · rw [hread, Option.bind_some] at hsync
    dsimp only at hsync
    cases hold : im.inUse.facilities with
    | none =>
      rw [hold] at hsync
      obtain ⟨facReg, hdefault, rfl⟩ := Option.map_eq_some_iff.1 hsync
      exact .inr (.inr ⟨hacc, rfl, im.inUse.faCapacity, facReg, hdefault, rfl⟩)
    | some facReg =>
      rw [hold] at hsync
      cases hsync
      exact .inr (.inl ⟨hacc, by simp, rfl⟩)
  · rw [hread] at hsync
    cases hsync

theorem AnswersBy.isSome {inUse : InUse Query} {newest : Option Version}
    (h : AnswersBy busy check inUse newest) : inUse.facilities ≠ none := by
  cases newest with
  | none =>
    obtain ⟨_, _, -, hsome⟩ := h
    simp [hsome]
  | some v =>
    obtain ⟨_, _, -, hsome⟩ := h
    simp [hsome]

variable {s : Seen}

theorem Image.Current.of_answers (hfile : im.file = s.file)
    (h : AnswersBy busy check im.inUse s.newest) : im.Current busy check s :=
  ⟨hfile, fun hnone => absurd hnone h.isSome, fun _ => h⟩

theorem Image.Current.read {read : Version} (hc : im.Current busy check s)
    (hup : im.upToDate = false) (h : im.sync busy check read = some im') :
    im'.file = read ∧
      AnswersBy busy check im'.inUse (open Classical in if read.Valid busy check then some read else s.newest) := by
  classical
  obtain ⟨hfile, ⟨hvalid, hby⟩ | ⟨hvalid, hsome, hsame⟩ | ⟨hvalid, hnone, hby⟩⟩ := im.sync_read hup h
  · exact ⟨hfile, by rwa [if_pos hvalid]⟩
  · exact ⟨hfile, by rw [if_neg hvalid, hsame]; exact hc.answers hsome⟩
  · exact ⟨hfile, by rwa [if_neg hvalid, hc.fresh hnone]⟩

theorem Image.Current.upToDate (hc : im.Current busy check s) (hup : im.upToDate = true)
    (hnotices : Notices busy check im s.newest (.lookup none)) :
    AnswersBy busy check im.inUse (open Classical in if s.file.Valid busy check then some s.file else s.newest) := by
  classical
  obtain ⟨hsome, hmtime, hsize⟩ := (upToDate_eq im).1 hup
  have hby := hc.answers (Option.isSome_iff_ne_none.1 hsome)
  rw [← hc.file]
  rcases hnotices with hnone | hvalid | ⟨v, hnewest, hsame⟩ | hlater | hother
  · simp [hnone] at hsome
  · rwa [if_neg hvalid]
  · rw [hnewest] at hby
    split
    · rw [AnswersBy, ← hsame]
      exact hby
    · rwa [hnewest]
  · omega
  · exact absurd hsize hother

theorem Image.Current.lookup {during : Option Version} (hc : im.Current busy check s)
    (hnotices : Notices busy check im s.newest (.lookup during))
    (h : Step busy check im (.lookup during) im') :
    im'.file = (s.step busy check (.lookup during)).file ∧
      AnswersBy busy check im'.inUse (s.step busy check (.lookup during)).newest := by
  cases h with
  | lookup h =>
    cases hup : im.upToDate with
    | true =>
      rw [Image.sync_upToDate hup] at h
      cases h
      exact ⟨hc.file, hc.upToDate hup hnotices⟩
    | false =>
      obtain ⟨hfile, hby⟩ := hc.read hup h
      rw [hc.file] at hby
      exact ⟨hfile.trans hc.file, hby⟩
  | during hup _ h => exact hc.read hup h

theorem Image.Current.step {e : Event} (hc : im.Current busy check s)
    (hnotices : Notices busy check im s.newest e) (h : Step busy check im e im') :
    im'.Current busy check (s.step busy check e) := by
  cases e with
  | put v =>
    cases h
    exact ⟨rfl, hc.fresh, hc.answers⟩
  | lookup during =>
    obtain ⟨hfile, hby⟩ := hc.lookup hnotices h
    exact .of_answers hfile hby

theorem Run.current {file : Version} {events : List Event}
    (h : Run busy check (Notices busy check) file events im) :
    im.Current busy check (seen busy check file events) := by
  induction h with
  | nil => exact ⟨rfl, fun _ => rfl, fun hsome => absurd rfl hsome⟩
  | snoc _ hnotices hstep ih =>
    rw [seen_snoc]
    exact ih.step hnotices hstep

/-- In a run whose look-ups all notice a valid version, each look-up
answers by the newest valid version that was in place at a look-up. -/
theorem lookups_current (busy : Nat → Bool) (check : List UInt8 → Except Errno Query) (file : Version)
    (events : List Event) (during : Option Version) (im : Image Query)
    (h : Run busy check (Notices busy check) file (events ++ [.lookup during]) im) :
    AnswersBy busy check im.inUse (seen busy check file (events ++ [.lookup during])).newest := by
  generalize hevents : events ++ [.lookup during] = all at h
  cases h with
  | nil => simp at hevents
  | snoc h hnotices hstep =>
    obtain ⟨rfl, hlast⟩ := List.append_inj' hevents rfl
    obtain rfl := (List.singleton_inj.1 hlast).symm
    rw [seen_snoc]
    exact (h.current.lookup hnotices hstep).2

/-! ## A file that is restored -/

def withLine (line : List UInt8) : List UInt8 :=
  (evlLinuxFacilities.flatMap fun nv =>
    CString.decimal nv.1.toNat ++ 0x20 :: (nv.2.toList.map fun c => UInt8.ofNat c.toNat) ++ [0x0a]) ++ line

def fs1 : List UInt8 := [0x46, 0x53, 0x31]

def fs2 : List UInt8 := [0x46, 0x53, 0x32]

def versionWith (name : List UInt8) (mtime : Int) : Version :=
  ⟨withLine ([0x32, 0x30, 0x30, 0x20] ++ name ++ [0x0a]), mtime⟩

def Image.noted (im : Image Unit) : Int × Nat × Option UInt32 :=
  (im.lastMod, im.lastSize, im.inUse.facilities.map (getFacCodeByCIName fs1))

theorem read_fs1 :
    (((Image.start Unit (versionWith fs1 5)).sync (fun _ => false) noFilter (versionWith fs1 5)).map
      Image.noted) = some (5, (versionWith fs2 3).size, some 200) := by
  decide +kernel

theorem read_fs2_later :
    (((Image.start Unit (versionWith fs1 5)).sync (fun _ => false) noFilter (versionWith fs1 5)).bind fun im =>
      Image.sync (fun _ => false) noFilter { im with file := versionWith fs2 7 } (versionWith fs2 7)).isSome = true := by
  decide +kernel

theorem valid_fs2 (mtime : Int) : (versionWith fs2 mtime).Valid (fun _ => false) noFilter := by
  have hread : (evlReadFacilities (fun _ => false) noFilter 50 (some (versionWith fs2 3).content)).map
      Option.isSome = some true := by decide +kernel
  obtain ⟨_, _, hsome, hacc, -⟩ | ⟨hnone, -⟩ | ⟨hnone, -⟩ :=
    evlReadFacilities_spec (fun _ => false) noFilter 50 (versionWith fs2 3).content
  · exact hacc
  · rw [hnone] at hread
    cases hread
  · rw [hnone] at hread
    cases hread

theorem no_fs1 {faCapacity : Nat} {facReg : FacilityRegistry Unit} {mtime : Int}
    (h : evlReadFacilities (fun _ => false) noFilter faCapacity (some (versionWith fs2 mtime).content) =
      some (some facReg)) : getFacCodeByCIName fs1 facReg = evlInvalidFacility := by
  have hnone : ∀ piece ∈ chunksOf (fun _ => false) (versionWith fs2 3).content,
      ((kept noFilter piece).all fun fac => !sameName fac.faName fs1) = true := by
    decide +kernel
  obtain ⟨facs, facReg', hsome, -, hkept⟩ | ⟨hrefused, -⟩ | ⟨hrefused, -⟩ :=
    evlReadFacilities_spec (fun _ => false) noFilter faCapacity (versionWith fs2 mtime).content
  · rw [h] at hsome
    cases hsome
    by_contra hfound
    obtain ⟨fac, hfac, hsame⟩ := (hkept.holds.getFacCodeByCIName fs1).1 hfound
    obtain ⟨piece, hpiece, hfac⟩ := hkept.fromPiece fac hfac
    have hother := hnone piece hpiece
    rw [Option.mem_def] at hfac
    simp [hfac, hsame] at hother
  · rw [hrefused] at h
    cases h
  · rw [hrefused] at h
    cases h

theorem seen_put (v w : Version) (hvalid : w.Valid busy check) :
    (seen busy check v [.lookup none, .put w, .lookup none]).newest = some w := by
  simp [seen, Seen.step, hvalid]

/-- Version "FS1" of time 5 is read, and then version "FS2" of time 3 put in
its place. It has the same size, and the look-up behind it answers by "FS1". -/
theorem restored_is_missed :
    ∃ im, Run (fun _ => false) noFilter (fun _ _ _ => True) (versionWith fs1 5)
        [.lookup none, .put (versionWith fs2 3), .lookup none] im ∧
      ¬AnswersBy (fun _ => false) noFilter im.inUse
        (seen (fun _ => false) noFilter (versionWith fs1 5)
          [.lookup none, .put (versionWith fs2 3), .lookup none]).newest := by
  obtain ⟨im, hsync, hnoted⟩ := Option.map_eq_some_iff.1 read_fs1
  obtain ⟨hmod, hrest⟩ := Prod.mk.inj hnoted
  obtain ⟨hsize, hfs1⟩ := Prod.mk.inj hrest
  obtain ⟨facReg, hfac, hcode⟩ := Option.map_eq_some_iff.1 hfs1
  have hup : Image.upToDate { im with file := versionWith fs2 3 } = true := by
    rw [upToDate_eq]
    refine ⟨by rw [hfac]; rfl, ?_, hsize⟩
    show (3 : Int) ≤ im.lastMod
    omega
  have hdiffers : (versionWith fs2 3).Differs im.file := by
    rw [(Image.sync_read rfl hsync).1]
    exact .inl (by decide)
  refine ⟨{ im with file := versionWith fs2 3 }, ?_, ?_⟩
  · have hfirst : Run (fun _ => false) noFilter (fun _ _ _ => True) (versionWith fs1 5) [.lookup none] im :=
      .snoc .nil trivial (.lookup hsync)
    exact (hfirst.snoc trivial (.put hdiffers)).snoc trivial (.lookup (Image.sync_upToDate hup _))
  · rw [seen_put _ _ (valid_fs2 3)]
    rintro ⟨faCapacity, facReg', hread, hsame⟩
    have hnone := no_fs1 hread
    rw [hfac] at hsame
    cases hsame
    rw [hcode] at hnone
    cases hnone

/-- With time 7 it is noticed. -/
theorem lookups_current_later : ∃ im : Image Unit, AnswersBy (fun _ => false) noFilter im.inUse
      (seen (fun _ => false) noFilter (versionWith fs1 5)
        ([.lookup none, .put (versionWith fs2 7)] ++ [.lookup none])).newest := by
  obtain ⟨im, hsync, hnoted⟩ := Option.map_eq_some_iff.1 read_fs1
  have hmod : im.lastMod = 5 := (Prod.mk.inj hnoted).1
  have hdiffers : (versionWith fs2 7).Differs im.file := by
    rw [(Image.sync_read rfl hsync).1]
    exact .inl (by decide)
  obtain ⟨im', hsync'⟩ := Option.isSome_iff_exists.1 read_fs2_later
  rw [hsync, Option.bind_some] at hsync'
  have hfirst : Run (fun _ => false) noFilter (Notices (fun _ => false) noFilter) (versionWith fs1 5)
      [.lookup none] im := .snoc .nil (.inl rfl) (.lookup hsync)
  have hsecond : Run (fun _ => false) noFilter (Notices (fun _ => false) noFilter) (versionWith fs1 5)
      [.lookup none, .put (versionWith fs2 7)] { im with file := versionWith fs2 7 } :=
    .snoc hfirst trivial (.put hdiffers)
  have hlater : im.lastMod < 7 := by omega
  refine ⟨im', lookups_current _ _ _ _ _ _ ?_⟩
  exact hsecond.snoc (.inr (.inr (.inr (.inl hlater)))) (.lookup hsync')

end Evlog.Posix
