/-
Evlog.Posix.Facility — codes made from names.

The event type of a message may be the CRC of its format string
(`evl_gen_event_type_v2`), and a facility that is not in the registry has
the CRC of its canonical name as its code (`evl_gen_facility_code`). Strings
are C strings here, without their NUL.

The canonical name is the name of a directory, the code is what a record
keeps of the facility. Both have to stand for the name as it is read without
regard to case.
-/
import Evlog.Posix.Entry

namespace Evlog.Posix

/-! ## `crc32` -/

def crcQuotient : UInt32 := 0x04c11db7

/-- The inner loop of `crc32`: `n` bits of an octet. -/
def crcBits : Nat → UInt8 → UInt32 → UInt32
  | 0, _, result => result
  | n + 1, octet, result =>
    let shifted := result <<< 1
    crcBits n (octet <<< 1)
      (if (octet >>> 7).toUInt32 ^^^ (result >>> 31) ≠ 0 then shifted ^^^ crcQuotient else shifted)

/-- `crc32`, the complement of the remainder. -/
def crc32 (data : List UInt8) : UInt32 :=
  ~~~(data.foldl (fun result octet => crcBits 8 octet result) 0xffffffff)

/-! ## `evl_gen_event_type_v2` -/

def isdigit (c : UInt8) : Bool := 0x30 ≤ c && c ≤ 0x39

/-- The string behind its printk-style severity codes, each a digit between
angle brackets. -/
def skipSeverity : List UInt8 → List UInt8
  | a :: b :: c :: fmt =>
    if a = 0x3c ∧ isdigit b ∧ c = 0x3e then skipSeverity fmt else a :: b :: c :: fmt
  | fmt => fmt

/-- `(int) strlen(text)`. -/
def intLength (text : List UInt8) : Int := (text.length : Int).bmod (2 ^ 32)

/-- The length without the newlines at the end. -/
def trimmedLength (text : List UInt8) : Nat → Nat
  | 0 => 0
  | fmtlen + 1 => if text[fmtlen]? = some 0x0a then trimmedLength text fmtlen else fmtlen + 1

/-- The loop does not run for a negative length. -/
def evlGenEventTypeV2 (fmt : List UInt8) : Int32 :=
  let fmt := skipSeverity fmt
  (crc32 (fmt.take (trimmedLength fmt (intLength fmt).toNat))).toInt32

/-! ## `evl_gen_facility_code` -/

def evlLinuxFacilities : List (UInt32 × String) :=
  [(4, "AUTH"), (9, "CRON"), (3, "DAEMON"), (0, "KERN"), (6, "LPR"), (2, "MAIL"), (7, "NEWS"),
    (5, "SYSLOG"), (1, "USER"), (12, "LOGMGMT"), (8, "UUCP"), (10, "AUTHPRIV"), (11, "FTP"),
    (16, "LOCAL0"), (17, "LOCAL1"), (18, "LOCAL2"), (19, "LOCAL3"), (20, "LOCAL4"), (21, "LOCAL5"),
    (22, "LOCAL6"), (23, "LOCAL7")].map fun nv => (UInt32.ofNat nv.1 <<< 3, nv.2)

def asciiUpper (c : UInt8) : UInt8 := if 0x61 ≤ c ∧ c ≤ 0x7a then c - 0x20 else c

/-- `_evlGetValueByCIName` in `_evlLinuxFacilities`. -/
def linuxFacilityByCIName (name : List UInt8) : Option UInt32 :=
  (evlLinuxFacilities.find? fun nv =>
    (nv.2.toList.map fun c => UInt8.ofNat c.toNat).map asciiUpper == name.map asciiUpper).map Prod.fst

/-- The character of a canonical name that stands for one of the name. -/
def canonicalChar (c : UInt8) : UInt8 :=
  if 0x41 ≤ c ∧ c ≤ 0x5a then c ||| 0x20
  else if 0x7f < c ∨ (0x61 ≤ c ∧ c ≤ 0x7a) ∨ isdigit c ∨ c = 0x2e ∨ c = 0x5f then c
  else if c = 0x20 then 0x5f
  else 0x2e

/-- `_evlGenCanonicalFacilityName`. "." and ".." are reserved directory
names. -/
def evlGenCanonicalFacilityName (facName : List UInt8) : List UInt8 :=
  let canonical := facName.map canonicalChar
  if canonical = [0x2e] ∨ canonical = [0x2e, 0x2e] then canonical.set 0 0x5f else canonical

def evlInvalidFacility : UInt32 := 0xffffffff

/-- `evl_gen_facility_code`, where it succeeds. -/
def evlGenFacilityCode (fname : List UInt8) : Option UInt32 :=
  if fname.length = 0 ∨ posixLogMemstrMaxlen ≤ fname.length then none
  else
    match linuxFacilityByCIName fname with
    | some facNum => some facNum
    | none =>
      let facNum := crc32 (evlGenCanonicalFacilityName fname)
      if facNum = evlInvalidFacility ∨ evlLinuxFacilities.any fun nv => nv.1 == facNum then none
      else some facNum

/-! ## A byte -/

/-- What a canonical name is made of: lower-case letters, digits, '.', '_',
and what is not ASCII. -/
def isCanonicalChar (c : UInt8) : Bool :=
  (0x61 ≤ c && c ≤ 0x7a) || isdigit c || c = 0x2e || c = 0x5f || 0x80 ≤ c

theorem forall_byte {p : UInt8 → Prop} (h : ∀ n : Fin 256, p (UInt8.ofNat n)) (c : UInt8) : p c := by
  have hc := h ⟨c.toNat, c.toNat_lt⟩
  rwa [UInt8.ofNat_toNat] at hc

set_option maxRecDepth 20000

theorem canonicalChar_isCanonical : ∀ c, isCanonicalChar (canonicalChar c) = true :=
  forall_byte (by decide)

theorem canonicalChar_of_isCanonical : ∀ c, isCanonicalChar c = true → canonicalChar c = c :=
  forall_byte (by decide)

theorem canonicalChar_asciiUpper : ∀ c, canonicalChar (asciiUpper c) = canonicalChar c :=
  forall_byte (by decide)

/-! ## The name of a directory -/

/-- A name that an entry of a directory can have, and that is none of the
two every directory has. -/
structure IsDirectoryName (name : List UInt8) : Prop where
  ne_nil : name ≠ []
  ne_dot : name ≠ [0x2e]
  ne_dotdot : name ≠ [0x2e, 0x2e]
  no_slash : 0x2f ∉ name
  no_nul : 0x00 ∉ name

theorem evlGenCanonicalFacilityName_cases (facName : List UInt8) :
    (facName.map canonicalChar = [0x2e] ∧ evlGenCanonicalFacilityName facName = [0x5f]) ∨
    (facName.map canonicalChar = [0x2e, 0x2e] ∧ evlGenCanonicalFacilityName facName = [0x5f, 0x2e]) ∨
    (facName.map canonicalChar ≠ [0x2e] ∧ facName.map canonicalChar ≠ [0x2e, 0x2e] ∧
      evlGenCanonicalFacilityName facName = facName.map canonicalChar) := by
  unfold evlGenCanonicalFacilityName
  by_cases hdot : facName.map canonicalChar = [0x2e]
  · exact .inl ⟨hdot, by simp [hdot]⟩
  · by_cases hdotdot : facName.map canonicalChar = [0x2e, 0x2e]
    · exact .inr (.inl ⟨hdotdot, by simp [hdotdot]⟩)
    · exact .inr (.inr ⟨hdot, hdotdot, by simp [hdot, hdotdot]⟩)

@[simp] theorem length_evlGenCanonicalFacilityName (facName : List UInt8) :
    (evlGenCanonicalFacilityName facName).length = facName.length := by
  rcases evlGenCanonicalFacilityName_cases facName with ⟨h, heq⟩ | ⟨h, heq⟩ | ⟨-, -, heq⟩
  · simpa [heq] using (congrArg List.length h).symm
  · simpa [heq] using (congrArg List.length h).symm
  · simp [heq]

variable {facName name other : List UInt8}

theorem isCanonicalChar_of_mem {c : UInt8} (h : c ∈ evlGenCanonicalFacilityName facName) :
    isCanonicalChar c = true := by
  rcases evlGenCanonicalFacilityName_cases facName with ⟨-, heq⟩ | ⟨-, heq⟩ | ⟨-, -, heq⟩
  · rw [heq] at h
    rw [List.mem_singleton.1 h]
    decide
  · rw [heq] at h
    rcases List.mem_cons.1 h with rfl | h
    · decide
    · rw [List.mem_singleton.1 h]
      decide
  · rw [heq] at h
    obtain ⟨b, -, rfl⟩ := List.mem_map.1 h
    exact canonicalChar_isCanonical b

theorem isDirectoryName_canonical (hne : facName ≠ []) :
    IsDirectoryName (evlGenCanonicalFacilityName facName) where
  ne_nil := by
    intro h
    exact hne (List.length_eq_zero_iff.1 (by simpa using congrArg List.length h))
  ne_dot := by
    rcases evlGenCanonicalFacilityName_cases facName with ⟨-, heq⟩ | ⟨-, heq⟩ | ⟨hdot, -, heq⟩
    · simp [heq]
    · simp [heq]
    · rwa [heq]
  ne_dotdot := by
    rcases evlGenCanonicalFacilityName_cases facName with ⟨-, heq⟩ | ⟨-, heq⟩ | ⟨-, hdotdot, heq⟩
    · simp [heq]
    · simp [heq]
    · rwa [heq]
  no_slash := by
    intro h
    exact absurd (isCanonicalChar_of_mem h) (by decide)
  no_nul := by
    intro h
    exact absurd (isCanonicalChar_of_mem h) (by decide)

theorem evlGenCanonicalFacilityName_of_canonical (hchars : ∀ c ∈ name, isCanonicalChar c = true)
    (hdir : IsDirectoryName name) : evlGenCanonicalFacilityName name = name := by
  have hmap : name.map canonicalChar = name := by
    calc name.map canonicalChar = name.map id :=
          List.map_congr_left fun c hc => canonicalChar_of_isCanonical c (hchars c hc)
      _ = name := List.map_id name
  unfold evlGenCanonicalFacilityName
  simp [hmap, hdir.ne_dot, hdir.ne_dotdot]

/-! ## Names that differ in case only -/

theorem map_canonicalChar_asciiUpper (name : List UInt8) :
    (name.map asciiUpper).map canonicalChar = name.map canonicalChar := by
  rw [List.map_map]
  exact List.map_congr_left fun c _ => canonicalChar_asciiUpper c

theorem evlGenCanonicalFacilityName_congr (h : other.map asciiUpper = name.map asciiUpper) :
    evlGenCanonicalFacilityName other = evlGenCanonicalFacilityName name := by
  unfold evlGenCanonicalFacilityName
  rw [← map_canonicalChar_asciiUpper other, h, map_canonicalChar_asciiUpper name]

theorem evlGenFacilityCode_congr (h : other.map asciiUpper = name.map asciiUpper) :
    evlGenFacilityCode other = evlGenFacilityCode name := by
  have hlength : other.length = name.length := by simpa using congrArg List.length h
  have hlinux : linuxFacilityByCIName other = linuxFacilityByCIName name := by
    rw [linuxFacilityByCIName, linuxFacilityByCIName, h]
  rw [evlGenFacilityCode, evlGenFacilityCode, hlength, hlinux, evlGenCanonicalFacilityName_congr h]

/-! ## Codes -/

/-- The standard facility with the name `name`, whatever the case. -/
def IsNameOf (name : List UInt8) (nv : UInt32 × String) : Prop :=
  (nv.2.toList.map fun c => UInt8.ofNat c.toNat).map asciiUpper = name.map asciiUpper

theorem linuxFacilityByCIName_spec {facNum : UInt32} (h : linuxFacilityByCIName name = some facNum) :
    ∃ nv ∈ evlLinuxFacilities, nv.1 = facNum ∧ IsNameOf name nv := by
  obtain ⟨nv, hfind, hnum⟩ := Option.map_eq_some_iff.1 h
  have hname := List.find?_some hfind
  exact ⟨nv, List.mem_of_find?_eq_some hfind, hnum, eq_of_beq hname⟩

/-- Two standard facilities have two codes, and none has the code that
stands for no facility. -/
theorem evlLinuxFacilities_codes :
    (evlLinuxFacilities.map Prod.fst).Nodup ∧ ∀ nv ∈ evlLinuxFacilities, nv.1 ≠ evlInvalidFacility := by
  decide

theorem evlGenFacilityCode_spec {code : UInt32} (h : evlGenFacilityCode name = some code) :
    code ≠ evlInvalidFacility ∧ ∀ nv ∈ evlLinuxFacilities, nv.1 = code → IsNameOf name nv := by
  unfold evlGenFacilityCode at h
  split at h
  · cases h
  · split at h
    · next facNum hlinux =>
      cases h
      obtain ⟨nv, hnv, rfl, hname⟩ := linuxFacilityByCIName_spec hlinux
      refine ⟨evlLinuxFacilities_codes.2 nv hnv, fun nv' hnv' heq => ?_⟩
      rwa [List.inj_on_of_nodup_map evlLinuxFacilities_codes.1 hnv' hnv heq]
    · dsimp only at h
      split at h
      · cases h
      · next hreserved =>
        cases h
        rw [not_or, Bool.not_eq_true, List.any_eq_false] at hreserved
        refine ⟨hreserved.1, fun nv hnv heq => ?_⟩
        exact absurd (beq_iff_eq.2 heq) (hreserved.2 nv hnv)

/-! ## Names and codes -/

structure WellNamed (facName : List UInt8) : Prop where
  length : (evlGenCanonicalFacilityName facName).length = facName.length
  chars : ∀ c ∈ evlGenCanonicalFacilityName facName, isCanonicalChar c = true
  directory : IsDirectoryName (evlGenCanonicalFacilityName facName)
  idempotent : evlGenCanonicalFacilityName (evlGenCanonicalFacilityName facName) =
    evlGenCanonicalFacilityName facName
  caseless : ∀ other : List UInt8, other.map asciiUpper = facName.map asciiUpper →
    evlGenCanonicalFacilityName other = evlGenCanonicalFacilityName facName ∧
      evlGenFacilityCode other = evlGenFacilityCode facName
  code : ∀ code, evlGenFacilityCode facName = some code →
    code ≠ evlInvalidFacility ∧ ∀ nv ∈ evlLinuxFacilities, nv.1 = code → IsNameOf facName nv

/-- Every name is well named, of any bytes. -/
theorem facility_wellNamed (facName : List UInt8) (hne : facName ≠ []) : WellNamed facName where
  length := length_evlGenCanonicalFacilityName facName
  chars := fun _ => isCanonicalChar_of_mem
  directory := isDirectoryName_canonical hne
  idempotent := evlGenCanonicalFacilityName_of_canonical (fun _ => isCanonicalChar_of_mem)
    (isDirectoryName_canonical hne)
  caseless := fun _ h => ⟨evlGenCanonicalFacilityName_congr h, evlGenFacilityCode_congr h⟩
  code := fun _ => evlGenFacilityCode_spec

/-- "My App", with a blank and two capitals. -/
theorem facility_wellNamed_myApp : WellNamed [0x4d, 0x79, 0x20, 0x41, 0x70, 0x70] :=
  facility_wellNamed _ (by decide)

example : evlGenCanonicalFacilityName [0x4d, 0x79, 0x20, 0x41, 0x70, 0x70] =
    [0x6d, 0x79, 0x5f, 0x61, 0x70, 0x70] := by decide

end Evlog.Posix
