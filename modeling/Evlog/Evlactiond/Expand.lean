/-
Evlog.Evlactiond.Expand — the record id in the command of an action.

`execute` puts the id of the record that matched into the command it
hands to the shell: `expandRecId` copies the command into the buffer
`exeCmd` and writes the id wherever it finds `%recid%`. Nothing looks at
the size of the buffer. The model gives the bytes that are stored from the
start of the buffer on, so they are in it just when there are no more of
them than it has.

The text is right unless the id is negative, which `%u` does not print
with a sign. Whether it fits is decided by the length of the command, the
number of occurrences and the number of digits (`exeCmd_iff`).
-/
import Evlog.Evlactiond.Actiond
import Evlog.Lib.Occurrences

namespace Evlog.Evlactiond

open Evlog.Lib

/-- `"%recid%"`. -/
def recidTag : List UInt8 := [0x25, 0x72, 0x65, 0x63, 0x69, 0x64, 0x25]

/-- `recidStr`, as `snprintf` leaves it: `%u` prints the `unsigned int` in
what was passed, and 19 bytes of it at most are kept. -/
def recidStr (recid : UInt64) : List UInt8 := (CString.decimal recid.toUInt32.toNat).take 19

/-- The loop: the command from `ptmp1` on and the bytes stored before
`ptmp3`. Each turn goes seven bytes further at least, so `fuel` is the
length of the command. -/
def expandLoop (recid : UInt64) : Nat → List UInt8 → List UInt8 → List UInt8 × List UInt8
  | 0, ptmp1, stored => (ptmp1, stored)
  | fuel + 1, ptmp1, stored =>
    match strstr recidTag ptmp1 with
    | none => (ptmp1, stored)
    | some (before, ptmp2) =>
      expandLoop recid fuel (ptmp2.drop 7) (stored ++ before ++ recidStr recid)

/-- The bytes that are stored in `expandbuf`. -/
def expandRecId (cmdbuf : CString) (recid : UInt64) : List UInt8 :=
  let (ptmp1, stored) := expandLoop recid cmdbuf.bytes.length cmdbuf.bytes []
  if stored = [] then cmdbuf.bytes ++ [0]
  else if ptmp1 ≠ [] then stored ++ ptmp1 ++ [0]
  else stored ++ [0]

/-- The bytes that `execute` stores in `exeCmd`. The handler has the id as
an `int`, and `execute` takes a `size_t`. -/
def exeCmd (action : NfyAction) (recid : Int32) : List UInt8 :=
  expandRecId action.cmd recid.toInt64.toUInt64

/-! ## What is stored -/

theorem recidTag_ne_nil : recidTag ≠ [] := List.cons_ne_nil _ _

/-- No number of 32 bits is too long for `recidStr`. -/
theorem recidStr_eq (recid : UInt64) : recidStr recid = CString.decimal recid.toUInt32.toNat := by
  refine List.take_of_length_le ?_
  rw [CString.decimal, List.length_map]
  have hlt : recid.toUInt32.toNat < 10 ^ 19 := Nat.lt_of_lt_of_le recid.toUInt32.toNat_lt (by decide)
  exact Nat.length_toDigits_le_iff (by decide) (by decide) |>.2 hlt

theorem recidStr_ne_nil (recid : UInt64) : recidStr recid ≠ [] := by
  rw [recidStr_eq]
  exact CString.decimal_ne_nil _

theorem length_recidTag : recidTag.length = 7 := rfl

section Loop

variable (recid : UInt64) {fuel : Nat} {ptmp1 : List UInt8} (stored : List UInt8)

theorem length_le_expandLoop : stored.length ≤ (expandLoop recid fuel ptmp1 stored).2.length := by
  induction fuel generalizing ptmp1 stored with
  | zero => exact Nat.le_refl _
  | succ fuel ih =>
    rw [expandLoop]
    split
    · exact Nat.le_refl _
    · refine Nat.le_trans ?_ (ih _)
      simp only [List.length_append]
      omega

theorem expandLoop_stays (h : (expandLoop recid fuel ptmp1 []).2 = []) :
    (expandLoop recid fuel ptmp1 []).1 = ptmp1 := by
  cases fuel with
  | zero => rfl
  | succ fuel =>
    rw [expandLoop] at h ⊢
    split at h
    · rfl
    · rename_i before ptmp2 _
      have hle := @length_le_expandLoop recid fuel (ptmp2.drop 7) ([] ++ before ++ recidStr recid)
      have hdigits := List.length_pos_iff.2 (recidStr_ne_nil recid)
      rw [h] at hle
      simp only [List.length_append, List.length_nil] at hle
      omega

/-- What is stored, with what is left of the command behind it, has the
number in place of each occurrence. -/
theorem expandLoop_text (hfuel : ptmp1.length ≤ fuel) :
    (expandLoop recid fuel ptmp1 stored).2 ++ (expandLoop recid fuel ptmp1 stored).1 =
      stored ++ (recidStr recid).intercalate (piecesLoop recidTag fuel ptmp1) := by
  induction fuel generalizing ptmp1 stored with
  | zero => simp [expandLoop, piecesLoop]
  | succ fuel ih =>
    rw [expandLoop, piecesLoop]
    cases hocc : strstr recidTag ptmp1 with
    | none => simp
    | some found =>
      obtain ⟨m, hm, hptmp1, -⟩ := strstr_eq_some (p := found.1) (r := found.2) hocc
      have hdrop : found.2.drop 7 = m := by rw [hm, ← length_recidTag, List.drop_left]
      have hle : m.length ≤ fuel := by
        rw [hptmp1, List.length_append, List.length_append, length_recidTag] at hfuel
        omega
      have hne := (piecesLoop_spec recidTag_ne_nil hle).ne_nil
      simp only [length_recidTag, hdrop]
      rw [ih _ hle, List.intercalate_cons_of_ne_nil hne]
      simp only [List.append_assoc]

end Loop

/-- The command with the number in place of each occurrence, and the NUL. -/
theorem expandRecId_eq (cmdbuf : CString) (recid : UInt64) : expandRecId cmdbuf recid =
      (recidStr recid).intercalate (pieces recidTag cmdbuf.bytes) ++ [0] := by
  have htext := @expandLoop_text recid _ cmdbuf.bytes [] (Nat.le_refl _)
  have hstays := @expandLoop_stays recid cmdbuf.bytes.length cmdbuf.bytes
  rw [List.nil_append] at htext
  rw [pieces, ← htext, expandRecId]
  generalize expandLoop recid cmdbuf.bytes.length cmdbuf.bytes [] = loop at hstays ⊢
  by_cases hnil : loop.2 = []
  · simp [hnil, hstays hnil]
  · by_cases hdone : loop.1 = [] <;> simp [hnil, hdone]

/-! ## The id -/

def recidText (recid : Int32) : List UInt8 :=
  if recid < 0 then 0x2d :: CString.decimal recid.toInt.natAbs
  else CString.decimal recid.toInt.natAbs

theorem recidStr_toUInt64 (recid : Int32) :
    recidStr recid.toInt64.toUInt64 = CString.decimal recid.toUInt32.toNat := by
  have h : recid.toInt64.toUInt64.toUInt32 = recid.toUInt32 := by
    apply UInt32.toBitVec_inj.1
    show (recid.toBitVec.signExtend 64).setWidth 32 = recid.toBitVec
    ext i hi
    rw [BitVec.getElem_setWidth, BitVec.getLsbD_signExtend, if_pos hi, BitVec.getLsbD_eq_getElem hi]
    simp only [Bool.and_eq_right_iff_imp, decide_eq_true_eq]
    omega
  rw [recidStr_eq, h]

/-- `%u` prints an id as it is when it is not negative. -/
theorem recidStr_of_nonneg {recid : Int32} (h : 0 ≤ recid) :
    recidStr recid.toInt64.toUInt64 = recidText recid := by
  have hint : 0 ≤ recid.toInt := by simpa using Int32.le_iff_toInt_le.1 h
  have hnat : recid.toUInt32.toNat = recid.toInt.natAbs := by
    show recid.toBitVec.toNat = recid.toBitVec.toInt.natAbs
    have hbits : 0 ≤ recid.toBitVec.toInt := hint
    rw [BitVec.toInt_eq_toNat_cond] at hbits ⊢
    split at hbits <;> omega
  have hneg : ¬ recid < 0 := by
    rw [Int32.lt_iff_toInt_lt]
    exact Int.not_lt.2 hint
  rw [recidStr_toUInt64, recidText, if_neg hneg, hnat]

/-- A negative id begins with a sign, and `%u` prints none. -/
theorem recidStr_append_ne {recid : Int32} (h : recid < 0) (rest rest' : List UInt8) :
    recidStr recid.toInt64.toUInt64 ++ rest ≠ recidText recid ++ rest' := by
  rw [recidText, if_pos h, recidStr_toUInt64]
  obtain ⟨d, ds, hd⟩ := List.exists_cons_of_ne_nil (CString.decimal_ne_nil recid.toUInt32.toNat)
  intro heq
  rw [hd] at heq
  have hmem := CString.isDigit_of_mem_decimal (n := recid.toUInt32.toNat) (b := d) (by simp [hd])
  rw [(List.cons.inj heq).1] at hmem
  exact absurd hmem (by decide)

/-! ## The command that is run -/

/-- The buffer has the command with every occurrence of `%recid%`, from
left to right, replaced by the id in decimal, and the NUL. -/
def Expanded (action : NfyAction) (recid : Int32) : Prop :=
  ∃ ps, Pieces recidTag action.cmd.bytes ps ∧
    exeCmd action recid = (recidText recid).intercalate ps ++ [0]

theorem expanded_iff (action : NfyAction) (recid : Int32) :
    Expanded action recid ↔ (recidTag <:+: action.cmd.bytes → 0 ≤ recid) := by
  have hspec := pieces_spec recidTag_ne_nil action.cmd.bytes
  have hstored := expandRecId_eq action.cmd recid.toInt64.toUInt64
  constructor
  · rintro ⟨ps, hps, htext⟩ hocc
    by_contra hneg
    obtain rfl := hspec.unique hps
    rw [exeCmd, hstored] at htext
    have heq := List.append_cancel_right htext
    generalize pieces recidTag action.cmd.bytes = ps at hps heq
    generalize action.cmd.bytes = cmd at hps hocc
    cases hps with
    | last hnone => exact hnone hocc
    | cut _ hps =>
      rw [List.intercalate_cons_of_ne_nil hps.ne_nil, List.intercalate_cons_of_ne_nil hps.ne_nil,
        List.append_assoc, List.append_assoc] at heq
      exact recidStr_append_ne (by simpa using hneg) _ _ (List.append_cancel_left heq)
  · intro h
    refine ⟨_, hspec, ?_⟩
    rw [exeCmd, hstored]
    by_cases hocc : recidTag <:+: action.cmd.bytes
    · rw [recidStr_of_nonneg (h hocc)]
    · obtain ⟨p, hp⟩ := List.length_eq_one_iff.1 (hspec.length_eq_one.2 hocc)
      simp [hp]

/-- The command is expanded and fits just when no sign is lost and it is
short enough, with the seven bytes of each occurrence out and the digits
in. -/
theorem exeCmd_iff (action : NfyAction) (recid : Int32) :
    Expanded action recid ∧ (exeCmd action recid).length ≤ smallBufSize ↔
      (recidTag <:+: action.cmd.bytes → 0 ≤ recid) ∧
        action.cmd.bytes.length + occurrences recidTag action.cmd.bytes * (recidText recid).length <
          smallBufSize + occurrences recidTag action.cmd.bytes * 7 := by
  rw [expanded_iff]
  refine and_congr_right fun hsign => ?_
  obtain ⟨ps, hps, htext⟩ := (expanded_iff action recid).2 hsign
  have hlen := hps.length_replaced (recidText recid)
  rw [length_recidTag] at hlen
  rw [htext, occurrences, (pieces_spec recidTag_ne_nil action.cmd.bytes).unique hps,
    List.length_append, List.length_singleton]
  omega

theorem noNul_replicate (n : Nat) : (0 : UInt8) ∉ List.replicate n 0x61 := by
  intro h
  exact absurd (List.eq_of_mem_replicate h) (by decide)

def longAction : NfyAction where
  hdr := .ofBytes []
  quStr := ⟨[], CString.noNul_nil⟩
  cmd := ⟨List.replicate 1024 0x61, noNul_replicate 1024⟩
  name := ⟨[], CString.noNul_nil⟩
  anyStr := ⟨[], CString.noNul_nil⟩
  origin := ⟨0, 0⟩

/-- Its NUL is stored behind the buffer. -/
theorem longAction_overruns : ¬ (exeCmd longAction 1).length ≤ smallBufSize := by
  have hcmd : longAction.cmd.bytes = List.replicate 1024 0x61 := rfl
  have hnone : ¬ recidTag <:+: longAction.cmd.bytes := by
    intro h
    have hmem := h.subset (a := 0x25) (by simp [recidTag])
    rw [hcmd] at hmem
    exact absurd (List.eq_of_mem_replicate hmem) (by decide)
  have hspec := pieces_spec recidTag_ne_nil longAction.cmd.bytes
  obtain ⟨p, hp⟩ := List.length_eq_one_iff.1 (hspec.length_eq_one.2 hnone)
  have htext := hspec.intercalate_eq
  rw [hp, List.intercalate_singleton] at htext
  rw [exeCmd, expandRecId_eq, hp, List.intercalate_singleton, htext, hcmd, List.length_append,
    List.length_replicate, smallBufSize]
  decide

end Evlog.Evlactiond
