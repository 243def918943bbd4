/-
Evlog.Evlogd.HeaderTheorems — what becomes of a header on its way into the
log.

`sentHeader` is the header that a client sends: a native one as it stands,
and that of a 32-bit program with its fields widened (`RecHdr32.widen`).
evlogd reads it into a slot that it has used before, and `populateRecHdr`
does not copy the `log_flags` of a 32-bit program: the record gets those of
the slot. `logged_fields` says when a record is logged with the header that
was sent, and for this `log_flags` is all that the slot matters for.
-/
import Evlog.Evlogd.AdmissionTheorems
import Evlog.Evlogd.ReceiveTheorems

namespace Evlog.Evlogd.Socket

open Evlog.Lib Evlog.Posix

/-! ## The header sent -/

/-- `struct rec_hdr_32`, without `log_magic`. -/
structure RecHdr32 where
  logRecid : Int32
  logSize : UInt32
  logFormat : Int32
  logEventType : Int32
  logFacility : UInt32
  logSeverity : Int32
  logUid : UInt32
  logGid : UInt32
  logPid : Int32
  logPgrp : Int32
  logTimeSec : UInt32
  logTimeNsec : UInt32
  logFlags : UInt32
  logThread : UInt32
  logProcessor : Int32
  deriving DecidableEq, Repr

def RecHdr32.ofBytes (bs : List UInt8) : RecHdr32 :=
  let (recid, bs) := takeLE 4 bs
  let (size, bs) := takeLE 4 bs
  let (format, bs) := takeLE 4 bs
  let (eventType, bs) := takeLE 4 bs
  let (facility, bs) := takeLE 4 bs
  let (severity, bs) := takeLE 4 bs
  let (uid, bs) := takeLE 4 bs
  let (gid, bs) := takeLE 4 bs
  let (pid, bs) := takeLE 4 bs
  let (pgrp, bs) := takeLE 4 bs
  let (sec, bs) := takeLE 4 bs
  let (nsec, bs) := takeLE 4 bs
  let (flags, bs) := takeLE 4 bs
  let (thread, bs) := takeLE 4 bs
  let (processor, _) := takeLE 4 bs
  { logRecid := (UInt32.ofNat recid).toInt32
    logSize := .ofNat size
    logFormat := (UInt32.ofNat format).toInt32
    logEventType := (UInt32.ofNat eventType).toInt32
    logFacility := .ofNat facility
    logSeverity := (UInt32.ofNat severity).toInt32
    logUid := .ofNat uid
    logGid := .ofNat gid
    logPid := (UInt32.ofNat pid).toInt32
    logPgrp := (UInt32.ofNat pgrp).toInt32
    logTimeSec := .ofNat sec
    logTimeNsec := .ofNat nsec
    logFlags := .ofNat flags
    logThread := .ofNat thread
    logProcessor := (UInt32.ofNat processor).toInt32 }

/-- The same as a `struct posix_log_entry`. -/
def RecHdr32.widen (h : RecHdr32) : PosixLogEntry where
  logMagic := logrecArchI386
  logRecid := h.logRecid
  logSize := h.logSize.toUInt64
  logFormat := h.logFormat
  logEventType := h.logEventType
  logFacility := h.logFacility
  logSeverity := h.logSeverity
  logUid := h.logUid
  logGid := h.logGid
  logPid := h.logPid
  logPgrp := h.logPgrp
  logTimeSec := h.logTimeSec.toUInt64.toInt64
  logTimeNsec := h.logTimeNsec.toUInt64.toInt64
  logFlags := h.logFlags
  logThread := h.logThread.toUInt64
  logProcessor := h.logProcessor

def Sends32 (s : ByteStream) : Prop := UInt32.ofNat (leNat (s.read logMagicSize).1) = logrecArchI386

instance (s : ByteStream) : Decidable (Sends32 s) := inferInstanceAs (Decidable (_ = _))

def sentHeader (s : ByteStream) : PosixLogEntry :=
  let (arch, rest) := s.read logMagicSize
  if Sends32 s then (RecHdr32.ofBytes (rest.read (recHdr32Size - logMagicSize)).1).widen
  else PosixLogEntry.ofBytes (arch ++ (rest.read (recHdrSize - logMagicSize)).1)

theorem fromRecHdr32_eq (slot : PosixLogEntry) (bs : List UInt8) :
    fromRecHdr32 slot bs = { (RecHdr32.ofBytes bs).widen with
      logMagic := logrecArchX8632, logRecid := 0, logFlags := slot.logFlags } := by
  have hlt := takeLE_lt 4
  simp only [fromRecHdr32, RecHdr32.ofBytes, RecHdr32.widen, toUInt64_uint32_ofNat (hlt _)]

theorem setArch_eq (d : Daemon) (ci : ClientInfo) (rhdr : PosixLogEntry) :
    ∃ magic, setArch d ci rhdr = { rhdr with logMagic := magic } := by
  rw [setArch]
  split_ifs <;> exact ⟨_, rfl⟩

theorem entry_eq_sentHeader {stream : ByteStream} {slot e : PosixLogEntry}
    (h : (populateRecHdr stream slot).entry = some e) :
    e = { sentHeader stream with logMagic := e.logMagic, logRecid := e.logRecid, logFlags := e.logFlags } ∧
      (¬Sends32 stream → e.logFlags = (sentHeader stream).logFlags) ∧
      (Sends32 stream → e.logFlags = slot.logFlags) := by
  rw [populateRecHdr_some_iff] at h
  cases h with
  | native arch tail s₁ s₂ harch hlen hmagic htail hlen' =>
    have hnative : ¬Sends32 stream := by simpa [Sends32, harch] using hmagic
    simp [sentHeader, hnative, harch, htail]
  | i386 arch tail s₁ s₂ harch hlen hmagic htail hlen' =>
    have h32 : Sends32 stream := by simpa [Sends32, harch] using hmagic
    refine ⟨?_, fun hnative => absurd h32 hnative, fun _ => by rw [fromRecHdr32_eq]⟩
    rw [fromRecHdr32_eq]
    simp [sentHeader, h32, harch, htail]

/-! ## What is logged -/

/-- The header logged is the one sent, but for its id and its magic. -/
def KeptAsSent (le : LoggedEvent) : Prop :=
  le.logrec.1 = { sentHeader le.event.stream with
    logMagic := le.logrec.1.logMagic
    logRecid := le.logrec.1.logRecid }

/-- The name behind the `evl_facreg_rq`. -/
def requestedName (varbuf : List UInt8) : List UInt8 := (varbuf.drop 12).takeWhile (· ≠ 0)

/-- The kernel has not given up on the request, and the registry has the
facility, from before or since then, under the code the kernel uses. -/
def Granted (reg : FacReg) (varbuf : List UInt8) : Prop :=
  facregWord varbuf 2 ≠ frstKernelFailed ∧
    (reg.strtofac (requestedName varbuf) = some (facregWord varbuf 0) ∨
      reg.strtofac (requestedName varbuf) = none ∧ reg.added = true ∧
        reg.strtofacAfter (requestedName varbuf) = some (facregWord varbuf 0))

/-- What keeps a header as it was sent: a 32-bit one has the flags that the
slot has, and a request to register a facility comes with the severity of its
outcome. -/
structure HeaderOk (le : LoggedEvent) : Prop where
  flags : Sends32 le.event.stream → le.event.slot.logFlags = (sentHeader le.event.stream).logFlags
  severity : facRegRequest (sentHeader le.event.stream) = true →
    (Granted le.event.facReg le.varbuf → (sentHeader le.event.stream).logSeverity = logInfo) ∧
      (¬ Granted le.event.facReg le.varbuf → (sentHeader le.event.stream).logSeverity = logErr)

theorem handleFacRegEvent_severity (reg : FacReg) {rhdr : PosixLogEntry} (varbuf : List UInt8)
    (h : facRegRequest rhdr = true) :
    (Granted reg varbuf → (handleFacRegEvent reg rhdr varbuf).1 = { rhdr with logSeverity := logInfo }) ∧
      (¬ Granted reg varbuf → (handleFacRegEvent reg rhdr varbuf).1 = { rhdr with logSeverity := logErr }) := by
  rw [handleFacRegEvent, if_pos h, Granted, requestedName]
  dsimp only
  generalize (varbuf.drop 12).takeWhile (· ≠ 0) = name
  by_cases hkernel : facregWord varbuf 2 = frstKernelFailed
  · simp [hkernel]
  · rw [if_neg hkernel]
    cases hbefore : reg.strtofac name with
    | some code =>
      by_cases hcode : code = facregWord varbuf 0
      · simp [hkernel, hcode]
      · simp [hcode]
    | none =>
      cases hadded : reg.added with
      | false => simp
      | true =>
        cases hafter : reg.strtofacAfter name with
        | some code =>
          by_cases hcode : code = facregWord varbuf 0
          · simp [hkernel, hcode]
          · simp [hcode]
        | none => simp

namespace Parent

variable {lim : Limits} {s : Parent} {cl : Client} {e : ClientEvent} {le : LoggedEvent}

theorem logrec_of_logTarget {rhdr : PosixLogEntry} {varbuf : List UInt8} {linfo : LogId}
    {logrec : PosixLogEntry × List UInt8} (h : s.logTarget e rhdr varbuf = some (linfo, logrec)) :
    logrec = handleFacRegEvent e.facReg rhdr varbuf := by
  unfold logTarget at h
  split at h
  · cases h
  · dsimp only at h
    split at h
    · exact (Prod.mk.inj (Option.some.inj h)).2.symm
    · cases h

theorem keptAsSent_iff_of_mem_logEvent (h : le ∈ s.logEvent cl e) : KeptAsSent le ↔ HeaderOk le := by
  obtain ⟨rhdr, varbuf, linfo, logrec, hused, htarget, rfl⟩ := mem_logEvent h
  obtain ⟨hdr, hentry, -, rfl⟩ := entry_of_used hused
  obtain ⟨hfields, hnative, h32⟩ := entry_eq_sentHeader hentry
  obtain ⟨magic, hmagic⟩ := setArch_eq (s.daemon e) ⟨cl.pid, cl.uid⟩ hdr
  have hlogrec := logrec_of_logTarget htarget
  rw [hmagic] at hlogrec
  subst hlogrec
  -- the header that was received, of which the flags are left open
  have hreceived : { hdr with logMagic := magic } =
      { sentHeader e.stream with logMagic := magic, logRecid := hdr.logRecid, logFlags := hdr.logFlags } := by
    rw [hfields]
  have hflags : hdr.logFlags = (sentHeader e.stream).logFlags ↔
      (Sends32 e.stream → e.slot.logFlags = (sentHeader e.stream).logFlags) := by
    by_cases hs : Sends32 e.stream
    · rw [h32 hs]
      exact ⟨fun heq _ => heq, fun himp => himp hs⟩
    · exact ⟨fun _ hs' => absurd hs' hs, fun _ => hnative hs⟩
  have hrequest : hdr.logFlags = (sentHeader e.stream).logFlags →
      facRegRequest { hdr with logMagic := magic } = facRegRequest (sentHeader e.stream) := by
    intro heq
    rw [hreceived, heq]
    rfl
  constructor
  · intro hkept
    have hkept' : (handleFacRegEvent e.facReg { hdr with logMagic := magic } varbuf).1 =
        { sentHeader e.stream with
          logMagic := (handleFacRegEvent e.facReg { hdr with logMagic := magic } varbuf).1.logMagic
          logRecid := (handleFacRegEvent e.facReg { hdr with logMagic := magic } varbuf).1.logRecid } := hkept
    obtain ⟨⟨severity, hseverity⟩, -⟩ := handleFacRegEvent_eq e.facReg { hdr with logMagic := magic } varbuf
    have heq : hdr.logFlags = (sentHeader e.stream).logFlags := by
      have hf := congrArg PosixLogEntry.logFlags hkept'
      rw [hseverity] at hf
      exact hf
    refine ⟨hflags.1 heq, fun hreq => ?_⟩
    obtain ⟨hgranted, hrefused⟩ :=
      handleFacRegEvent_severity e.facReg varbuf ((hrequest heq).trans hreq)
    have hs := congrArg PosixLogEntry.logSeverity hkept'
    constructor
    · intro hg
      rw [hgranted hg] at hs
      exact hs.symm
    · intro hg
      rw [hrefused hg] at hs
      exact hs.symm
  · rintro ⟨hf, hs⟩
    have heq := hflags.2 hf
    have hsent : { hdr with logMagic := magic } =
        { sentHeader e.stream with logMagic := magic, logRecid := hdr.logRecid } := by
      rw [hreceived, heq]
    have hgoal : ∃ severity, (handleFacRegEvent e.facReg { hdr with logMagic := magic } varbuf).1 =
        { hdr with logMagic := magic, logSeverity := severity } ∧
          severity = (sentHeader e.stream).logSeverity := by
      cases hreq : facRegRequest { hdr with logMagic := magic } with
      | false =>
        refine ⟨hdr.logSeverity, ?_, ?_⟩
        · rw [(handleFacRegEvent_eq ..).2 hreq]
        · rw [hfields]
      | true =>
        obtain ⟨hgranted, hrefused⟩ := handleFacRegEvent_severity e.facReg varbuf hreq
        obtain ⟨hinfo, herr⟩ := hs ((hrequest heq).symm.trans hreq)
        by_cases hg : Granted e.facReg varbuf
        · exact ⟨logInfo, hgranted hg, (hinfo hg).symm⟩
        · exact ⟨logErr, hrefused hg, (herr hg).symm⟩
    obtain ⟨severity, hlogged, rfl⟩ := hgoal
    show (handleFacRegEvent e.facReg { hdr with logMagic := magic } varbuf).1 = _
    rw [hlogged]
    exact congrArg (fun r : PosixLogEntry => { r with logSeverity := (sentHeader e.stream).logSeverity }) hsent

/-- A record is logged with the header it was sent with exactly when nothing
in the slot and nothing in the registry says otherwise. -/
theorem logged_fields (lim : Limits) (su : Setup) (as : List Action) :
    ∀ le ∈ (run (step lim) (start su) as).logged, KeptAsSent le ↔ HeaderOk le :=
  forall_logged (fun _ _ _ _ _ _ _ _ _ hle => keptAsSent_iff_of_mem_logEvent hle) lim su as
    (meets_of_forall_mem fun _ _ _ => trivial)

def publicEvent (slot : PosixLogEntry) (stream : ByteStream) : ClientEvent where
  stream
  slot
  kernelFailed := false
  defaultPosixLog := true
  disQuery := none
  facilities := fun _ => some ⟨false, false, none⟩
  facReg := ⟨fun _ => none, false, fun _ => none⟩
  dropDup := fun _ _ => false

/-- An event without data of the user 1000, with flags 1. -/
def flagged : PosixLogEntry :=
  { PosixLogEntry.ofBytes [] with logMagic := logMagicArch, logUid := 1000, logPid := 200, logFlags := 1 }

def flaggedStream : ByteStream :=
  [List.replicate 32 0 ++ [0xe8, 3, 0, 0, 0, 0, 0, 0, 200, 0, 0, 0] ++ List.replicate 20 0 ++ [1] ++
    List.replicate 23 0]

/-- One of a 32-bit program of the same user, with flags 0. -/
def stream32 : ByteStream :=
  [[1, 0, 0, 0] ++ List.replicate 24 0 ++ [0xe8, 3, 0, 0, 0, 0, 0, 0, 200, 0, 0, 0] ++
    List.replicate 24 0]

/-- The two come one after the other and are put into the same slot. -/
def reuse : List Action :=
  [.accept 6 ⟨200, 1000⟩ false, .event 0 (publicEvent (.ofBytes []) flaggedStream),
    .event 0 (publicEvent flagged stream32)]

def reusedSlot : Parent := run (step ⟨499, 10⟩) (start boot) reuse

set_option maxRecDepth 20000

theorem flags_reused :
    reusedSlot.logged.map (fun le => ((sentHeader le.event.stream).logFlags, le.logrec.1.logFlags)) =
      [(1, 1), (0, 1)] := by
  decide

theorem logged_fields_reused : ∃ le ∈ reusedSlot.logged, KeptAsSent le ↔ HeaderOk le := by
  have hlogged : reusedSlot.logged.length = 2 := by
    simpa using congrArg List.length flags_reused
  have hall : ∀ le ∈ reusedSlot.logged, KeptAsSent le ↔ HeaderOk le := logged_fields ⟨499, 10⟩ boot reuse
  exact ⟨reusedSlot.logged[1], List.getElem_mem _, hall _ (List.getElem_mem _)⟩

/-- The second gets the flags of the first. -/
theorem flags_of_slot : ¬ ∀ (lim : Limits) (su : Setup) (as : List Action),
    ∀ le ∈ (run (step lim) (start su) as).logged, KeptAsSent le := by
  intro h
  have hlogged : reusedSlot.logged.length = 2 := by
    simpa using congrArg List.length flags_reused
  have hkept : KeptAsSent reusedSlot.logged[1] := h ⟨499, 10⟩ boot reuse _ (List.getElem_mem _)
  have hflags := congrArg (fun l => l[1]?) flags_reused
  simp only [List.getElem?_map, List.getElem?_eq_getElem (show 1 < reusedSlot.logged.length by omega),
    Option.map_some] at hflags
  obtain ⟨hsent, hgot⟩ := Prod.mk.inj (Option.some.inj hflags)
  rw [congrArg PosixLogEntry.logFlags hkept, hsent] at hgot
  exact absurd hgot (by decide)

end Parent

end Evlog.Evlogd.Socket
