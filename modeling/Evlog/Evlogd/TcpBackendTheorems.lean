/-
Evlog.Evlogd.TcpBackendTheorems — what becomes of the events handed to the
TCP plug-in.

The child says `o` only while the remote host is connected, and then waits
for the record before it does anything else (`Talk`). So the branch of
`writeToRmtHost` that puts a record into the buffer is never taken, the
buffer is never allocated, and an event is lost whenever the child says `b`
or a write fails. `accounted_iff` says that these are the only losses.
-/
import Evlog.Evlogd.TcpBackend

namespace Evlog.Evlogd.TcpRmtlog

open Evlog.Lib Evlog.Posix Evlog.Evlogd.Socket

theorem Event.take_bytes (e : Event) (rest : List UInt8) :
    (e.bytes ++ rest).take recHdrSize = e.rhdr.toBytes := by
  rw [Event.bytes, List.append_assoc, List.take_left' e.rhdr.toBytes_length]

theorem Event.bytes_append_ne_nil (e : Event) (rest : List UInt8) : e.bytes ++ rest ≠ [] := by
  intro hempty
  have hlen := congrArg List.length hempty
  simp [Event.bytes, recHdrSize] at hlen

namespace Backend

/-! ## What is asked of the plug-in -/

/-- `buf` is NULL, or it is a live block and the watermark lies in it. -/
def BufferOk (s : Backend) : Prop :=
  match s.tcpRmtlogBuffer.buf with
  | none => True
  | some b => b.live = true ∧ s.tcpRmtlogBuffer.watermark ≤ b.size ∧
      s.tcpRmtlogBuffer.watermark ≤ s.tcpRmtlogBufsize

def recordsIn : Nat → List UInt8 → List Record
  | 0, _ => []
  | fuel + 1, bs =>
    if bs = [] then []
    else
      let rechdr := PosixLogEntry.ofBytes (bs.take recHdrSize)
      (rechdr, (bs.drop recHdrSize).take rechdr.logSize.toNat) ::
        recordsIn fuel (bs.drop (rechdr.logSize.toNat + recHdrSize))

def held (s : Backend) : List Record :=
  match s.tcpRmtlogBuffer.buf with
  | none => []
  | some b =>
    if b.live then
      recordsIn s.tcpRmtlogBuffer.watermark (b.bytes.take s.tcpRmtlogBuffer.watermark)
    else []

def remoteEvents (s : Backend) : List Record :=
  s.remote.filterMap fun
    | .event r => some r
    | .dropReport _ => none

/-- The number of events that the remote host has been told were dropped. -/
def reported (s : Backend) : Nat :=
  (s.remote.map fun
    | .event _ => 0
    | .dropReport droppedEvt => droppedEvt).sum

/-- The events that are on their way: one that the child is going to read,
and one of which `tcp_rmtlog_be_func` has not been told that the connection
is broken. -/
def inFlight (s : Backend) : List Record :=
  (s.sending.toList ++ if s.toParent = [brokenByte] then [] else s.waiting.toList).map Event.record

inductive Fate where
  | inFlight
  | written
  | held
  | dropped
  deriving DecidableEq

def withFate (fate : Fate) (fates : List Fate) (records : List Record) : List Record :=
  ((fates.zip records).filter fun p => p.1 = fate).map Prod.snd

/-- Every event is on its way, or has been written to the remote host once
and in order, or is held for the next drain, or has been counted. -/
def Accounted (s : Backend) : Prop :=
  ∃ fates : List Fate, fates.length = s.handed.length ∧
    withFate .inFlight fates (s.handed.map Event.record) = s.inFlight ∧
    withFate .written fates (s.handed.map Event.record) = s.remoteEvents ∧
    withFate .held fates (s.handed.map Event.record) = s.held ∧
    fates.count .dropped = s.tcpRmtlogBuffer.droppedEvt + s.reported

/-! ## What holds of every state -/

/-- Where the two processes can be together, and what is on its way then. -/
inductive Talk (s : Backend) : Prop where
  | quiet : s.waiting = none → s.pc = .select → s.toChild = [] → s.toParent = [] →
      s.sending = none → Talk s
  | asked (e : Event) : s.waiting = some e → s.pc = .select → s.toChild = [askByte] →
      s.toParent = [] → s.sending = none → Talk s
  | granted (e : Event) : s.waiting = some e → s.pc = .record → s.toChild = [] →
      s.toParent = [okByte] → s.sending = none → Talk s
  | refused (e : Event) : s.waiting = some e → s.pc = .select → s.toChild = [] →
      s.toParent = [brokenByte] → s.sending = none → Talk s
  | sent (e : Event) : s.waiting = none → s.pc = .record → s.toChild = e.bytes →
      s.toParent = [] → s.sending = some e → Talk s
  | askedAgain (e e' : Event) : s.waiting = some e' → s.pc = .record →
      s.toChild = e.bytes ++ [askByte] → s.toParent = [] → s.sending = some e → Talk s

structure Inv (s : Backend) : Prop where
  talk : s.Talk
  connected : s.pc = .record → s.rmtSd ≠ -1
  unused : s.tcpRmtlogBuffer = ⟨none, 0, 0⟩
  remote : ∀ r ∈ s.remote, ∃ e, r = .event e
  order : (s.remoteEvents ++ s.inFlight).Sublist (s.handed.map Event.record)

variable {s : Backend}

theorem bufferOk (h : s.Inv) : s.BufferOk := by
  rw [BufferOk, h.unused]
  trivial

theorem withFate_length (fates : List Fate) (records : List Record) (hlen : fates.length = records.length) :
    (withFate .inFlight fates records).length + (withFate .written fates records).length +
      (withFate .held fates records).length + fates.count .dropped = records.length := by
  induction fates generalizing records with
  | nil => simpa [withFate] using hlen
  | cons fate fates ih =>
    cases records with
    | nil => simp at hlen
    | cons r records =>
      have ih := ih records (by simpa using hlen)
      simp only [withFate, List.length_map] at ih ⊢
      cases fate <;> simp <;> omega

theorem withFate_append {fates : List Fate} {records : List Record}
    (hlen : fates.length = records.length) (fate : Fate) (fates' : List Fate) (records' : List Record) :
    withFate fate (fates ++ fates') (records ++ records') =
      withFate fate fates records ++ withFate fate fates' records' := by
  simp [withFate, List.zip_append hlen]

theorem withFate_replicate (fate fate' : Fate) (records : List Record) :
    withFate fate (List.replicate records.length fate') records = if fate' = fate then records else [] := by
  induction records with
  | nil => simp [withFate]
  | cons r records ih =>
    simp only [withFate] at ih ⊢
    by_cases hfate : fate' = fate <;> simpa [List.replicate_succ, hfate] using ih

/-- Where there is no buffer, an event is accounted for when it has been
written or is on its way. -/
theorem accounted_iff_eq (h : s.Inv) :
    s.Accounted ↔ s.remoteEvents ++ s.inFlight = s.handed.map Event.record := by
  have hheld : s.held = [] := by rw [held, h.unused]
  have hdropped : s.tcpRmtlogBuffer.droppedEvt = 0 := by rw [h.unused]
  have hreported : s.reported = 0 := by
    refine List.sum_eq_zero fun n hn => ?_
    obtain ⟨r, hr, rfl⟩ := List.mem_map.1 hn
    obtain ⟨e, rfl⟩ := h.remote r hr
    rfl
  rw [Accounted, hheld, hdropped, hreported]
  constructor
  · rintro ⟨fates, hlen, hinFlight, hwritten, hheld', hcount⟩
    refine h.order.eq_of_length ?_
    have := withFate_length fates (s.handed.map Event.record) (by simpa using hlen)
    rw [hinFlight, hwritten, hheld', hcount] at this
    simp only [List.length_append, List.length_nil] at this ⊢
    omega
  · intro heq
    have hlen := congrArg List.length heq
    rw [List.length_append, List.length_map] at hlen
    refine ⟨List.replicate s.remoteEvents.length .written ++
      List.replicate s.inFlight.length .inFlight, ?_, ?_, ?_, ?_, ?_⟩
    · simpa using hlen
    · rw [← heq, withFate_append (by simp), withFate_replicate, withFate_replicate]
      simp
    · rw [← heq, withFate_append (by simp), withFate_replicate, withFate_replicate]
      simp
    · rw [← heq, withFate_append (by simp), withFate_replicate, withFate_replicate]
      simp
    · simp [List.count_replicate]

/-! ## The steps -/

/-- The remote host is connected when the child is asked, and takes what is
written to it. -/
def Delivers (s : Backend) : Action → Prop
  | .check => s.pc = .select → s.toChild.head? = some askByte → s.rmtSd ≠ -1
  | .transfer _ ws => s.pc = .record ∧ s.toChild ≠ [] →
      (rmtWrites (PosixLogEntry.ofBytes (s.toChild.take recHdrSize)).logSize ws).1 = true
  | _ => True

/-- What a step comes to: the state is as it should be, and if every event
was accounted for, it is so still exactly if the step delivers. -/
def Decides (s s' : Backend) (delivers : Prop) : Prop :=
  s'.Inv ∧ (s.remoteEvents ++ s.inFlight = s.handed.map Event.record →
    (s'.remoteEvents ++ s'.inFlight = s'.handed.map Event.record ↔ delivers))

theorem Decides.refl (h : s.Inv) {delivers : Prop} (hd : delivers) : Decides s s delivers :=
  ⟨h, fun hall => iff_of_true hall hd⟩

variable {s' : Backend}

theorem Talk.congr (h : s.Talk) (hwaiting : s'.waiting = s.waiting) (hpc : s'.pc = s.pc)
    (htoChild : s'.toChild = s.toChild) (htoParent : s'.toParent = s.toParent)
    (hsending : s'.sending = s.sending) : s'.Talk := by
  cases h with
  | quiet h₁ h₂ h₃ h₄ h₅ =>
    exact .quiet (hwaiting.trans h₁) (hpc.trans h₂) (htoChild.trans h₃) (htoParent.trans h₄)
      (hsending.trans h₅)
  | asked e h₁ h₂ h₃ h₄ h₅ =>
    exact .asked e (hwaiting.trans h₁) (hpc.trans h₂) (htoChild.trans h₃) (htoParent.trans h₄)
      (hsending.trans h₅)
  | granted e h₁ h₂ h₃ h₄ h₅ =>
    exact .granted e (hwaiting.trans h₁) (hpc.trans h₂) (htoChild.trans h₃) (htoParent.trans h₄)
      (hsending.trans h₅)
  | refused e h₁ h₂ h₃ h₄ h₅ =>
    exact .refused e (hwaiting.trans h₁) (hpc.trans h₂) (htoChild.trans h₃) (htoParent.trans h₄)
      (hsending.trans h₅)
  | sent e h₁ h₂ h₃ h₄ h₅ =>
    exact .sent e (hwaiting.trans h₁) (hpc.trans h₂) (htoChild.trans h₃) (htoParent.trans h₄)
      (hsending.trans h₅)
  | askedAgain e e' h₁ h₂ h₃ h₄ h₅ =>
    exact .askedAgain e e' (hwaiting.trans h₁) (hpc.trans h₂) (htoChild.trans h₃)
      (htoParent.trans h₄) (hsending.trans h₅)

/-- The child's connection changes while the child is in its loop. -/
theorem inv_connection (h : s.Inv) (hpc : s.pc = .select) (rmtSd : Int) (bufsize : Nat) :
    ({ s with rmtSd, tcpRmtlogBufsize := bufsize } : Backend).Inv where
  talk := h.talk.congr rfl rfl rfl rfl rfl
  connected hrecord := absurd (hpc.symm.trans hrecord) nofun
  unused := h.unused
  remote := h.remote
  order := h.order

theorem decides_hand (h : s.Inv) (e : Event) : Decides s (step s (.hand e)) True := by
  cases hwaiting : s.waiting with
  | some e' =>
    simp only [step, hwaiting]
    exact .refl h trivial
  | none =>
    have hempty : s.toParent = [] := by
      cases h.talk <;> simp_all
    have htalk : (step s (.hand e)).Talk := by
      simp only [step, hwaiting]
      cases h.talk with
      | quiet h₁ h₂ h₃ h₄ h₅ => exact .asked e rfl h₂ (by simp [h₃]) h₄ h₅
      | sent e₀ h₁ h₂ h₃ h₄ h₅ => exact .askedAgain e₀ e rfl h₂ (by simp [h₃]) h₄ h₅
      | asked e₀ h₁ => simp [hwaiting] at h₁
      | granted e₀ h₁ => simp [hwaiting] at h₁
      | refused e₀ h₁ => simp [hwaiting] at h₁
      | askedAgain e₀ e₁ h₁ => simp [hwaiting] at h₁
    have hinFlight : (step s (.hand e)).inFlight = s.inFlight ++ [e.record] := by
      simp [step, hwaiting, inFlight, hempty]
    have hremote : (step s (.hand e)).remoteEvents = s.remoteEvents := by
      simp only [step, hwaiting]
      rfl
    have hhanded : (step s (.hand e)).handed = s.handed ++ [e] := by
      simp only [step, hwaiting]
    refine ⟨⟨htalk, ?_, ?_, ?_, ?_⟩, fun hall => iff_of_true ?_ trivial⟩
    · simp only [step, hwaiting]
      exact h.connected
    · simp only [step, hwaiting]
      exact h.unused
    · simp only [step, hwaiting]
      exact h.remote
    · rw [hremote, hinFlight, hhanded, List.map_append, ← List.append_assoc]
      exact h.order.append (List.Sublist.refl _)
    · rw [hremote, hinFlight, hhanded, List.map_append, ← List.append_assoc, hall]
      rfl

/-- What is written and on its way is the same as before. -/
theorem Decides.same {delivers : Prop} (h : s.Inv) (htalk : s'.Talk)
    (hconnected : s'.pc = .record → s'.rmtSd ≠ -1)
    (hbuffer : s'.tcpRmtlogBuffer = s.tcpRmtlogBuffer)
    (hremote : ∀ r ∈ s'.remote, ∃ e, r = .event e) (hhanded : s'.handed = s.handed)
    (hsame : s'.remoteEvents ++ s'.inFlight = s.remoteEvents ++ s.inFlight) (hd : delivers) :
    Decides s s' delivers := by
  refine ⟨⟨htalk, hconnected, hbuffer.trans h.unused, hremote, ?_⟩, fun hall => iff_of_true ?_ hd⟩
  · rw [hsame, hhanded]
    exact h.order
  · rw [hsame, hhanded, hall]

theorem Decides.lost {delivers : Prop} {r : Record} (h : s.Inv) (htalk : s'.Talk)
    (hconnected : s'.pc = .record → s'.rmtSd ≠ -1)
    (hbuffer : s'.tcpRmtlogBuffer = s.tcpRmtlogBuffer) (hremote : s'.remote = s.remote)
    (hhanded : s'.handed = s.handed) (hlost : s.inFlight = r :: s'.inFlight) (hd : ¬delivers) :
    Decides s s' delivers := by
  have hevents : s'.remoteEvents = s.remoteEvents := by rw [remoteEvents, hremote, remoteEvents]
  refine ⟨⟨htalk, hconnected, hbuffer.trans h.unused, ?_, ?_⟩, fun hall => iff_of_false ?_ hd⟩
  · rw [hremote]
    exact h.remote
  · have hrest : (s.remoteEvents ++ s'.inFlight).Sublist (s.remoteEvents ++ s.inFlight) := by
      rw [hlost]
      exact (List.Sublist.refl _).append (List.sublist_cons_self _ _)
    rw [hevents, hhanded]
    exact hrest.trans h.order
  · rw [hevents, hhanded, ← hall, hlost]
    intro hsame
    have := congrArg List.length hsame
    simp at this

theorem decides_reply (h : s.Inv) : Decides s (step s .reply) True := by
  cases h.talk with
  | quiet h₁ h₂ h₃ h₄ h₅ =>
    simp only [step, h₁]
    exact .refl h trivial
  | asked e h₁ h₂ h₃ h₄ h₅ =>
    simp only [step, h₁, h₄]
    exact .refl h trivial
  | granted e h₁ h₂ h₃ h₄ h₅ =>
    simp only [step, h₁, h₄, if_true]
    refine .same h (.sent e rfl h₂ (by simp [h₃]) rfl rfl) h.connected rfl h.remote rfl ?_ trivial
    simp [inFlight, h₁, h₄, h₅, okByte, brokenByte, remoteEvents]
  | refused e h₁ h₂ h₃ h₄ h₅ =>
    simp only [step, h₁, h₄]
    rw [if_neg (by decide)]
    refine .same h (.quiet rfl h₂ h₃ rfl h₅) h.connected rfl h.remote rfl ?_ trivial
    simp [inFlight, h₄, h₅, remoteEvents]
  | sent e h₁ h₂ h₃ h₄ h₅ =>
    simp only [step, h₁]
    exact .refl h trivial
  | askedAgain e e' h₁ h₂ h₃ h₄ h₅ =>
    simp only [step, h₁, h₄]
    exact .refl h trivial

theorem decides_check (h : s.Inv) : Decides s (step s .check) (s.Delivers .check) := by
  have hidle : s.toChild = [] → Decides s (step s .check) (s.Delivers .check) := by
    intro hempty
    have hstep : step s .check = s := by
      simp only [step]
      split
      · rename_i c rest _ hchild
        simp [hempty] at hchild
      · rfl
    rw [hstep]
    exact .refl h fun _ hask => by simp [hempty] at hask
  have hbusy : s.pc = .record → Decides s (step s .check) (s.Delivers .check) := by
    intro hrecord
    have hstep : step s .check = s := by
      simp only [step, hrecord]
    rw [hstep]
    exact .refl h fun hselect => by simp [hrecord] at hselect
  cases h.talk with
  | quiet h₁ h₂ h₃ h₄ h₅ => exact hidle h₃
  | asked e h₁ h₂ h₃ h₄ h₅ =>
    have hdelivers : s.Delivers .check ↔ s.rmtSd ≠ -1 := by simp [Delivers, h₂, h₃]
    rw [hdelivers]
    simp only [step, h₂, h₃, checkRmtSocket]
    rw [if_neg (by simp)]
    split
    · rename_i hdown
      have hlost : s.inFlight = [e.record] := by
        simp [inFlight, h₁, h₄, h₅]
      refine .lost (r := e.record) h (.refused e h₁ rfl rfl (by simp [h₄]) h₅) nofun rfl rfl rfl ?_
        (not_not.2 hdown)
      rw [hlost]
      simp [inFlight, h₄, h₅]
    · rename_i hup
      refine .same h (.granted e h₁ rfl rfl (by simp [h₄]) h₅) (fun _ => hup) rfl h.remote rfl ?_ hup
      simp [inFlight, h₄, h₅, okByte, brokenByte, remoteEvents]
  | granted e h₁ h₂ h₃ h₄ h₅ => exact hidle h₃
  | refused e h₁ h₂ h₃ h₄ h₅ => exact hidle h₃
  | sent e h₁ h₂ h₃ h₄ h₅ => exact hbusy h₂
  | askedAgain e e' h₁ h₂ h₃ h₄ h₅ => exact hbusy h₂

/-- What `writeToRmtHost` does when a whole record has come and the remote
host is connected. -/
theorem writeToRmtHost_eq {e : Event} {rest : List UInt8} (hchild : s.toChild = e.bytes ++ rest)
    (hup : s.rmtSd ≠ -1) (mallocOk : Bool) (ws : List Bool) :
    s.writeToRmtHost mallocOk ws =
      (({ s with toChild := rest, pc := .select, sending := none } : Backend).writeRecToRmtHost
        (.event e.record) e.rhdr.logSize ws).1 := by
  have htake : s.toChild.take recHdrSize = e.rhdr.toBytes := by
    rw [hchild, e.take_bytes]
  have hdrop : s.toChild.drop recHdrSize = e.varbuf ++ rest := by
    rw [hchild, Event.bytes, List.append_assoc, List.drop_left' e.rhdr.toBytes_length]
  simp only [writeToRmtHost, htake, hdrop, PosixLogEntry.toBytes_length, ne_eq, not_true, if_false,
    PosixLogEntry.ofBytes_toBytes, List.take_left' e.whole, List.drop_left' e.whole, e.whole, hup]
  rfl

theorem decides_transfer (h : s.Inv) (mallocOk : Bool) (ws : List Bool) :
    Decides s (step s (.transfer mallocOk ws)) (s.Delivers (.transfer mallocOk ws)) := by
  have hidle : ¬(s.pc = .record ∧ s.toChild ≠ []) →
      Decides s (step s (.transfer mallocOk ws)) (s.Delivers (.transfer mallocOk ws)) := by
    intro hno
    simp only [step, if_neg hno]
    exact .refl h fun hready => absurd hready hno
  have htransfer : ∀ (e : Event) (rest : List UInt8), s.pc = .record → s.toChild = e.bytes ++ rest →
      s.toParent = [] → s.sending = some e →
      ({ s with toChild := rest, pc := .select, sending := none } : Backend).Talk →
      Decides s (step s (.transfer mallocOk ws)) (s.Delivers (.transfer mallocOk ws)) := by
    intro e rest hpc hchild hparent hsending htalk
    have hready : s.pc = .record ∧ s.toChild ≠ [] := ⟨hpc, hchild ▸ e.bytes_append_ne_nil rest⟩
    have hdelivers : s.Delivers (.transfer mallocOk ws) ↔ (rmtWrites e.rhdr.logSize ws).1 = true := by
      rw [Delivers, forall_prop_of_true hready, hchild, e.take_bytes, PosixLogEntry.ofBytes_toBytes]
    rw [hdelivers]
    simp only [step, if_pos hready, writeToRmtHost_eq hchild (h.connected hpc), writeRecToRmtHost]
    split
    · rename_i hwritten
      refine .same h (htalk.congr rfl rfl rfl rfl rfl) nofun rfl ?_ rfl ?_ hwritten
      · intro r hr
        rcases List.mem_append.1 hr with hr | hr
        · exact h.remote r hr
        · exact ⟨_, List.mem_singleton.1 hr⟩
      · simp [remoteEvents, inFlight, hparent, hsending]
    · rename_i hfailed
      refine .lost (r := e.record) h (htalk.congr rfl rfl rfl rfl rfl) nofun rfl rfl rfl ?_ hfailed
      simp [inFlight, hparent, hsending]
  cases h.talk with
  | quiet h₁ h₂ h₃ h₄ h₅ => exact hidle (by simp [h₂])
  | asked e h₁ h₂ h₃ h₄ h₅ => exact hidle (by simp [h₂])
  | granted e h₁ h₂ h₃ h₄ h₅ => exact hidle (by simp [h₃])
  | refused e h₁ h₂ h₃ h₄ h₅ => exact hidle (by simp [h₂])
  | sent e h₁ h₂ h₃ h₄ h₅ =>
    exact htransfer e [] h₂ (by simp [h₃]) h₄ h₅ (.quiet h₁ rfl rfl h₄ rfl)
  | askedAgain e e' h₁ h₂ h₃ h₄ h₅ =>
    exact htransfer e [askByte] h₂ h₃ h₄ h₅ (.asked e' h₁ rfl rfl h₄ rfl)

/-- Every step keeps the invariant, and loses an event exactly if it does not
deliver. -/
theorem decides_step (h : s.Inv) (a : Action) : Decides s (step s a) (s.Delivers a) := by
  cases a with
  | hand e => exact decides_hand h e
  | reply => exact decides_reply h
  | rmtGone =>
    simp only [step]
    split
    · rename_i hgone
      exact ⟨inv_connection h hgone.1 (-1) s.tcpRmtlogBufsize, fun hall => iff_of_true hall trivial⟩
    · exact .refl h trivial
  | reconnect bufsize sd ws =>
    simp only [step]
    split
    · rename_i hdown
      unfold reconnect
      cases sd with
      | none => exact ⟨inv_connection h hdown.1 s.rmtSd _, fun hall => iff_of_true hall trivial⟩
      | some sd =>
        simp only [h.unused]
        refine ⟨?_, fun hall => iff_of_true hall trivial⟩
        have := inv_connection h hdown.1 sd (bufsize.getD s.tcpRmtlogBufsize)
        rwa [h.unused] at this
    · exact .refl h trivial
  | check => exact decides_check h
  | transfer mallocOk ws => exact decides_transfer h mallocOk ws

theorem inv_start (rmtSd : Int) (bufsize : Nat) : (start rmtSd bufsize).Inv where
  talk := .quiet rfl rfl rfl rfl rfl
  connected := nofun
  unused := rfl
  remote := nofun
  order := List.Sublist.refl _

/-- In every run the buffer is safe, and no event is lost exactly if every
step delivers. -/
theorem accounted_iff (rmtSd : Int) (bufsize : Nat) (as : List Action) :
    Always step BufferOk (start rmtSd bufsize) as ∧
      (Always step Accounted (start rmtSd bufsize) as ↔
        Meets step Delivers (start rmtSd bufsize) as) := by
  have hstart := inv_start rmtSd bufsize
  have hinv : ∀ s a, Inv s → Inv (step s a) := fun s a h => (decides_step h a).1
  refine ⟨@always_of_invariant _ _ step BufferOk Inv hinv (fun s h => bufferOk h) _ hstart as, ?_⟩
  refine @always_iff_meets _ _ step Accounted Inv Delivers (fun s a h _ _ => hinv s a h)
    (fun s a h hall => ?_) _ hstart ((accounted_iff_eq hstart).2 rfl) as
  rw [accounted_iff_eq (hinv s a h)]
  exact (decides_step h a).2 ((accounted_iff_eq h).1 hall)

def emptyEvent : Event where
  rhdr := .ofBytes []
  varbuf := []
  whole := List.length_nil
  fits := Nat.zero_le _

/-- An event comes while the remote host is not connected. -/
def lost : Backend := run step (start (-1) (128 * 1024)) [.hand emptyEvent, .check, .reply]

theorem event_lost : lost.handed.length = 1 ∧ lost.remote.length = 0 ∧ lost.inFlight.length = 0 ∧
      lost.tcpRmtlogBuffer = ⟨none, 0, 0⟩ ∧ ¬lost.Accounted := by
  have hinv : lost.Inv := run_invariant Inv (fun s a h => (decides_step h a).1) (inv_start _ _) _
  have hlost : lost.handed.length = 1 ∧ lost.remote.length = 0 ∧ lost.inFlight.length = 0 ∧
      lost.remoteEvents.length = 0 := by decide
  generalize lost = s at hinv hlost ⊢
  obtain ⟨hhanded, hremote, hinFlight, hevents⟩ := hlost
  refine ⟨hhanded, hremote, hinFlight, hinv.unused, fun hall => ?_⟩
  have hlen := congrArg List.length ((accounted_iff_eq hinv).1 hall)
  rw [List.length_append, List.length_map] at hlen
  omega

end Backend

end Evlog.Evlogd.TcpRmtlog
