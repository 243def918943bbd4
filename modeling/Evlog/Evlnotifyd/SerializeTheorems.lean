/-
Evlog.Evlnotifyd.SerializeTheorems — requests survive a restart.

What is written for a list is one record after the other (`fileOf`), and a
load makes a request of each record whose process is there
(`loadLoop_records`). The purpose of a query is not saved. It makes no
difference: the load tries the two purposes between which every query can
be made again, and either gives the same tree.

If a request cannot be written, what was saved is lost: `openReqFile`
truncates the file before the copy is filled (`survivesRestart_iff`).
-/
import Evlog.Lib.Transition
import Evlog.Evlnotifyd.Serialize

namespace Evlog.Evlnotifyd.Serialize

open Evlog.Lib Evlog.Query

/-! ## Requests as the daemon has them -/

/-- What `registerRequest` and the load see to: the query was made of its
expression for some purpose, and is not written like the null query; the
strings are C strings, as long as an `int` can say. -/
structure Request.Valid (sys : System) (parse : List UInt8 → Option PNode) (req : Request) : Prop where
  created : ∀ q, req.nfyQuery = some q → ∃ purpose,
    posixLogQueryCreate sys parse q.expr purpose = some (.ok q)
  notNull : ∀ q, req.nfyQuery = some q → q.expr ≠ nullqu
  expr : ∀ q, req.nfyQuery = some q → 0 ∉ q.expr ∧ q.expr.length < 2 ^ 31
  cmd : ∀ cmd, req.procCmd = some cmd → 0 ∉ cmd ∧ cmd.length < 2 ^ 31

/-- What is to be the same after a restart. -/
structure Restored (req req' : Request) : Prop where
  handle : req'.handle = req.handle
  pid : req'.pid = req.pid
  flags : req'.flags = req.flags
  sigevent : req'.sigevent = req.sigevent
  procCmd : req'.procCmd = req.procCmd
  query : req'.nfyQuery.map PosixLogQuery.evaluate = req.nfyQuery.map PosixLogQuery.evaluate

/-- The requests whose process is there, where the list starts with the
`i`-th record. -/
def alive (cmdline : Nat → Int32 → Option (List UInt8)) : Nat → List Request → List Request
  | _, [] => []
  | i, req :: reqs =>
    if cmdline i req.pid = req.procCmd then req :: alive cmdline (i + 1) reqs
    else alive cmdline (i + 1) reqs

/-- `appendReqToFile` for each request in turn: the file, and whether all the
calls return 0. -/
def appendAll (envs : Nat → FileEnv) : Nat → List Request → Option (List UInt8) →
    Option (List UInt8) × Bool
  | _, [], file => (file, true)
  | i, req :: reqs, file =>
    let (file, ok) := appendReqToFile (envs i) req file
    let (file, rest) := appendAll envs (i + 1) reqs file
    (file, ok && rest)

def Loads (env : LoadEnv) (content : List UInt8) (reqs : List Request) : Prop :=
  ∃ s, loadReqFromFile env content = some (s, true) ∧
    List.Forall₂ Restored (alive env.cmdline 0 reqs) s.reqs

/-! ## Records -/

@[simp] theorem ReqRecHdr.toBytes_length (h : ReqRecHdr) : h.toBytes.length = reqRecHdrSize := by
  simp [toBytes, reqRecHdrSize]

/-- A header read back from its bytes, whatever follows them. -/
theorem ReqRecHdr.ofBytes_toBytes_append (h : ReqRecHdr) (rest : List UInt8) :
    ReqRecHdr.ofBytes (h.toBytes ++ rest) = h := by
  simp only [toBytes, ofBytes, List.append_assoc, takeLE_leBytes_append, uint32_ofNat_mod,
    uint64_ofNat_mod, Int32.toInt32_toUInt32]

def Request.bytes (req : Request) : List UInt8 :=
  match req.procCmd with
  | none => []
  | some cmd => (req.hdr cmd).toBytes ++ (req.queryStr ++ cmd)

def fileOf (reqs : List Request) : List UInt8 := reqs.flatMap Request.bytes

def Writable (env : FileEnv) (i : Nat) (req : Request) : Prop :=
  req.procCmd.isSome ∧ env.writeOk i = true

instance (env : FileEnv) (i : Nat) (req : Request) : Decidable (Writable env i req) :=
  inferInstanceAs (Decidable (_ ∧ _))

/-- So can all of the list, from the `i`-th on. -/
def AllWritable (env : FileEnv) : Nat → List Request → Prop
  | _, [] => True
  | i, req :: reqs => Writable env i req ∧ AllWritable env (i + 1) reqs

instance decidableAllWritable (env : FileEnv) :
    (i : Nat) → (reqs : List Request) → Decidable (AllWritable env i reqs)
  | _, [] => .isTrue trivial
  | i, _ :: reqs =>
    have := decidableAllWritable env (i + 1) reqs
    inferInstanceAs (Decidable (_ ∧ _))

theorem writeReqToFile_eq (content : List UInt8) (req : Request) (ok : Bool) :
    writeReqToFile ⟨content, content.length⟩ req ok =
      if req.procCmd.isSome ∧ ok = true then
        some ⟨content ++ req.bytes, (content ++ req.bytes).length⟩
      else none := by
  unfold writeReqToFile Request.bytes
  cases req.procCmd with
  | none => rfl
  | some cmd =>
    cases ok with
    | false => rfl
    | true =>
      simp only [if_true, OpenFile.write_at_end, List.append_assoc, Option.isSome_some, and_self]

theorem writeLoop_eq (env : FileEnv) (i : Nat) (reqs : List Request) (content : List UInt8) :
    writeLoop env i reqs ⟨content, content.length⟩ =
      if AllWritable env i reqs then
        some ⟨content ++ fileOf reqs, (content ++ fileOf reqs).length⟩
      else none := by
  induction reqs generalizing i content with
  | nil => simp [writeLoop, AllWritable, fileOf]
  | cons req reqs ih =>
    rw [writeLoop, writeReqToFile_eq]
    by_cases hreq : Writable env i req
    · rw [if_pos (show req.procCmd.isSome ∧ env.writeOk i = true from hreq)]
      dsimp only
      rw [ih]
      refine if_congr (and_iff_right hreq).symm ?_ rfl
      rw [fileOf, fileOf, List.flatMap_cons, List.append_assoc]
    · rw [if_neg (show ¬ (req.procCmd.isSome ∧ env.writeOk i = true) from hreq), if_neg fun h => hreq h.1]

/-- Nothing is left of what was saved before the requests are written. -/
theorem writeRequestsToFile_eq (env : FileEnv) (reqs : List Request) (content : List UInt8) :
    writeRequestsToFile env reqs (some content) =
      if ¬ env.openOk then (some content, false)
      else if ¬ env.copyOk then (some [], false)
      else if AllWritable env 0 reqs then (some (fileOf reqs), true)
      else (some [], false) := by
  unfold writeRequestsToFile openReqFile
  cases env.openOk with
  | false => rfl
  | true =>
    cases env.copyOk with
    | false => rfl
    | true =>
      have := writeLoop_eq env 0 reqs []
      rw [List.length_nil, List.nil_append] at this
      by_cases hall : AllWritable env 0 reqs
      · rw [if_pos hall] at this
        simp [this, hall, closeReqFile]
      · rw [if_neg hall] at this
        simp [this, hall]

variable {req : Request} {file : Option (List UInt8)}

theorem appendReqToFile_ok {env : FileEnv} (h : (appendReqToFile env req file).2 = true) :
    (appendReqToFile env req file).1 = some (file.getD [] ++ req.bytes) ∧ req.procCmd.isSome := by
  unfold appendReqToFile openReqFile at h ⊢
  by_cases hopen : env.openOk = true
  · by_cases hcopy : env.copyOk = true
    · by_cases hwrite : req.procCmd.isSome ∧ env.writeOk 0 = true
      · simp [hopen, hcopy, writeReqToFile_eq, hwrite, closeReqFile]
      · simp [hopen, hcopy, writeReqToFile_eq, hwrite] at h
    · simp [hopen, hcopy] at h
  · simp [hopen] at h

/-! ## The load -/

variable {bytes c pre post cmd buf : List UInt8}

theorem cStr_eq (h : 0 ∉ bytes) : cStr bytes = bytes := by
  induction bytes with
  | nil => rfl
  | cons b bytes ih =>
    rw [List.mem_cons, not_or] at h
    rw [cStr, List.takeWhile_cons_of_pos (by simpa using Ne.symm h.1)]
    exact congrArg _ (ih h.2)

theorem read_split {mid : List UInt8} (hc : c = pre ++ (mid ++ post)) :
    OpenFile.read ⟨c, pre.length⟩ mid.length = (mid, ⟨c, (pre ++ mid).length⟩) := by
  rw [hc, OpenFile.read_at, List.length_append]

theorem readNextStrFromFile_split {str : List UInt8} (hc : c = pre ++ (str ++ post))
    (h : str.length < 2 ^ 31) :
    readNextStrFromFile ⟨c, pre.length⟩ (.ofNat str.length) =
      some (str, ⟨c, (pre ++ str).length⟩) := by
  have hlen := Int32.toNatClampNeg_ofNat_of_lt h
  have hpos : ¬ Int32.ofNat str.length < 0 := by
    rw [Int32.not_lt, Int32.le_iff_toInt_le, Int32.toInt_ofNat_of_lt h]
    exact Int.natCast_nonneg _
  rw [readNextStrFromFile, if_neg hpos, hlen, read_split hc]
  simp

/-- The purposes of the load make the query again that was made for any. -/
theorem queryCreate_of_created (env : LoadEnv) {q : PosixLogQuery} {purpose : UInt32}
    (h : posixLogQueryCreate env.sys env.parse q.expr purpose = some (.ok q)) :
    ∃ p, env.queryCreate q.expr = some (.ok { q with purpose := p }) := by
  have hstatus := purposeStatus_of_ok h
  have hnotify : purposeOf posixLogPrpsNotify = ⟨false, false⟩ := by decide
  have htmpl : purposeOf evlPrpsTemplate = ⟨true, false⟩ := by decide
  by_cases htemplate : purpose &&& evlPrpsTemplate = 0
  · -- whatever else it allows, a query for notification allows
    have hle : (purposeOf purpose).Le (purposeOf posixLogPrpsNotify) :=
      ⟨fun h => by simp [purposeOf, htemplate] at h, fun h => by simp [hnotify] at h⟩
    have hcreate := posixLogQueryCreate_of_le hle (by decide) (q := some q) h
    refine ⟨posixLogPrpsNotify, ?_⟩
    rw [LoadEnv.queryCreate, hcreate]
    rfl
  · have hle : (purposeOf purpose).Le (purposeOf evlPrpsTemplate) :=
      ⟨fun _ => by rw [htmpl], fun h => by simp [htmpl] at h⟩
    have hcreate := posixLogQueryCreate_of_le hle (by decide) (q := some q) h
    have hle' : (purposeOf posixLogPrpsNotify).Le (purposeOf evlPrpsTemplate) :=
      ⟨fun h => by simp [hnotify] at h, fun h => by simp [htmpl] at h⟩
    rw [LoadEnv.queryCreate]
    cases hfirst : posixLogQueryCreate env.sys env.parse q.expr posixLogPrpsNotify with
    | none =>
      have := posixLogQueryCreate_of_le hle' (by decide) (q := none) hfirst
      rw [hcreate] at this
      cases this
    | some r =>
      cases r with
      | error e => exact ⟨evlPrpsTemplate, by simp [hcreate]⟩
      | ok q' =>
        have := posixLogQueryCreate_of_le hle' (by decide) (q := some q') hfirst
        rw [hcreate] at this
        have he : ({ q with purpose := evlPrpsTemplate } : PosixLogQuery) =
            { q' with purpose := evlPrpsTemplate } := by simpa using this
        obtain ⟨htree, hatts, hexpr, -⟩ := PosixLogQuery.mk.inj he
        refine ⟨q'.purpose, ?_⟩
        dsimp only
        rw [htree, hatts, hexpr]

/-- The request that the load makes of a record, but for the purpose of its
query. -/
def Request.reloaded (req : Request) (p : UInt32) : Request :=
  { req with sd := -1, nfyQuery := req.nfyQuery.map fun q => { q with purpose := p } }

theorem restored_reloaded (req : Request) (p : UInt32) : Restored req (req.reloaded p) where
  handle := rfl
  pid := rfl
  flags := rfl
  sigevent := rfl
  procCmd := rfl
  query := by
    unfold Request.reloaded
    cases req.nfyQuery with
    | none => rfl
    | some q => rfl

variable {env : LoadEnv}

theorem loadRequest_eq (hreq : req.Valid env.sys env.parse) (hcmd : req.procCmd = some cmd)
    (s : Loaded) :
    ∃ p, loadRequest env s (req.hdr cmd) (cStr req.queryStr) (cStr cmd) =
      some (.ok ⟨s.reqs ++ [req.reloaded p], req.handle⟩) := by
  rw [cStr_eq (hreq.cmd cmd hcmd).1]
  unfold loadRequest Request.queryStr Request.reloaded
  cases hq : req.nfyQuery with
  | none =>
    refine ⟨0, ?_⟩
    have hnull : cStr nullqu = nullqu := by decide
    simp only [hnull, if_true, hcmd, Request.hdr, Option.map_some]
    rfl
  | some q =>
    obtain ⟨purpose, hcreated⟩ := hreq.created q hq
    obtain ⟨p, hp⟩ := queryCreate_of_created env hcreated
    refine ⟨p, ?_⟩
    simp only [cStr_eq (hreq.expr q hq).1, if_neg (hreq.notNull q hq), hp, Option.map_some,
      hcmd, Request.hdr]
    rfl

theorem queryStr_length {sys : System} {parse : List UInt8 → Option PNode} (h : req.Valid sys parse) :
    req.queryStr.length < 2 ^ 31 := by
  unfold Request.queryStr
  split
  · decide
  · next q hq => exact (h.expr q hq).2

variable {i fuel : Nat}

theorem loadRound_eq {query : List UInt8} {f f₁ f₂ f₃ : OpenFile} {hdr : ReqRecHdr} {s s' : Loaded}
    (hread : f.read reqRecHdrSize = (bytes, f₁)) (hne : bytes ≠ [])
    (hhdr : ReqRecHdr.ofBytes (bytes ++ buf.drop bytes.length) = hdr)
    (hmagic : hdr.recMagic = reqRecMagic)
    (hquery : readNextStrFromFile f₁ hdr.queryLen = some (query, f₂))
    (hcmd : readNextStrFromFile f₂ hdr.cmdLineLen = some (cmd, f₃))
    (hload : loadRequest env s hdr (cStr query) (cStr cmd) = some (.ok s')) :
    loadRound env i buf f s = some (.next (bytes ++ buf.drop bytes.length) f₃
      (if env.cmdline i hdr.pid = some (cStr cmd) then s' else s)) := by
  simp only [loadRound, hread, if_neg hne, hhdr, if_neg (not_not_intro hmagic), hquery, hcmd, hload]
  by_cases halive : env.cmdline i hdr.pid = some (cStr cmd)
  · rw [if_neg (not_not_intro halive), if_pos halive]
  · rw [if_pos halive, if_neg halive]

/-- A round of the loop takes the record that comes next, and makes a
request of it if its process is there. -/
theorem loadRound_record (hreq : req.Valid env.sys env.parse) (hcmd : req.procCmd = some cmd)
    (i : Nat) (hbuf : buf.length = reqRecHdrSize) (pre post : List UInt8) (s : Loaded) :
    ∃ p buf', buf'.length = reqRecHdrSize ∧
      loadRound env i buf ⟨pre ++ (req.bytes ++ post), pre.length⟩ s =
        some (.next buf' ⟨pre ++ req.bytes ++ post, (pre ++ req.bytes).length⟩
          (if env.cmdline i req.pid = req.procCmd then ⟨s.reqs ++ [req.reloaded p], req.handle⟩ else s)) := by
  obtain ⟨p, hload⟩ := loadRequest_eq hreq hcmd s
  have hbytes : req.bytes = (req.hdr cmd).toBytes ++ (req.queryStr ++ cmd) := by
    rw [Request.bytes, hcmd]
  -- the three reads, each with the file split around what it gets
  generalize hc : pre ++ (req.bytes ++ post) = c
  rw [hbytes, List.append_assoc, List.append_assoc] at hc
  have hread := read_split hc.symm
  have hc₂ : c = pre ++ (req.hdr cmd).toBytes ++ (req.queryStr ++ (cmd ++ post)) := by
    rw [← hc, List.append_assoc]
  have hc₃ : c = pre ++ (req.hdr cmd).toBytes ++ req.queryStr ++ (cmd ++ post) := by
    rw [hc₂, List.append_assoc _ req.queryStr]
  have hquery := readNextStrFromFile_split hc₂ (queryStr_length hreq)
  have hcmdStr := readNextStrFromFile_split hc₃ (hreq.cmd cmd hcmd).2
  rw [ReqRecHdr.toBytes_length] at hread
  refine ⟨p, (req.hdr cmd).toBytes ++ buf.drop (req.hdr cmd).toBytes.length, by simp [hbuf], ?_⟩
  have hne : (req.hdr cmd).toBytes ≠ [] := by
    intro he
    have := (req.hdr cmd).toBytes_length
    rw [he] at this
    exact absurd this (by decide)
  rw [loadRound_eq hread hne (ReqRecHdr.ofBytes_toBytes_append _ _) rfl hquery hcmdStr hload]
  have hc' : pre ++ req.bytes ++ post = c := by
    rw [← hc, hbytes]
    simp only [List.append_assoc]
  have hpid : (req.hdr cmd).pid = req.pid := rfl
  rw [hc', hbytes, ← List.append_assoc, ← List.append_assoc, hpid, cStr_eq (hreq.cmd cmd hcmd).1, hcmd]

theorem loadLoop_next {buf' : List UInt8} {f f' : OpenFile} {s s' : Loaded}
    (h : loadRound env i buf f s = some (.next buf' f' s')) :
    loadLoop env (fuel + 1) i buf f s = loadLoop env fuel (i + 1) buf' f' s' := by
  rw [loadLoop, h]

theorem loadLoop_end (env : LoadEnv) (fuel i : Nat) (buf content : List UInt8) (s : Loaded) :
    loadLoop env (fuel + 1) i buf ⟨content, content.length⟩ s = some (s, true) := by
  have hround : loadRound env i buf ⟨content, content.length⟩ s = some (.leave true) := by
    rw [loadRound, OpenFile.read_past_end (le_refl _)]
    rfl
  rw [loadLoop, hround]

variable {reqs : List Request}

/-- The loop goes through the records of a list, and adds the requests whose
process is there to those that it has. -/
theorem loadLoop_records (hreqs : ∀ req ∈ reqs, req.Valid env.sys env.parse ∧ req.procCmd.isSome)
    (hfuel : reqs.length < fuel) (i : Nat) (hbuf : buf.length = reqRecHdrSize) (pre : List UInt8)
    (s : Loaded) :
    ∃ s' new, loadLoop env fuel i buf ⟨pre ++ fileOf reqs, pre.length⟩ s = some (s', true) ∧
      s'.reqs = s.reqs ++ new ∧ List.Forall₂ Restored (alive env.cmdline i reqs) new := by
  induction reqs generalizing fuel i buf pre s with
  | nil =>
    obtain ⟨fuel, rfl⟩ := Nat.exists_eq_succ_of_ne_zero (Nat.ne_of_gt hfuel)
    refine ⟨s, [], ?_, (List.append_nil _).symm, .nil⟩
    rw [fileOf, List.flatMap_nil, List.append_nil]
    exact loadLoop_end env fuel i buf pre s
  | cons req reqs ih =>
    obtain ⟨fuel, rfl⟩ := Nat.exists_eq_succ_of_ne_zero (Nat.ne_of_gt (Nat.zero_lt_of_lt hfuel))
    obtain ⟨hvalid, hsome⟩ := hreqs req List.mem_cons_self
    obtain ⟨cmd, hcmd⟩ := Option.isSome_iff_exists.1 hsome
    obtain ⟨p, buf', hbuf', hround⟩ := loadRound_record hvalid hcmd i hbuf pre (fileOf reqs) s
    have hrest := ih (fun req' h => hreqs req' (List.mem_cons_of_mem req h))
      (Nat.lt_of_succ_lt_succ hfuel) (i + 1) hbuf' (pre ++ req.bytes)
    rw [fileOf, List.flatMap_cons, ← fileOf, loadLoop_next hround]
    by_cases halive : env.cmdline i req.pid = req.procCmd
    · rw [if_pos halive, alive, if_pos halive]
      obtain ⟨s', new, hloop, hnew, hrestored⟩ := hrest ⟨s.reqs ++ [req.reloaded p], req.handle⟩
      refine ⟨s', req.reloaded p :: new, hloop, ?_, .cons (restored_reloaded req p) hrestored⟩
      rw [hnew, List.append_assoc]
      rfl
    · rw [if_neg halive, alive, if_neg halive]
      exact hrest s

theorem fileOf_length (hreqs : ∀ req ∈ reqs, req.procCmd.isSome) :
    reqs.length ≤ (fileOf reqs).length := by
  induction reqs with
  | nil => exact Nat.zero_le _
  | cons req reqs ih =>
    obtain ⟨cmd, hcmd⟩ := Option.isSome_iff_exists.1 (hreqs req List.mem_cons_self)
    have := ih fun req' h => hreqs req' (List.mem_cons_of_mem req h)
    have hsize : 1 ≤ reqRecHdrSize := by decide
    rw [fileOf, List.flatMap_cons, ← fileOf, List.length_append, Request.bytes, hcmd, List.length_cons,
      List.length_append, ReqRecHdr.toBytes_length]
    omega

theorem loads_fileOf (hreqs : ∀ req ∈ reqs, req.Valid env.sys env.parse ∧ req.procCmd.isSome) :
    Loads env (fileOf reqs) reqs := by
  have hlen := fileOf_length fun req h => (hreqs req h).2
  obtain ⟨s, new, hloop, hnew, hrestored⟩ := loadLoop_records hreqs (Nat.lt_succ_of_le hlen) 0
    (List.length_replicate (a := (0 : UInt8))) [] ⟨[], 0⟩
  refine ⟨s, hloop, ?_⟩
  rw [hnew]
  exact hrestored

theorem appendAll_ok {envs : Nat → FileEnv} (h : (appendAll envs i reqs file).2 = true) :
    (appendAll envs i reqs file).1.getD [] = file.getD [] ++ fileOf reqs ∧
      ∀ req ∈ reqs, req.procCmd.isSome := by
  induction reqs generalizing i file with
  | nil => exact ⟨(List.append_nil _).symm, nofun⟩
  | cons req reqs ih =>
    simp only [appendAll, Bool.and_eq_true] at h ⊢
    obtain ⟨hfirst, hrest⟩ := h
    obtain ⟨hfile, hcmds⟩ := ih hrest
    obtain ⟨hfirst, hcmd⟩ := appendReqToFile_ok hfirst
    rw [hfirst] at hfile ⊢
    rw [Option.getD_some, List.append_assoc] at hfile
    exact ⟨hfile, List.forall_mem_cons.2 ⟨hcmd, hcmds⟩⟩

theorem allWritable_cmd {env : FileEnv} (h : AllWritable env i reqs) :
    ∀ req ∈ reqs, req.procCmd.isSome := by
  induction reqs generalizing i with
  | nil => nofun
  | cons req reqs ih => exact List.forall_mem_cons.2 ⟨h.1.1, ih h.2⟩

/-! ## The claim -/

/-- `writeRequestsToFile` fails for some request of the list. -/
def FailsForRequest (env : FileEnv) (reqs : List Request) : Prop :=
  env.openOk ∧ env.copyOk ∧ ¬ AllWritable env 0 reqs

structure SurvivesRestart (env : LoadEnv) (fileEnv : FileEnv) (saved reqs : List Request) : Prop where
  /-- What is written for the list gives it back, as far as it is alive. -/
  rewritten : ∀ content,
    writeRequestsToFile fileEnv reqs (some (fileOf saved)) = (some content, true) → Loads env content reqs
  /-- So does what is built by appending its requests. -/
  appended : ∀ envs content, appendAll envs 0 reqs none = (some content, true) → Loads env content reqs
  /-- After a failure the saved requests are in the file. -/
  kept : FailsForRequest fileEnv reqs → ∃ pre post,
    (writeRequestsToFile fileEnv reqs (some (fileOf saved))).1 = some (pre ++ fileOf saved ++ post)

theorem survivesRestart_iff {env : LoadEnv} {fileEnv : FileEnv} {saved reqs : List Request}
    (hreqs : ∀ req ∈ reqs, req.Valid env.sys env.parse)
    (hsaved : ∀ req ∈ saved, req.procCmd.isSome) :
    SurvivesRestart env fileEnv saved reqs ↔ (FailsForRequest fileEnv reqs → saved = []) := by
  constructor
  · rintro ⟨-, -, hkept⟩ hfails
    obtain ⟨pre, post, hfile⟩ := hkept hfails
    obtain ⟨hopen, hcopy, hwrite⟩ := hfails
    rw [writeRequestsToFile_eq, if_neg (not_not_intro hopen), if_neg (not_not_intro hcopy), if_neg hwrite]
      at hfile
    have hnil : pre ++ fileOf saved ++ post = [] := (Option.some.inj hfile).symm
    rw [List.append_eq_nil_iff, List.append_eq_nil_iff] at hnil
    have hlen := fileOf_length hsaved
    rw [hnil.1.2, List.length_nil] at hlen
    exact List.length_eq_zero_iff.1 (Nat.le_zero.1 hlen)
  · intro hcond
    refine ⟨?_, ?_, ?_⟩
    · intro content hcontent
      rw [writeRequestsToFile_eq] at hcontent
      split at hcontent
      · cases hcontent
      · split at hcontent
        · cases hcontent
        · split at hcontent
          · next hwrite =>
              obtain rfl := Option.some.inj (Prod.mk.inj hcontent).1
              exact loads_fileOf fun req h => ⟨hreqs req h, allWritable_cmd hwrite req h⟩
          · cases hcontent
    · intro envs content hcontent
      obtain ⟨hfile, hcmds⟩ := appendAll_ok (by rw [hcontent])
      rw [hcontent] at hfile
      obtain rfl : content = fileOf reqs := hfile
      exact loads_fileOf fun req h => ⟨hreqs req h, hcmds req h⟩
    · intro hfails
      obtain ⟨hopen, hcopy, hwrite⟩ := hfails
      obtain rfl := hcond ⟨hopen, hcopy, hwrite⟩
      refine ⟨[], [], ?_⟩
      rw [writeRequestsToFile_eq, if_neg (not_not_intro hopen), if_neg (not_not_intro hcopy), if_neg hwrite]
      rfl

/-- A request for every event of a process, and one of a process whose
command line could not be read. -/
def plainRequest (cmd : Option (List UInt8)) : Request where
  handle := 1
  pid := 100
  sd := 5
  flags := 0
  sigevent := ⟨sigevSignal, 10, 7⟩
  nfyQuery := none
  procCmd := cmd

theorem plainRequest_valid (sys : System) (parse : List UInt8 → Option PNode) {cmd : Option (List UInt8)}
    (h : ∀ c, cmd = some c → 0 ∉ c ∧ c.length < 2 ^ 31) : (plainRequest cmd).Valid sys parse where
  created := nofun
  notNull := nofun
  expr := nofun
  cmd := h

def plainEnv : LoadEnv := ⟨System.bare, fun _ => none, fun _ _ => some [0x61]⟩

def goodFile : FileEnv := ⟨true, true, fun _ => true⟩

theorem plain_valid (cmd : Option (List UInt8)) (h : cmd = some [0x61] ∨ cmd = none) :
    (plainRequest cmd).Valid plainEnv.sys plainEnv.parse := by
  refine plainRequest_valid _ _ fun c hc => ?_
  rcases h with rfl | rfl
  · obtain rfl := Option.some.inj hc
    decide
  · cases hc

theorem survivesRestart_plain : SurvivesRestart plainEnv goodFile [plainRequest (some [0x61])]
      [plainRequest (some [0x61]), plainRequest (some [0x61])] := by
  refine (survivesRestart_iff ?_ ?_).2 ?_
  · exact List.forall_mem_cons.2 ⟨plain_valid _ (.inl rfl), List.forall_mem_singleton.2 (plain_valid _ (.inl rfl))⟩
  · exact List.forall_mem_singleton.2 rfl
  · rintro ⟨-, -, hwrite⟩
    exact absurd (by decide) hwrite

/-- A saved request is lost when a write to the copy fails. -/
theorem saved_lost : ¬ ∀ (env : LoadEnv) (fileEnv : FileEnv) (saved reqs : List Request),
    (∀ req ∈ reqs, req.Valid env.sys env.parse) → (∀ req ∈ saved, req.procCmd.isSome) →
    SurvivesRestart env fileEnv saved reqs := by
  intro h
  have hfails : FailsForRequest ⟨true, true, fun _ => false⟩ [plainRequest (some [0x61])] :=
    ⟨rfl, rfl, by decide⟩
  obtain ⟨pre, post, hfile⟩ := (h plainEnv _ [plainRequest (some [0x61])] [plainRequest (some [0x61])]
    (List.forall_mem_singleton.2 (plain_valid _ (.inl rfl))) (List.forall_mem_singleton.2 rfl)).kept hfails
  have hlost : (writeRequestsToFile ⟨true, true, fun _ => false⟩ [plainRequest (some [0x61])]
      (some (fileOf [plainRequest (some [0x61])]))).1 = some [] := rfl
  rw [hlost] at hfile
  have hlen : (pre ++ fileOf [plainRequest (some [0x61])] ++ post).length = 0 :=
    congrArg List.length (Option.some.inj hfile).symm
  simp [fileOf, Request.bytes, plainRequest, reqRecHdrSize] at hlen

/-! ## The file as a list of records -/

/-- The request as `Notifyd` has it. -/
def Request.nfyReq (req : Request) : NfyReq where
  handle := req.handle
  pid := req.pid
  sd := req.sd
  flags := req.flags
  sigevent := req.sigevent
  quExpr := req.nfyQuery.map (·.expr)
  procCmd := req.procCmd

/-- How a record of `Notifyd` lies in the file. -/
def recBytes (r : ReqRec) : List UInt8 :=
  ReqRecHdr.toBytes ⟨reqRecMagic, r.handle, r.pid, r.sd, r.flags, r.sigevent, .ofNat r.queryStr.length,
    .ofNat r.cmdStr.length⟩ ++ (r.queryStr ++ r.cmdStr)

def FileEnv.outcome (env : FileEnv) (writeOk : Bool) : FileOutcome :=
  if ¬ env.openOk then .notOpened else if env.copyOk ∧ writeOk then .succeeded else .failed

theorem bytes_eq_recBytes {r : ReqRec} (h : req.nfyReq.toRec = some r) :
    req.bytes = recBytes r := by
  obtain ⟨cmd, hcmd, rfl⟩ := Option.map_eq_some_iff.1 h
  have hcmd : req.procCmd = some cmd := hcmd
  rw [Request.bytes, hcmd]
  unfold recBytes Request.hdr Request.queryStr Request.nfyReq
  cases req.nfyQuery with
  | none => rfl
  | some q => rfl

theorem exists_toRec (h : req.procCmd.isSome) : ∃ r, req.nfyReq.toRec = some r := by
  obtain ⟨cmd, hcmd⟩ := Option.isSome_iff_exists.1 h
  exact ⟨_, by rw [NfyReq.toRec, show req.nfyReq.procCmd = some cmd from hcmd, Option.map_some]⟩

theorem fileOf_eq_recBytes (h : ∀ req ∈ reqs, req.procCmd.isSome) :
    ∃ recs, (reqs.map Request.nfyReq).mapM NfyReq.toRec = some recs ∧
      fileOf reqs = recs.flatMap recBytes := by
  induction reqs with
  | nil => exact ⟨[], rfl, rfl⟩
  | cons req reqs ih =>
    obtain ⟨r, hr⟩ := exists_toRec (h req List.mem_cons_self)
    obtain ⟨recs, hrecs, hfile⟩ := ih fun req' h' => h req' (List.mem_cons_of_mem req h')
    refine ⟨r :: recs, ?_, ?_⟩
    · rw [List.map_cons, List.mapM_cons, hr, hrecs]
      rfl
    · rw [fileOf, List.flatMap_cons, ← fileOf, hfile, bytes_eq_recBytes hr, List.flatMap_cons]

/-- The functions of `Notifyd` are these, on files made of records. -/
theorem writeRequestsToFile_notifyd (env : FileEnv) (reqs : List Request) (file : Option (List ReqRec)) :
    (writeRequestsToFile env reqs (file.map (List.flatMap recBytes))).1 =
      (Evlnotifyd.writeRequestsToFile (env.outcome (decide (AllWritable env 0 reqs)))
        (reqs.map Request.nfyReq) file).map (List.flatMap recBytes) := by
  cases file with
  | none => simp [writeRequestsToFile, openReqFile, Evlnotifyd.writeRequestsToFile]
  | some recs =>
    rw [Option.map_some, writeRequestsToFile_eq, FileEnv.outcome]
    by_cases hopen : env.openOk = true
    · by_cases hcopy : env.copyOk = true
      · by_cases hwrite : AllWritable env 0 reqs
        · obtain ⟨recs', hrecs, hfile⟩ := fileOf_eq_recBytes (allWritable_cmd hwrite)
          simp [Evlnotifyd.writeRequestsToFile, hopen, hcopy, hwrite, hrecs, hfile]
        · simp [Evlnotifyd.writeRequestsToFile, hopen, hcopy, hwrite]
      · simp [Evlnotifyd.writeRequestsToFile, hopen, hcopy]
    · simp [Evlnotifyd.writeRequestsToFile, hopen]

theorem appendReqToFile_notifyd (env : FileEnv) (req : Request) (file : Option (List ReqRec)) :
    (appendReqToFile env req (file.map (List.flatMap recBytes))).1 =
      (Evlnotifyd.appendReqToFile (env.outcome (env.writeOk 0)) req.nfyReq file).map
        (List.flatMap recBytes) := by
  have hcontent : (file.map (List.flatMap recBytes)).getD [] = (file.getD []).flatMap recBytes := by
    cases file <;> rfl
  have hwrite := writeReqToFile_eq ((file.getD []).flatMap recBytes) req (env.writeOk 0)
  rw [FileEnv.outcome, appendReqToFile, openReqFile, hcontent]
  by_cases hopen : env.openOk = true
  · by_cases hcopy : env.copyOk = true
    · simp only [hopen, hcopy, true_or, and_self, if_true, Bool.false_eq_true, if_false, hwrite,
        not_true_eq_false, true_and]
      by_cases hok : env.writeOk 0 = true
      · by_cases hcmd : req.procCmd.isSome
        · obtain ⟨r, hr⟩ := exists_toRec hcmd
          simp [Evlnotifyd.appendReqToFile, hok, hcmd, hr, closeReqFile, bytes_eq_recBytes hr]
        · have hnone : req.nfyReq.toRec = none :=
            Option.map_eq_none_iff.2 (Option.not_isSome_iff_eq_none.1 hcmd)
          simp [Evlnotifyd.appendReqToFile, hok, hcmd, hnone]
      · simp [Evlnotifyd.appendReqToFile, hok]
    · simp [Evlnotifyd.appendReqToFile, hopen, hcopy]
  · simp [Evlnotifyd.appendReqToFile, hopen]

/-- What is done with the request file. -/
inductive FileUse where
  | write (env : FileEnv) (reqs : List Request)
  | append (env : FileEnv) (req : Request)

def FileUse.onBytes (file : Option (List UInt8)) : FileUse → Option (List UInt8)
  | .write env reqs => (writeRequestsToFile env reqs file).1
  | .append env req => (appendReqToFile env req file).1

def FileUse.onRecords (file : Option (List ReqRec)) : FileUse → Option (List ReqRec)
  | .write env reqs => Evlnotifyd.writeRequestsToFile (env.outcome (decide (AllWritable env 0 reqs)))
      (reqs.map Request.nfyReq) file
  | .append env req => Evlnotifyd.appendReqToFile (env.outcome (env.writeOk 0)) req.nfyReq file

/-- The call returns -1. -/
def FileUse.Fails (file : Option (List UInt8)) : FileUse → Prop
  | .write env reqs => (writeRequestsToFile env reqs file).2 = false
  | .append env req => (appendReqToFile env req file).2 = false

/-- What is left when it does: the original has been truncated for a list
that is written, and been made for a request that is appended. -/
def FileUse.left (file : Option (List ReqRec)) : FileUse → Option (List ReqRec)
  | .write env _ => if env.openOk then file.map fun _ => [] else file
  | .append env _ => if env.openOk then some (file.getD []) else file

theorem onBytes_eq (use : FileUse) (file : Option (List ReqRec)) :
    FileUse.onBytes (file.map (List.flatMap recBytes)) use =
      (FileUse.onRecords file use).map (List.flatMap recBytes) := by
  cases use with
  | write env reqs => exact writeRequestsToFile_notifyd env reqs file
  | append env req => exact appendReqToFile_notifyd env req file

theorem run_onBytes (uses : List FileUse) (file : Option (List ReqRec)) :
    run FileUse.onBytes (file.map (List.flatMap recBytes)) uses =
      (run FileUse.onRecords file uses).map (List.flatMap recBytes) := by
  induction uses generalizing file with
  | nil => rfl
  | cons use uses ih => rw [run_cons, run_cons, onBytes_eq, ih]

theorem onRecords_of_fails {use : FileUse} {file : Option (List ReqRec)}
    (h : use.Fails (file.map (List.flatMap recBytes))) : FileUse.onRecords file use = use.left file := by
  cases use with
  | write env reqs =>
    cases file with
    | none => simp [FileUse.onRecords, FileUse.left, Evlnotifyd.writeRequestsToFile]
    | some recs =>
      rw [FileUse.Fails, Option.map_some, writeRequestsToFile_eq] at h
      rw [FileUse.onRecords, FileUse.left, FileEnv.outcome]
      by_cases hopen : env.openOk = true
      · by_cases hcopy : env.copyOk = true
        · by_cases hwrite : AllWritable env 0 reqs
          · simp [hopen, hcopy, hwrite] at h
          · simp [Evlnotifyd.writeRequestsToFile, hopen, hcopy, hwrite]
        · simp [Evlnotifyd.writeRequestsToFile, hopen, hcopy]
      · simp [Evlnotifyd.writeRequestsToFile, hopen]
  | append env req =>
    rw [FileUse.onRecords, FileUse.left, FileEnv.outcome]
    by_cases hopen : env.openOk = true
    · by_cases hok : env.copyOk = true ∧ env.writeOk 0 = true
      · cases hrec : req.nfyReq.toRec with
        | none => simp [Evlnotifyd.appendReqToFile, hopen, hok, hrec]
        | some r =>
          have hcmd : req.procCmd.isSome := by
            have hsome : req.nfyReq.procCmd.isSome := by
              rw [NfyReq.toRec] at hrec
              exact Option.isSome_map ▸ (by rw [hrec]; rfl)
            exact hsome
          have hwrite := writeReqToFile_eq ((file.map (List.flatMap recBytes)).getD []) req true
          rw [if_pos ⟨hcmd, rfl⟩] at hwrite
          simp [FileUse.Fails, appendReqToFile, openReqFile, hopen, hok, hwrite] at h
      · simp [Evlnotifyd.appendReqToFile, hopen, hok]
    · simp [Evlnotifyd.appendReqToFile, hopen]

/-- However often requests are written and appended, and whatever fails on
the way, the file is one of whole records, those that `Notifyd` has; and a
call that fails leaves those that were there or, if it was to write them all
anew, none. -/
theorem run_fileUse (uses : List FileUse) (file : Option (List ReqRec)) :
    run FileUse.onBytes (file.map (List.flatMap recBytes)) uses =
        (run FileUse.onRecords file uses).map (List.flatMap recBytes) ∧
      ∀ use : FileUse, use.Fails (run FileUse.onBytes (file.map (List.flatMap recBytes)) uses) →
        run FileUse.onRecords file (uses ++ [use]) = use.left (run FileUse.onRecords file uses) := by
  refine ⟨run_onBytes uses file, fun use hfails => ?_⟩
  rw [run_onBytes] at hfails
  rw [run_append, run_cons, run_nil]
  exact onRecords_of_fails hfails

end Evlog.Evlnotifyd.Serialize
