/-
Evlog.Evlnotifyd.DeliveryTheorems — who is signalled, how often, and until
when.

`Delivery` is what is expected of a run. Its first two parts follow from
what the rounds of an event do (`RoundOf`), the third would follow if the
requests of a client went with it. They do not: `closeClientSocket` looks
for them under the number of a free slot. So the condition of
`delivery_of_kept` is that the client has taken them back before, or that
they are disabled.
-/
import Evlog.Lib.Transition
import Evlog.Evlnotifyd.Delivery

namespace Evlog.Evlnotifyd

open Evlog.Lib

namespace Entry

def Enabled (x : Entry) : Prop := x.req.flags &&& posixLogNfyDisabled = 0
def OnceOnly (x : Entry) : Prop := x.req.flags &&& posixLogOnceOnly ≠ 0

def Matched (x : Entry) (env : RoundEnv) : Prop := x.req.quExpr = none ∨ env.isMatch

/-- There is a process with the pid, and it has the command line that it had
at the registration. -/
def Alive (x : Entry) (env : RoundEnv) : Prop := env.cmdline.isSome ∧ env.cmdline = x.req.procCmd

def Due (x : Entry) (env : RoundEnv) : Prop := x.Enabled ∧ x.Matched env ∧ x.Alive env

instance (x : Entry) : Decidable x.Enabled := inferInstanceAs (Decidable (_ = _))
instance (x : Entry) : Decidable x.OnceOnly := inferInstanceAs (Decidable (_ ≠ _))
instance (x : Entry) (env : RoundEnv) : Decidable (x.Alive env) := inferInstanceAs (Decidable (_ ∧ _))
instance (x : Entry) (env : RoundEnv) : Decidable (x.Due env) :=
  inferInstanceAs (Decidable (_ ∧ (_ ∨ _) ∧ (_ ∧ _)))

end Entry

/-! ## What is expected, and the condition -/

/-- The output is a signal for the request with this number. -/
def Output.isFor (serial : Nat) : Output → Bool
  | .signalled x _ => x.serial = serial
  | .closed _ => false

namespace Server

def trace (n : Notifyd) (as : List Act) : Server × List Output := run stepTrace (start n, []) as

structure Delivery (n : Notifyd) (as : List Act) : Prop where
  /-- An event makes one signal for each request in the list that is due, and
  none for the others. -/
  onePerPair : ∀ pre env post, as = pre ++ .event env :: post → (trace n pre).1.crashed = false →
    ∀ (i : Nat) (x : Entry), (trace n pre).1.reqs[i]? = some x →
      (step (trace n pre).1 (.event env)).2.countP (Output.isFor x.serial) =
        if x.Due (env i) then 1 else 0
  /-- Two signals are not for one request that is `POSIX_LOG_ONCE_ONLY`. -/
  onceOnly : (trace n as).2.Pairwise fun o o' => ∀ x ret y ret',
    o = .signalled x ret → o' = .signalled y ret' → x.serial = y.serial → ¬ x.OnceOnly ∧ ¬ y.OnceOnly
  /-- A request gets none after its connection has been closed. -/
  noneAfterClose : (trace n as).2.Pairwise fun o o' => ∀ conn x ret,
    o = .closed conn → o' = .signalled x ret → x.conn ≠ some conn

def Spent (x : Entry) : Prop := ¬ x.Enabled ∨ x.req.procCmd = none

/-- A client whose connection is closed has no request left that is enabled,
and an event finds no command line for a request that has none. -/
def Kept (t : Server × List Output) : Act → Prop
  | .connect _ => True
  | .clientRequest conn msg env =>
    ∀ c, t.1.clients.find? (fun c => c.conn = conn) = some c → (request t.1 c msg env).2 →
      ∀ x ∈ (request t.1 c msg env).1.reqs, x.conn = some conn → Spent x
  | .event env =>
    ∀ (i : Nat) (x : Entry), t.1.reqs[i]? = some x → x.Enabled → x.Matched (env i) → (env i).cmdline.isSome →
      x.req.procCmd.isSome

end Server

/-! ## The rounds of an event -/

/-- What a round does to a request. -/
structure RoundOf (x : Entry) (r : Entry × List Output) : Prop where
  serial : r.1.serial = x.serial
  conn : r.1.conn = x.conn
  sd : r.1.req.sd = x.req.sd
  procCmd : r.1.req.procCmd = x.req.procCmd
  onceOnly : r.1.OnceOnly ↔ x.OnceOnly
  enabled : r.1.Enabled → x.Enabled
  outputs : r.2 = [] ∨ ∃ ret, r.2 = [.signalled x ret] ∧ x.Enabled ∧ x.req.procCmd.isSome ∧
    (x.OnceOnly → ¬ r.1.Enabled)

theorem roundOf_rest (x : Entry) : RoundOf x (x, []) where
  serial := rfl
  conn := rfl
  sd := rfl
  procCmd := rfl
  onceOnly := Iff.rfl
  enabled := id
  outputs := .inl rfl

/-- The flags that `notify` sets. -/
theorem notify_flags (req : NfyReq) (answer : EventAnswer) : ∃ mask, mask &&& posixLogOnceOnly = 0 ∧
      notify req answer = { req with flags := req.flags ||| mask } := by
  have hgone : (posixLogNfyDisabled ||| posixLogNfyPendingRemove) &&& posixLogOnceOnly = 0 := by decide
  have hoff : posixLogNfyDisabled &&& posixLogOnceOnly = 0 := by decide
  have hsame : ∃ mask, mask &&& posixLogOnceOnly = 0 ∧ req = { req with flags := req.flags ||| mask } :=
    ⟨0, by decide, by rw [UInt32.or_zero]⟩
  unfold notify
  split
  · exact hsame
  · split
    · exact hsame
    · split
      · exact ⟨_, hgone, rfl⟩
      · by_cases hret : answer.sigqueue = esrch
        · simp only [hret, if_true]
          split
          · refine ⟨(posixLogNfyDisabled ||| posixLogNfyPendingRemove) ||| posixLogNfyDisabled, by decide, ?_⟩
            rw [UInt32.or_assoc]
          · exact ⟨_, hgone, rfl⟩
        · simp only [hret, if_false]
          split
          · exact ⟨_, hoff, rfl⟩
          · exact hsame

theorem and_or_distrib (a b c : UInt32) : (a ||| b) &&& c = (a &&& c) ||| (b &&& c) := by
  apply UInt32.toBitVec_inj.1
  ext i hi
  simp only [UInt32.toBitVec_and, UInt32.toBitVec_or, BitVec.getElem_and, BitVec.getElem_or,
    Bool.and_or_distrib_right]

theorem onceOnly_notify (x : Entry) (answer : EventAnswer) :
    Entry.OnceOnly { x with req := notify x.req answer } ↔ x.OnceOnly := by
  obtain ⟨mask, hmask, h⟩ := notify_flags x.req answer
  unfold Entry.OnceOnly
  rw [h]
  simp only [and_or_distrib, hmask, UInt32.or_zero]

variable {x : Entry}

theorem enabled_of_notify {answer : EventAnswer}
    (h : Entry.Enabled { x with req := notify x.req answer }) : x.Enabled := by
  obtain ⟨mask, -, hnotify⟩ := notify_flags x.req answer
  unfold Entry.Enabled at h ⊢
  rw [hnotify] at h
  simp only [and_or_distrib] at h
  exact (UInt32.or_eq_zero_iff.1 h).1

/-- A request that is signalled once only is disabled by it. -/
theorem not_enabled_of_signalled {answer : EventAnswer} (henabled : x.Enabled)
    (hmatch : ¬ (x.req.quExpr.isSome ∧ ¬ answer.isMatch)) (halive : answer.validateProc = true)
    (honce : x.OnceOnly) : ¬ Entry.Enabled { x with req := notify x.req answer } := by
  have hgone : (posixLogNfyDisabled ||| posixLogNfyPendingRemove) &&& posixLogOnceOnly = 0 := by decide
  have hoff : ∀ flags, (flags ||| posixLogNfyDisabled) &&& posixLogNfyDisabled ≠ 0 := by
    intro flags h
    rw [and_or_distrib, UInt32.or_eq_zero_iff] at h
    exact absurd h.2 (by decide)
  unfold Entry.OnceOnly at honce
  unfold Entry.Enabled at henabled ⊢
  rw [notify, if_neg (not_not_intro henabled), if_neg hmatch, if_neg (by simp [halive])]
  by_cases hret : answer.sigqueue = esrch
  · have hset : (x.req.flags ||| (posixLogNfyDisabled ||| posixLogNfyPendingRemove)) &&&
        posixLogOnceOnly ≠ 0 := by
      rwa [and_or_distrib, hgone, UInt32.or_zero]
    simp only [hret, if_true, if_pos hset]
    exact hoff _
  · simp only [hret, if_false, if_pos honce]
    exact hoff _

variable {env : RoundEnv}

theorem alive_iff {alive : Bool} (h : validateProc env.cmdline x.req.procCmd = some alive) :
    x.Alive env ↔ alive = true := by
  unfold validateProc at h
  unfold Entry.Alive
  split at h
  · next hcmd =>
      obtain rfl := Option.some.inj h
      simp [hcmd]
  · cases h
  · next hcmd hproc =>
      obtain rfl := Option.some.inj h
      rw [hcmd, hproc]
      simp [eq_comm]

theorem round_spec {r : Entry × List Output} (h : x.round env = some r) :
    RoundOf x r ∧ r.2 = if x.Due env then [.signalled x env.sigqueue] else [] := by
  unfold Entry.round at h
  split at h
  case isTrue hdisabled =>
    obtain rfl : (x, []) = r := Option.some.inj h
    exact ⟨roundOf_rest x, by rw [if_neg fun hdue => hdisabled hdue.1]⟩
  case isFalse henabled =>
    split at h
    case isTrue hmatch =>
      obtain rfl : (x, []) = r := Option.some.inj h
      refine ⟨roundOf_rest x, ?_⟩
      rw [if_neg]
      rintro ⟨-, hnull | hmatched, -⟩
      · simp [hnull] at hmatch
      · exact hmatch.2 hmatched
    case isFalse hmatch =>
      have henabled : x.Enabled := not_not.1 henabled
      have hmatched : x.Matched env := by
        unfold Entry.Matched
        cases hq : x.req.quExpr with
        | none => exact .inl rfl
        | some q => exact .inr (by simpa [hq] using hmatch)
      split at h
      case h_1 => cases h
      case h_2 alive halive =>
        obtain rfl := Option.some.inj h
        have hdue : x.Due env ↔ alive = true := by
          rw [Entry.Due, and_iff_right henabled, and_iff_right hmatched]
          exact alive_iff halive
        have hcmd : alive = true → x.req.procCmd.isSome := fun ha => by
          obtain ⟨hsome, he⟩ := (alive_iff halive).2 ha
          exact he ▸ hsome
        obtain ⟨mask, -, hnotify⟩ := notify_flags x.req ⟨env.isMatch, alive, env.sigqueue⟩
        refine ⟨⟨rfl, rfl, by simp [hnotify], by simp [hnotify], onceOnly_notify x _, enabled_of_notify, ?_⟩,
          if_congr hdue.symm rfl rfl⟩
        cases alive with
        | false => exact .inl rfl
        | true =>
          exact .inr ⟨env.sigqueue, rfl, henabled, hcmd rfl, not_enabled_of_signalled henabled hmatch rfl⟩

/-- A round comes to an end where it finds no command line that it has
nothing to compare with. -/
theorem round_isSome (h : x.Enabled → x.Matched env → env.cmdline.isSome → x.req.procCmd.isSome) :
    ∃ r, x.round env = some r := by
  unfold Entry.round
  split
  case isTrue => exact ⟨_, rfl⟩
  case isFalse henabled =>
    split
    case isTrue => exact ⟨_, rfl⟩
    case isFalse hmatch =>
      have hmatched : x.Matched env := by
        unfold Entry.Matched
        cases hq : x.req.quExpr with
        | none => exact .inl rfl
        | some q => exact .inr (by simpa [hq] using hmatch)
      have hcmd := h (not_not.1 henabled) hmatched
      cases hline : env.cmdline with
      | none => exact ⟨_, rfl⟩
      | some cmd =>
        obtain ⟨cmdStr, hproc⟩ := Option.isSome_iff_exists.1 (hcmd (by simp [hline]))
        rw [hproc]
        exact ⟨_, rfl⟩

/-! ## All the rounds -/

/-- No round finds a command line for a request that has none. -/
def Readable (env : Nat → RoundEnv) (i : Nat) (entries : List Entry) : Prop :=
  ∀ (k : Nat) (x : Entry), entries[k]? = some x → x.Enabled → x.Matched (env (i + k)) →
    (env (i + k)).cmdline.isSome → x.req.procCmd.isSome

theorem Readable.head {env : Nat → RoundEnv} {i : Nat} {rest : List Entry}
    (h : Readable env i (x :: rest)) :
    x.Enabled → x.Matched (env i) → (env i).cmdline.isSome → x.req.procCmd.isSome := h 0 x rfl

theorem Readable.tail {env : Nat → RoundEnv} {i : Nat} {x : Entry} {rest : List Entry}
    (h : Readable env i (x :: rest)) : Readable env (i + 1) rest := by
  intro k y hy
  have := h (k + 1) y (by simpa using hy)
  rwa [show i + (k + 1) = i + 1 + k by omega] at this

variable {entries : List Entry}

theorem rounds_not_crashed {env : Nat → RoundEnv} {i : Nat} (h : Readable env i entries) :
    (rounds env i entries).2 = false := by
  induction entries generalizing i with
  | nil => rfl
  | cons x rest ih =>
    obtain ⟨r, hr⟩ := round_isSome h.head
    rw [rounds, hr]
    exact ih h.tail

theorem roundsOf (env : Nat → RoundEnv) (i : Nat) (entries : List Entry) :
    List.Forall₂ RoundOf entries (rounds env i entries).1 := by
  induction entries generalizing i with
  | nil => exact .nil
  | cons x rest ih =>
    rw [rounds]
    split
    · exact List.forall₂_map_right_iff.2 (List.forall₂_same.2 fun y _ => roundOf_rest y)
    · next r hr => exact .cons (round_spec hr).1 (ih (i + 1))

theorem countP_of_ne {r : Entry × List Output} (h : RoundOf x r) {serial : Nat}
    (hne : x.serial ≠ serial) : r.2.countP (Output.isFor serial) = 0 := by
  rcases h.outputs with he | ⟨ret, he, -⟩
  · rw [he, List.countP_nil]
  · rw [he, List.countP_singleton, Output.isFor, decide_eq_false hne]
    rfl

theorem countP_of_notMem {rs : List (Entry × List Output)} (h : List.Forall₂ RoundOf entries rs)
    {serial : Nat} (hserial : serial ∉ entries.map Entry.serial) :
    (rs.flatMap Prod.snd).countP (Output.isFor serial) = 0 := by
  induction h with
  | nil => rfl
  | @cons x r entries rs hr _ ih =>
    rw [List.map_cons, List.mem_cons, not_or] at hserial
    rw [List.flatMap_cons, List.countP_append, ih hserial.2, countP_of_ne hr (Ne.symm hserial.1)]

/-- The signals for a request of the list are those of its round. -/
theorem rounds_countP {env : Nat → RoundEnv} {i : Nat} (h : Readable env i entries)
    (hserial : (entries.map Entry.serial).Nodup) {k : Nat} (hx : entries[k]? = some x) :
    ((rounds env i entries).1.flatMap Prod.snd).countP (Output.isFor x.serial) =
      if x.Due (env (i + k)) then 1 else 0 := by
  induction entries generalizing i k with
  | nil => simp at hx
  | cons y rest ih =>
    obtain ⟨r, hr⟩ := round_isSome h.head
    obtain ⟨hround, houts⟩ := round_spec hr
    rw [List.map_cons, List.nodup_cons] at hserial
    rw [rounds, hr, List.flatMap_cons, List.countP_append]
    cases k with
    | zero =>
      obtain rfl : y = x := by simpa using hx
      rw [countP_of_notMem (roundsOf env (i + 1) rest) hserial.1, houts, Nat.add_zero, Nat.add_zero]
      split
      · simp [Output.isFor]
      · rfl
    | succ k =>
      have hx : rest[k]? = some x := by simpa using hx
      have hne : y.serial ≠ x.serial := fun he =>
        hserial.1 (he ▸ List.mem_map_of_mem (List.mem_of_getElem? hx))
      rw [countP_of_ne hround hne, Nat.zero_add, ih h.tail hserial.2 hx]
      congr 3
      omega

/-! ## The invariant -/

namespace Server

/-- What holds all along a run: the numbers are distinct, and who has been
signalled for the only time, or has lost his connection, gets no more
signals. -/
structure Inv (t : Server × List Output) : Prop where
  alive : t.1.crashed = false
  serials : (t.1.reqs.map Entry.serial).Nodup
  below : ∀ x ∈ t.1.reqs, x.serial < t.1.nextSerial
  conns : (t.1.clients.map Client.conn).Nodup
  clients : ∀ c ∈ t.1.clients, c.conn < t.1.accepted ∧ 0 ≤ c.ci.sd
  sds : ∀ x ∈ t.1.reqs, x.conn ≠ none → 0 ≤ x.req.sd
  entries : ∀ x ∈ t.1.reqs, ∀ conn, x.conn = some conn → conn < t.1.accepted
  signalled : ∀ y ret, .signalled y ret ∈ t.2 → y.serial < t.1.nextSerial ∧
    ∀ x ∈ t.1.reqs, x.serial = y.serial → (x.OnceOnly ↔ y.OnceOnly) ∧ (y.OnceOnly → ¬ x.Enabled)
  closed : ∀ conn, .closed conn ∈ t.2 → conn < t.1.accepted ∧ (∀ c ∈ t.1.clients, c.conn ≠ conn) ∧
    ∀ x ∈ t.1.reqs, x.conn = some conn → Spent x
  onceOnly : t.2.Pairwise fun o o' => ∀ x ret y ret',
    o = .signalled x ret → o' = .signalled y ret' → x.serial = y.serial → ¬ x.OnceOnly ∧ ¬ y.OnceOnly
  noneAfterClose : t.2.Pairwise fun o o' => ∀ conn x ret,
    o = .closed conn → o' = .signalled x ret → x.conn ≠ some conn

theorem start_inv (n : Notifyd) : Inv (start n, []) where
  alive := rfl
  serials := by
    have : (start n).reqs.map Entry.serial = n.reqs.zipIdx.map Prod.snd := by
      rw [start, List.map_map]
      rfl
    rw [this, List.zipIdx_map_snd]
    exact List.nodup_range'
  below := by
    intro x hx
    obtain ⟨⟨req, i⟩, hmem, rfl⟩ := List.mem_map.1 hx
    have := (List.mem_zipIdx hmem).2.1
    change i < n.reqs.length
    simpa using this
  conns := List.nodup_nil
  clients := nofun
  sds := by
    intro x hx hconn
    obtain ⟨⟨req, i⟩, -, rfl⟩ := List.mem_map.1 hx
    exact absurd rfl hconn
  entries := by
    intro x hx conn hconn
    obtain ⟨⟨req, i⟩, -, rfl⟩ := List.mem_map.1 hx
    cases hconn
  signalled := nofun
  closed := nofun
  onceOnly := .nil
  noneAfterClose := .nil

variable {s : Server} {outs : List Output}

theorem Inv.of_sublist {s' : Server} (h : Inv (s, outs)) (hentries : s'.reqs.Sublist s.reqs)
    (hclients : s'.clients = s.clients) (haccepted : s'.accepted = s.accepted)
    (hnext : s.nextSerial ≤ s'.nextSerial) (hcrashed : s'.crashed = s.crashed) :
    Inv (s', outs) where
  alive := hcrashed.trans h.alive
  serials := h.serials.sublist (hentries.map _)
  below := fun x hx => (h.below x (hentries.subset hx)).trans_le hnext
  conns := by simpa only [hclients] using h.conns
  clients := by simpa only [hclients, haccepted] using h.clients
  sds := fun x hx => h.sds x (hentries.subset hx)
  entries := fun x hx => haccepted ▸ h.entries x (hentries.subset hx)
  signalled := fun y ret hy => ⟨(h.signalled y ret hy).1.trans_le hnext,
    fun x hx => (h.signalled y ret hy).2 x (hentries.subset hx)⟩
  closed := fun conn hconn => ⟨haccepted ▸ (h.closed conn hconn).1,
    by simpa only [hclients] using (h.closed conn hconn).2.1,
    fun x hx => (h.closed conn hconn).2.2 x (hentries.subset hx)⟩
  onceOnly := h.onceOnly
  noneAfterClose := h.noneAfterClose

/-! ## Clients -/

theorem connect_inv (ci : ClientInfo) (h : Inv (s, outs)) : Inv (s.connect ci, outs) := by
  unfold connect
  split
  case isTrue => exact h
  case isFalse hsd =>
    split
    case isFalse => exact h
    case isTrue =>
      refine { h with conns := ?_, clients := ?_, entries := ?_, closed := ?_ }
      · rw [List.map_append, List.map_singleton, ← List.concat_eq_append, List.nodup_concat]
        refine ⟨fun hmem => ?_, h.conns⟩
        obtain ⟨c, hc, he⟩ := List.mem_map.1 hmem
        have := (h.clients c hc).1
        exact absurd he (Nat.ne_of_lt this)
      · intro c hc
        rcases List.mem_append.1 hc with hc | hc
        · exact ⟨Nat.lt_succ_of_lt (h.clients c hc).1, (h.clients c hc).2⟩
        · rw [List.mem_singleton.1 hc]
          exact ⟨Nat.lt_succ_self _, Int32.not_lt.1 hsd⟩
      · exact fun x hx conn hconn => Nat.lt_succ_of_lt (h.entries x hx conn hconn)
      · intro conn hconn
        obtain ⟨hlt, hclients, hentries⟩ := h.closed conn hconn
        refine ⟨Nat.lt_succ_of_lt hlt, ?_, hentries⟩
        intro c hc
        rcases List.mem_append.1 hc with hc | hc
        · exact hclients c hc
        · rw [List.mem_singleton.1 hc]
          exact (Nat.ne_of_lt hlt).symm

variable {c : Client}

/-- What is registered with the next message has a number of its own. -/
theorem registered_inv {s' : Server} {x : Entry} (h : Inv (s, outs)) (hc : c ∈ s.clients)
    (hreqs : s'.reqs = s.reqs ++ [x]) (hserial : x.serial = s.nextSerial) (hsd : x.req.sd = c.ci.sd)
    (hconn : x.conn = some c.conn) (hclients : s'.clients = s.clients)
    (haccepted : s'.accepted = s.accepted) (hnext : s'.nextSerial = s.nextSerial + 1)
    (hcrashed : s'.crashed = s.crashed) : Inv (s', outs) := by
  have hmem : ∀ {y}, y ∈ s'.reqs → y ∈ s.reqs ∨ y = x := fun hy =>
    (List.mem_append.1 (hreqs ▸ hy)).imp_right List.mem_singleton.1
  refine {
    alive := hcrashed.trans h.alive
    serials := ?_, below := ?_
    conns := by simpa only [hclients] using h.conns
    clients := by simpa only [hclients, haccepted] using h.clients
    sds := ?_, entries := ?_, signalled := ?_, closed := ?_
    onceOnly := h.onceOnly
    noneAfterClose := h.noneAfterClose }
  · dsimp only
    rw [hreqs, List.map_append, List.map_singleton, ← List.concat_eq_append, List.nodup_concat]
    refine ⟨fun hold => ?_, h.serials⟩
    obtain ⟨y, hy, he⟩ := List.mem_map.1 hold
    exact absurd (he.trans hserial) (Nat.ne_of_lt (h.below y hy))
  · intro y hy
    dsimp only
    rw [hnext]
    rcases hmem hy with hy | rfl
    · exact Nat.lt_succ_of_lt (h.below y hy)
    · exact hserial ▸ Nat.lt_succ_self _
  · intro y hy hne
    rcases hmem hy with hy | rfl
    · exact h.sds y hy hne
    · exact hsd ▸ (h.clients c hc).2
  · intro y hy conn he
    dsimp only
    rw [haccepted]
    rcases hmem hy with hy | rfl
    · exact h.entries y hy conn he
    · obtain rfl := Option.some.inj (hconn.symm.trans he)
      exact (h.clients c hc).1
  · intro y ret hy
    dsimp only
    rw [hnext]
    have hlt := (h.signalled y ret hy).1
    refine ⟨Nat.lt_succ_of_lt hlt, fun z hz he => ?_⟩
    rcases hmem hz with hz | rfl
    · exact (h.signalled y ret hy).2 z hz he
    · exact absurd (he.symm.trans hserial) (Nat.ne_of_lt hlt)
  · intro conn hclosed
    dsimp only
    rw [haccepted, hclients]
    obtain ⟨hlt, hnone, hspent⟩ := h.closed conn hclosed
    refine ⟨hlt, hnone, fun z hz he => ?_⟩
    rcases hmem hz with hz | rfl
    · exact hspent z hz he
    · exact absurd (Option.some.inj (hconn.symm.trans he)) (hnone c hc)

/-- What a message makes of the list: some requests are gone, or one is there
that it has registered. -/
theorem answerClient_reqs (entry : NfyReq → Entry) (d : Daemon Entry) (ci : ClientInfo)
    (msg : NfyNewRqMsg) (env : RequestEnv) :
    (answerClient entry d ci msg env).1.reqs.Sublist d.reqs ∨
      ∃ req, req.sd = ci.sd ∧ (answerClient entry d ci msg env).1.reqs = d.reqs ++ [entry req] := by
  have hflush : ∀ d' : Daemon Entry, (flushRequestList env.flush d').reqs.Sublist d'.reqs := by
    intro d'
    refine (List.filter_sublist.map Prod.fst).trans ?_
    rw [List.zipIdx_map_fst]
  unfold answerClient
  split
  · exact .inl (.refl _)
  · split
    · dsimp only
      unfold registerRequest
      split
      · exact .inl (.refl _)
      · split
        · exact .inl (.refl _)
        · exact .inr ⟨_, rfl, rfl⟩
    · split
      · dsimp only
        unfold removeRequestWithHandle
        split
        · exact .inl (.refl _)
        · dsimp only
          split
          · exact .inl ((hflush _).trans List.eraseP_sublist)
          · exact .inl List.eraseP_sublist
      · split <;> exact .inl (.refl _)

theorem request_inv (msg : NfyNewRqMsg) (env : RequestEnv) (hc : c ∈ s.clients) (h : Inv (s, outs)) :
    Inv ((request s c msg env).1, outs) := by
  rcases answerClient_reqs (fun req => ⟨req, s.nextSerial, some c.conn⟩) s.toDaemon c.ci msg env with
    hsub | ⟨req, hsd, hreqs⟩
  · exact h.of_sublist hsub rfl rfl (Nat.le_succ _) rfl
  · exact registered_inv h hc hreqs rfl hsd rfl rfl rfl rfl rfl

theorem request_clients (msg : NfyNewRqMsg) (env : RequestEnv) :
    (request s c msg env).1.clients = s.clients := rfl

/-- Closing a connection keeps it if none of its requests can get a signal
any more. -/
theorem closeClientSocket_inv (hc : c ∈ s.clients)
    (hspent : ∀ x ∈ s.reqs, x.conn = some c.conn → Spent x) (h : Inv (s, outs)) :
    Inv ((closeClientSocket s c).1, outs ++ (closeClientSocket s c).2) := by
  have hentries : (Evlnotifyd.closeClientSocket s.toDaemon).reqs.Sublist s.reqs := List.filter_sublist
  have hclients : (s.clients.filter fun c' => c'.conn ≠ c.conn).Sublist s.clients := List.filter_sublist
  have hkept : Inv ({ s with toDaemon := Evlnotifyd.closeClientSocket s.toDaemon }, outs) :=
    h.of_sublist hentries rfl rfl le_rfl rfl
  have hmem : ∀ {o}, o ∈ outs ++ [Output.closed c.conn] → o ∈ outs ∨ o = .closed c.conn := fun ho =>
    (List.mem_append.1 ho).imp_right List.mem_singleton.1
  refine { hkept with
    conns := h.conns.sublist (hclients.map _)
    clients := fun c' hc' => h.clients c' (hclients.subset hc')
    signalled := ?_, closed := ?_, onceOnly := ?_, noneAfterClose := ?_ }
  · intro y ret hy
    rcases hmem hy with hy | hy
    · exact hkept.signalled y ret hy
    · cases hy
  · intro conn hconn
    rcases hmem hconn with hconn | hconn
    · obtain ⟨hlt, hnone, hspent'⟩ := hkept.closed conn hconn
      exact ⟨hlt, fun c' hc' => hnone c' (hclients.subset hc'), hspent'⟩
    · obtain rfl := Output.closed.inj hconn
      refine ⟨(h.clients c hc).1, ?_, fun x hx => hspent x (hentries.subset hx)⟩
      intro c' hc'
      simpa using (List.mem_filter.1 hc').2
  · refine List.pairwise_append.2 ⟨h.onceOnly, List.pairwise_singleton _ _, ?_⟩
    intro o _ o' ho' x ret y ret' _ he
    rw [List.mem_singleton.1 ho'] at he
    cases he
  · refine List.pairwise_append.2 ⟨h.noneAfterClose, List.pairwise_singleton _ _, ?_⟩
    intro o _ o' ho' conn x ret _ he
    rw [List.mem_singleton.1 ho'] at he
    cases he

/-! ## Events -/

variable {entries : List Entry} {rs : List (Entry × List Output)}

/-- The requests after the rounds have the same numbers, in order. -/
theorem map_serial_rounds (h : List.Forall₂ RoundOf entries rs) :
    (rs.map Prod.fst).map Entry.serial = entries.map Entry.serial := by
  induction h with
  | nil => rfl
  | cons hr _ ih => rw [List.map_cons, List.map_cons, List.map_cons, ih, hr.serial]

theorem exists_roundOf (h : List.Forall₂ RoundOf entries rs) {r : Entry × List Output} (hr : r ∈ rs) :
    ∃ x ∈ entries, RoundOf x r := by
  induction h with
  | nil => cases hr
  | @cons x r' entries rs hr' _ ih =>
    rcases List.mem_cons.1 hr with rfl | hr
    · exact ⟨x, List.mem_cons_self, hr'⟩
    · obtain ⟨y, hy, hround⟩ := ih hr
      exact ⟨y, List.mem_cons_of_mem x hy, hround⟩

theorem mem_outputs (h : List.Forall₂ RoundOf entries rs) {o : Output}
    (ho : o ∈ rs.flatMap Prod.snd) :
    ∃ r ∈ rs, ∃ x ∈ entries, RoundOf x r ∧ ∃ ret, o = .signalled x ret ∧ x.Enabled ∧
      x.req.procCmd.isSome ∧ (x.OnceOnly → ¬ r.1.Enabled) := by
  obtain ⟨r, hr, ho⟩ := List.mem_flatMap.1 ho
  obtain ⟨x, hx, hround⟩ := exists_roundOf h hr
  rcases hround.outputs with he | ⟨ret, he, hrest⟩
  · rw [he] at ho
    cases ho
  · rw [he, List.mem_singleton] at ho
    exact ⟨r, hr, x, hx, hround, ret, ho, hrest⟩

theorem outputs_pairwise (h : List.Forall₂ RoundOf entries rs)
    (hserial : (entries.map Entry.serial).Nodup) :
    (rs.flatMap Prod.snd).Pairwise fun o o' => ∀ x ret y ret',
      o = .signalled x ret → o' = .signalled y ret' → x.serial ≠ y.serial := by
  induction h with
  | nil => exact .nil
  | @cons x r entries rs hr hrs ih =>
    rw [List.map_cons, List.nodup_cons] at hserial
    rw [List.flatMap_cons, List.pairwise_append]
    refine ⟨?_, ih hserial.2, ?_⟩
    · rcases hr.outputs with he | ⟨ret, he, -⟩
      · rw [he]
        exact .nil
      · rw [he]
        exact List.pairwise_singleton _ _
    · intro o ho o' ho' y ret z ret' hy hz he
      obtain ⟨-, -, z', hz', -, ret'', hz'', -⟩ := mem_outputs hrs ho'
      obtain rfl : z = z' := (Output.signalled.inj (hz.symm.trans hz'')).1
      rcases hr.outputs with hr' | ⟨ret₀, hr', -⟩
      · rw [hr'] at ho
        cases ho
      · rw [hr', List.mem_singleton, hy] at ho
        obtain rfl := (Output.signalled.inj ho).1
        exact hserial.1 (he ▸ List.mem_map_of_mem hz')

variable {env : Nat → RoundEnv}

theorem processEvent_inv (hread : Readable env 0 s.reqs) (h : Inv (s, outs)) :
    Inv ((s.processEvent env).1, outs ++ (s.processEvent env).2) := by
  have hrounds := roundsOf env 0 s.reqs
  have hcrashed := rounds_not_crashed hread
  unfold processEvent
  generalize rounds env 0 s.reqs = rc at hrounds hcrashed
  obtain ⟨rs, crashed⟩ := rc
  dsimp only at hrounds hcrashed ⊢
  have hmem : ∀ {x}, x ∈ rs.map Prod.fst → ∃ r ∈ rs, r.1 = x ∧ ∃ y ∈ s.reqs, RoundOf y r := by
    intro x hx
    obtain ⟨r, hr, rfl⟩ := List.mem_map.1 hx
    exact ⟨r, hr, rfl, exists_roundOf hrounds hr⟩
  have hserials : (rs.map Prod.fst).map Entry.serial = s.reqs.map Entry.serial :=
    map_serial_rounds hrounds
  have hnew : ∀ {o}, o ∈ rs.flatMap Prod.snd → ∃ r ∈ rs, ∃ x ∈ s.reqs, RoundOf x r ∧ ∃ ret,
      o = .signalled x ret ∧ x.Enabled ∧ x.req.procCmd.isSome ∧ (x.OnceOnly → ¬ r.1.Enabled) :=
    fun ho => mem_outputs hrounds ho
  refine { h with
    alive := hcrashed
    serials := hserials ▸ h.serials
    below := ?_, sds := ?_, entries := ?_, signalled := ?_, closed := ?_, onceOnly := ?_
    noneAfterClose := ?_ }
  · intro x hx
    obtain ⟨r, -, rfl, y, hy, hround⟩ := hmem hx
    exact hround.serial ▸ h.below y hy
  · intro x hx hconn
    obtain ⟨r, -, rfl, y, hy, hround⟩ := hmem hx
    rw [hround.sd]
    exact h.sds y hy (hround.conn ▸ hconn)
  · intro x hx conn hconn
    obtain ⟨r, -, rfl, y, hy, hround⟩ := hmem hx
    exact h.entries y hy conn (hround.conn ▸ hconn)
  · intro y ret hy
    rcases List.mem_append.1 hy with hy | hy
    · obtain ⟨hlt, hold⟩ := h.signalled y ret hy
      refine ⟨hlt, ?_⟩
      intro x hx he
      obtain ⟨r, -, rfl, z, hz, hround⟩ := hmem hx
      obtain ⟨honce, hdisabled⟩ := hold z hz (hround.serial ▸ he)
      exact ⟨hround.onceOnly.trans honce, fun ho hen => hdisabled ho (hround.enabled hen)⟩
    · obtain ⟨r, hr, y', hy', hround, ret', he', -, -, hoff⟩ := hnew hy
      obtain rfl : y = y' := (Output.signalled.inj he').1
      refine ⟨h.below y hy', ?_⟩
      intro x hx he
      obtain rfl : x = r.1 := List.inj_on_of_nodup_map (hserials ▸ h.serials) hx
        (List.mem_map_of_mem hr) (he.trans hround.serial.symm)
      exact ⟨hround.onceOnly, hoff⟩
  · intro conn hconn
    rcases List.mem_append.1 hconn with hconn | hconn
    · obtain ⟨hlt, hclients, hspent⟩ := h.closed conn hconn
      refine ⟨hlt, hclients, ?_⟩
      intro x hx he
      obtain ⟨r, -, rfl, y, hy, hround⟩ := hmem hx
      refine (hspent y hy (hround.conn ▸ he)).imp (fun hoff hen => hoff (hround.enabled hen)) ?_
      exact fun hcmd => hround.procCmd.trans hcmd
    · obtain ⟨_, _, _, _, _, _, he, _⟩ := hnew hconn
      cases he
  · refine List.pairwise_append.2 ⟨h.onceOnly, ?_, ?_⟩
    · refine (outputs_pairwise hrounds h.serials).imp fun hne x ret y ret' hx hy he => ?_
      exact absurd he (hne x ret y ret' hx hy)
    · intro o ho o' ho' x ret y ret' hx hy he
      obtain ⟨-, -, y', hy', -, ret'', he', henabled, -⟩ := hnew ho'
      obtain rfl : y = y' := (Output.signalled.inj (hy.symm.trans he')).1
      obtain ⟨honce, hoff⟩ := (h.signalled x ret (hx ▸ ho)).2 y hy' he.symm
      have hnot : ¬ x.OnceOnly := fun h => hoff h henabled
      exact ⟨hnot, fun h => hnot (honce.1 h)⟩
  · refine List.pairwise_append.2 ⟨h.noneAfterClose, ?_, ?_⟩
    · refine List.pairwise_of_forall_mem_list ?_
      intro o ho o' _ conn x ret hclosed
      obtain ⟨_, _, _, _, _, _, he, _⟩ := hnew ho
      rw [hclosed] at he
      cases he
    · intro o ho o' ho' conn x ret hclosed hx hconn
      obtain ⟨-, -, x', hx', -, ret', he, henabled, hcmd, -⟩ := hnew ho'
      obtain rfl : x = x' := (Output.signalled.inj (hx.symm.trans he)).1
      rcases (h.closed conn (hclosed ▸ ho)).2.2 x hx' hconn with hoff | hnone
      · exact hoff henabled
      · rw [hnone] at hcmd
        cases hcmd

/-! ## Runs -/

variable {t : Server × List Output}

theorem readable_of_kept (h : Kept t (.event env)) : Readable env 0 t.1.reqs := by
  intro k x hx
  rw [Nat.zero_add]
  exact h k x hx

theorem stepTrace_inv (t : Server × List Output) (a : Act) (h : Inv t) (hkept : Kept t a) :
    Inv (stepTrace t a) := by
  unfold stepTrace step
  rw [if_neg (by simp [h.alive])]
  cases a with
  | connect ci =>
    rw [List.append_nil]
    exact connect_inv ci h
  | clientRequest conn msg env =>
    dsimp only
    cases hc : t.1.clients.find? fun c => c.conn = conn with
    | none =>
      rw [List.append_nil]
      exact h
    | some c =>
      have hmem : c ∈ t.1.clients := List.mem_of_find?_eq_some hc
      have hconn : c.conn = conn := by simpa using List.find?_some hc
      have hreq : Inv ((request t.1 c msg env).1, t.2) := request_inv msg env hmem h
      dsimp only
      unfold processClientRequest
      split
      · next hclose =>
          refine closeClientSocket_inv ?_ ?_ hreq
          · rw [request_clients]
            exact hmem
          · rw [hconn]
            exact hkept c hc hclose
      · rw [List.append_nil]
        exact hreq
  | event env => exact processEvent_inv (readable_of_kept hkept) h

theorem trace_inv {n : Notifyd} {as : List Act} (h : Meets stepTrace Kept (start n, []) as) :
    Inv (trace n as) :=
  run_invariant_of_meets Inv stepTrace_inv (start_inv n) h

/-- The signals of an event in a run in which every step meets the
condition. -/
theorem countP_event (h : Inv t) (hkept : Kept t (.event env)) {i : Nat} {x : Entry}
    (hx : t.1.reqs[i]? = some x) :
    (step t.1 (.event env)).2.countP (Output.isFor x.serial) = if x.Due (env i) then 1 else 0 := by
  rw [step, if_neg (by simp [h.alive])]
  have := rounds_countP (readable_of_kept hkept) h.serials hx
  rwa [Nat.zero_add] at this

theorem trace_append (n : Notifyd) (as bs : List Act) :
    trace n (as ++ bs) = run stepTrace (trace n as) bs := run_append stepTrace _ as bs

/-- The event after which every request that is enabled is due. -/
def matchAll (entries : List Entry) (i : Nat) : RoundEnv where
  isMatch := true
  cmdline := entries[i]?.bind fun x => x.req.procCmd
  sigqueue := 0

theorem due_matchAll {i : Nat} {x : Entry} (hx : entries[i]? = some x) (henabled : x.Enabled)
    (hcmd : x.req.procCmd ≠ none) : x.Due (matchAll entries i) := by
  refine ⟨henabled, .inr rfl, ?_⟩
  rw [Entry.Alive, matchAll, hx]
  exact ⟨Option.isSome_iff_ne_none.2 hcmd, rfl⟩

theorem kept_matchAll (t : Server × List Output) : Kept t (.event (matchAll t.1.reqs)) := by
  intro i x hx _ _ hline
  rwa [matchAll, hx] at hline

/-- A connection that is closed with a request left that can get a signal:
the request gets one when the next record matches. -/
theorem not_delivery_of_not_kept {n : Notifyd} {as : List Act} {conn : Nat} {msg : NfyNewRqMsg}
    {env : RequestEnv} (h : Inv (trace n as)) (hkept : ¬ Kept (trace n as) (.clientRequest conn msg env)) :
    ∃ ev, ¬ Delivery n (as ++ [.clientRequest conn msg env, .event ev]) := by
  obtain ⟨s, outs, ht⟩ : ∃ s outs, trace n as = (s, outs) := ⟨_, _, rfl⟩
  rw [ht] at h hkept
  unfold Kept at hkept
  push Not at hkept
  dsimp only at hkept
  have halive : s.crashed = false := h.alive
  obtain ⟨c, hc, hclose, x, hx, hconn, hspent⟩ := hkept
  obtain ⟨henabled, hcmd⟩ := not_or.1 hspent
  have hreq := request_inv msg env (List.mem_of_find?_eq_some hc) h
  have hfound : c.conn = conn := by simpa using List.find?_some hc
  -- the request outlives its connection
  let s' := (closeClientSocket (request s c msg env).1 c).1
  have hleft : x ∈ s'.reqs := by
    have hsd := hreq.sds x hx (by rw [hconn]; exact Option.some_ne_none conn)
    refine List.mem_filter.2 ⟨hx, decide_eq_true fun he => ?_⟩
    have hfree : x.req.sd = clientSlotAvailable := he
    rw [hfree] at hsd
    exact absurd hsd (by decide)
  have hserials : (s'.reqs.map Entry.serial).Nodup :=
    hreq.serials.sublist (List.filter_sublist.map _)
  have halive' : s'.crashed = false := hreq.alive
  have hstep : run stepTrace (s, outs) [.clientRequest conn msg env] = (s', outs ++ [.closed conn]) := by
    rw [run_cons, run_nil, stepTrace, step, if_neg (by simp [halive])]
    simp only [hc]
    rw [processClientRequest, if_pos hclose, ← hfound]
    rfl
  refine ⟨matchAll s'.reqs, fun hdelivery => ?_⟩
  have horder := hdelivery.noneAfterClose
  rw [trace_append, ht, show [Act.clientRequest conn msg env, Act.event (matchAll s'.reqs)] =
    [Act.clientRequest conn msg env] ++ [Act.event (matchAll s'.reqs)] from rfl, run_append, hstep,
    run_cons, run_nil, stepTrace] at horder
  -- there is a signal among the outputs of the event, and it is for it
  obtain ⟨k, hk⟩ := List.getElem?_of_mem hleft
  have hdue : x.Due (matchAll s'.reqs (0 + k)) := by
    rw [Nat.zero_add]
    exact due_matchAll hk (not_not.1 henabled) hcmd
  have hcount := rounds_countP (readable_of_kept (kept_matchAll (s', []))) hserials hk
  rw [if_pos hdue] at hcount
  obtain ⟨o, ho, hfor⟩ := List.countP_pos_iff.1 (hcount ▸ Nat.one_pos)
  obtain ⟨-, -, y, hy, -, ret, rfl, -⟩ := mem_outputs (roundsOf (matchAll s'.reqs) 0 s'.reqs) ho
  have hserial : y.serial = x.serial := of_decide_eq_true hfor
  obtain rfl : y = x := List.inj_on_of_nodup_map hserials hy hleft hserial
  have hout : (step s' (.event (matchAll s'.reqs))).2 =
      (rounds (matchAll s'.reqs) 0 s'.reqs).1.flatMap Prod.snd := by
    rw [step, if_neg (by simp [halive'])]
    rfl
  dsimp only at horder
  rw [hout] at horder
  exact (List.pairwise_append.1 horder).2.2 (.closed conn) (by simp) _ ho conn y ret rfl rfl hconn

/-! ## The daemon of `Notifyd` -/

/-- What `processEvent` finds, as the steps of `Notifyd` have it. -/
def answerOf (entries : List Entry) (env : Nat → RoundEnv) (i : Nat) : EventAnswer where
  isMatch := (env i).isMatch
  validateProc := entries[i]?.any fun x => x.Alive (env i)
  sigqueue := (env i).sigqueue

theorem round_req {x : Entry} {env : RoundEnv} {r : Entry × List Output} (h : x.round env = some r) :
    r.1.req = notify x.req ⟨env.isMatch, decide (x.Alive env), env.sigqueue⟩ := by
  unfold Entry.round at h
  split at h
  case isTrue hdisabled =>
    obtain rfl : (x, []) = r := Option.some.inj h
    rw [notify, if_pos hdisabled]
  case isFalse henabled =>
    split at h
    case isTrue hmatch =>
      obtain rfl : (x, []) = r := Option.some.inj h
      rw [notify, if_neg henabled, if_pos hmatch]
    case isFalse hmatch =>
      split at h
      case h_1 => cases h
      case h_2 alive halive =>
        obtain rfl := Option.some.inj h
        have : decide (x.Alive env) = alive := by simp [alive_iff halive]
        rw [this]

theorem rounds_req {i : Nat} (h : Readable env i entries) :
    ((rounds env i entries).1.map Prod.fst).map Entry.req =
      (entries.zipIdx i).map fun (x, k) =>
        notify x.req ⟨(env k).isMatch, decide (x.Alive (env k)), (env k).sigqueue⟩ := by
  induction entries generalizing i with
  | nil => rfl
  | cons x rest ih =>
    obtain ⟨r, hr⟩ := round_isSome h.head
    rw [rounds, hr, List.zipIdx_cons, List.map_cons, List.map_cons, List.map_cons, round_req hr]
    exact congrArg _ (ih h.tail)

theorem notifyd_processEvent (h : Readable env 0 s.reqs) :
    (s.processEvent env).1.notifyd = Evlnotifyd.processEvent s.notifyd (answerOf s.reqs env) := by
  have hreqs : ((rounds env 0 s.reqs).1.map Prod.fst).map Entry.req =
      (s.notifyd.reqs.zipIdx).map fun x => notify x.1 (answerOf s.reqs env x.2) := by
    rw [rounds_req h, notifyd, plain, List.zipIdx_map, List.map_map]
    refine List.map_congr_left fun y hmem => ?_
    obtain ⟨x, k⟩ := y
    have hx : s.reqs[k]? = some x := List.mem_zipIdx_iff_getElem?.1 hmem
    simp [answerOf, hx]
  exact congrArg (fun reqs => { s.notifyd with reqs }) hreqs

/-! ### What is kept with a request does not matter -/

variable (d : Daemon Entry)

theorem plain_registerRequest {entry : NfyReq → Entry} (hentry : ∀ req, (entry req).req = req)
    (ci : ClientInfo) (msg : NfyNewRqMsg) (env : RequestEnv) :
    Evlnotifyd.registerRequest (fun req => req) (plain d) ci msg env =
      (plain (Evlnotifyd.registerRequest entry d ci msg env).1,
        (Evlnotifyd.registerRequest entry d ci msg env).2) := by
  unfold Evlnotifyd.registerRequest
  split
  · rfl
  · split
    · rfl
    · simp [plain, hentry]

theorem plain_flushRequestList (env : FlushEnv) :
    flushRequestList env (plain d) = plain (flushRequestList env d) := by
  have hreqs : removeZombieRequestsInList env.validateProc (plain d).reqs =
      (removeZombieRequestsInList env.validateProc d.reqs).map Entry.req := by
    rw [removeZombieRequestsInList, removeZombieRequestsInList, plain, List.zipIdx_map, List.filter_map,
      List.map_map, List.map_map]
    rfl
  unfold flushRequestList
  dsimp only
  rw [hreqs, List.map_map]
  rfl

theorem plain_findRequest (handle : UInt64) :
    findRequest (plain d).reqs handle = (findRequest d.reqs handle).map Entry.req := by
  rw [findRequest, plain, List.find?_map]
  rfl

theorem plain_removeRequestWithHandle (handle : UInt64) (env : FlushEnv) :
    Evlnotifyd.removeRequestWithHandle (plain d) handle env =
      (plain (Evlnotifyd.removeRequestWithHandle d handle env).1,
        (Evlnotifyd.removeRequestWithHandle d handle env).2) := by
  have herase : { plain d with
      reqs := removeNode (plain d).reqs handle, listDirtyCtr := (plain d).listDirtyCtr + 1 } =
      plain { d with reqs := removeNode d.reqs handle, listDirtyCtr := d.listDirtyCtr + 1 } := by
    unfold plain removeNode
    rw [List.eraseP_map]
    rfl
  unfold Evlnotifyd.removeRequestWithHandle
  rw [plain_findRequest, herase]
  cases findRequest d.reqs handle with
  | none => rfl
  | some x =>
    dsimp only [Option.map_some]
    rw [plain_flushRequestList]
    split
    · rw [if_pos (by assumption)]
      rfl
    · rw [if_neg (by assumption)]

theorem plain_closeClientSocket :
    Evlnotifyd.closeClientSocket (plain d) = plain (Evlnotifyd.closeClientSocket d) := by
  unfold Evlnotifyd.closeClientSocket removeRequestsWithSD plain
  rw [List.filter_map]
  rfl

theorem plain_answerClient {entry : NfyReq → Entry} (hentry : ∀ req, (entry req).req = req)
    (ci : ClientInfo) (msg : NfyNewRqMsg) (env : RequestEnv) :
    answerClient (fun req => req) (plain d) ci msg env =
      (plain (answerClient entry d ci msg env).1, (answerClient entry d ci msg env).2) := by
  unfold answerClient
  split
  · rfl
  · split
    · rw [plain_registerRequest d hentry]
    · split
      · rw [plain_removeRequestWithHandle]
      · split
        · unfold requestStatus
          rw [plain_findRequest]
          cases findRequest d.reqs msg.nhReqHandle <;> rfl
        · rfl

theorem notifyd_processClientRequest (s : Server) (c : Client) (msg : NfyNewRqMsg) (env : RequestEnv) :
    (s.processClientRequest c msg env).1.notifyd =
      (Evlnotifyd.processClientRequest (fun req => req) s.notifyd c.ci msg env).1 := by
  let entry (req : NfyReq) : Entry := ⟨req, s.nextSerial, some c.conn⟩
  have hentry : ∀ req, (entry req).req = req := fun _ => rfl
  have hanswer := plain_answerClient s.toDaemon hentry c.ci msg env
  have hnotifyd : s.notifyd = plain s.toDaemon := rfl
  unfold processClientRequest Evlnotifyd.processClientRequest request
  rw [hnotifyd, hanswer]
  dsimp only
  split
  · exact (plain_closeClientSocket _).symm
  · rfl

/-- The step of `Notifyd` that goes with a step here, if there is one. -/
def actionOf (s : Server) : Act → Option Action
  | .connect _ => none
  | .clientRequest conn msg env =>
    (s.clients.find? fun c => c.conn = conn).map fun c => .clientRequest c.ci msg env
  | .event env => some (.event (answerOf s.reqs env))

theorem notifyd_step {a : Act} (h : Inv t) (hkept : Kept t a) :
    (step t.1 a).1.notifyd = run Evlnotifyd.step t.1.notifyd (actionOf t.1 a).toList := by
  unfold Server.step
  rw [if_neg (by simp [h.alive])]
  cases a with
  | connect ci =>
    dsimp only
    unfold connect
    split
    · rfl
    · split <;> rfl
  | clientRequest conn msg env =>
    dsimp only [actionOf]
    cases t.1.clients.find? fun c => c.conn = conn with
    | none => rfl
    | some c => exact notifyd_processClientRequest t.1 c msg env
  | event env => exact notifyd_processEvent (readable_of_kept hkept)

def actions : Server × List Output → List Act → List Action
  | _, [] => []
  | t, a :: as => (actionOf t.1 a).toList ++ actions (stepTrace t a) as

theorem run_notifyd {as : List Act} (h : Inv t) (hkept : Meets stepTrace Kept t as) :
    (run stepTrace t as).1.notifyd = run Evlnotifyd.step t.1.notifyd (actions t as) := by
  induction as generalizing t with
  | nil => rfl
  | cons a as ih =>
    rw [run_cons, ih (stepTrace_inv t a h hkept.1) hkept.2, actions, run_append]
    exact congrArg (run Evlnotifyd.step · (actions (stepTrace t a) as)) (notifyd_step h hkept.1)

/-- The daemon with its connections and signals keeps its requests, their
handles and its file as the daemon of `Notifyd` does that is given the same
messages and finds the same processes. -/
theorem trace_notifyd (n : Notifyd) (as : List Act) (h : Meets stepTrace Kept (start n, []) as) :
    (trace n as).1.notifyd = run Evlnotifyd.step n (actions (start n, []) as) := by
  have hstart : (start n).notifyd = n := by
    simp [notifyd, plain, start, Function.comp_def]
  rw [trace, run_notifyd (start_inv n) h, hstart]

theorem delivery_of_kept (n : Notifyd) :
    (∀ as, Meets stepTrace Kept (start n, []) as → Delivery n as) ∧
    ∀ as conn msg env, Meets stepTrace Kept (start n, []) as →
      ¬ Kept (trace n as) (.clientRequest conn msg env) →
      ∃ ev, ¬ Delivery n (as ++ [.clientRequest conn msg env, .event ev]) := by
  refine ⟨fun as h => ⟨?_, (trace_inv h).onceOnly, (trace_inv h).noneAfterClose⟩,
    fun as conn msg env h => not_delivery_of_not_kept (trace_inv h)⟩
  rintro pre env post rfl - i x hx
  have hmeets := meets_of_append h
  exact countP_event (trace_inv hmeets.1) hmeets.2.1 hx

/-! ## Runs of one client -/

theorem kept_of_commands (h : ∀ x ∈ t.1.reqs, x.req.procCmd.isSome) : Kept t (.event env) :=
  fun _ x hx _ _ _ => h x (List.mem_of_getElem? hx)

def addMsg (flags : UInt32) : NfyNewRqMsg := ⟨nmtNewRequest, 0, ⟨sigevSignal, 10, 7⟩, flags⟩

/-- What is found at a message, or at the end of the connection. -/
def clientEnv (readOk : Bool) : RequestEnv where
  readOk := readOk
  queryStr := nullqu
  queryCreate := true
  procCmd := some [0x61]
  append := .succeeded
  flush := ⟨fun _ => true, .succeeded⟩
  writeOk := true

def eventEnv : Nat → RoundEnv := fun _ => ⟨true, some [0x61], 0⟩

def onceRun : List Act :=
  [.connect ⟨5, 100⟩, .clientRequest 0 (addMsg posixLogOnceOnly) (clientEnv true), .event eventEnv,
    .event eventEnv]

theorem delivery_onceRun : Delivery (initial none) onceRun ∧
    (trace (initial none) onceRun).2.countP (Output.isFor 0) = 1 := by
  refine ⟨(delivery_of_kept (initial none)).1 onceRun ⟨trivial, ?_, ?_, ?_, trivial⟩, by decide⟩
  · exact fun c _ hclose => absurd hclose Bool.false_ne_true
  · exact kept_of_commands (by decide)
  · exact kept_of_commands (by decide)

theorem trace_notifyd_onceRun : (trace (initial none) onceRun).1.notifyd =
    run Evlnotifyd.step (initial none) (actions (start (initial none), []) onceRun) := by
  refine trace_notifyd (initial none) onceRun ⟨trivial, ?_, ?_, ?_, trivial⟩
  · exact fun c _ hclose => absurd hclose Bool.false_ne_true
  · exact kept_of_commands (by decide)
  · exact kept_of_commands (by decide)

/-- A request for every event, the end of the connection, and an event. -/
def leaveRun : List Act :=
  [.connect ⟨5, 100⟩, .clientRequest 0 (addMsg 0) (clientEnv true),
    .clientRequest 0 (addMsg 0) (clientEnv false), .event eventEnv]

def leftRequest : Entry where
  req := ⟨1, 100, 5, 0, ⟨sigevSignal, 10, 7⟩, none, some [0x61]⟩
  serial := 0
  conn := some 0

theorem leaveRun_signalled : ¬ ∀ n as, Delivery n as := by
  intro h
  have horder := (h (initial none) leaveRun).noneAfterClose
  have houts : (trace (initial none) leaveRun).2 = [.closed 0, .signalled leftRequest 0] := by
    decide
  rw [houts, List.pairwise_pair] at horder
  exact horder 0 leftRequest 0 rfl rfl rfl

end Server

end Evlog.Evlnotifyd
