/-
Evlog.Tmplmgmt.RedirectTheorems — where the redirections of
`evl_gettemplate` end.

A turn reads a template and, once it has it, releases the one of the turn
before (`obtained`, `released`). So what is obtained and not released is
the last of the chain, which is what is returned (`obtained_eq`). No pair
of facility and event type is redirected from twice; one that the chain
comes back to is read once more, and that ends it (`nodup_visited`).

What is returned is in memory as long as nothing that is handed out is
freed (`Owned`), always so with `TMPL_REUSE1CLONE`. Otherwise the table must
find what is in it (`ReadFine`).
-/
import Evlog.Tmplmgmt.ReuseTheorems

namespace Evlog.Tmplmgmt

open Evlog.Lib

/-! ## What a call does -/

section Chain

variable {R : Type} (flags : MgmtFlags) (host : Host R)

def obtained (s : GetState R) : Option Nat :=
  match s.mgr.readTemplate flags host s.key true with
  | .ok (.ok t, _) => some t
  | _ => none

def released (s : GetState R) : Option Nat := (obtained flags host s).bind fun _ => s.prevTmpl

def turnsOf (m : Mgr R) (event : Event R) : List (GetState R) :=
  turns (getTurn flags host event) getTurns ⟨m, event.key, [], none, none⟩

def visited (m : Mgr R) (event : Event R) : List FacEvent :=
  (turnsOf flags host m event).map GetState.key

def returned : Except Errno Nat → List Nat
  | .ok t => [t]
  | .error _ => []

variable {flags host} {event : Event R} {s s' : GetState R}

/-- A turn that ends the loop returns what it has read, or else what was in
hand. -/
theorem getTurn_stop {r : Except Errno Nat} {m' : Mgr R}
    (h : getTurn flags host event s = .stop (.ok (r, m'))) (hsame : s.lastValidTmpl = s.prevTmpl) :
    s.prevTmpl.toList ++ (obtained flags host s).toList =
      (released flags host s).toList ++ returned r := by
  unfold released obtained
  unfold getTurn at h
  split at h
  · cases h
  · rename_i hread
    rw [hread]
    cases h
    rw [hsame]
    cases s.prevTmpl <;> rfl
  · rename_i hread
    rw [hread]
    have hr : ∀ t' : Nat, r = .ok t' → s.prevTmpl.toList ++ (some t').toList =
        ((some t').bind fun _ => s.prevTmpl).toList ++ returned r := by
      intro t' heq
      rw [heq]
      rfl
    split at h
    · cases h
    · split at h
      · cases h
      · split at h
        · cases h
          exact hr _ rfl
        · split at h
          · cases h
          · cases h
            exact hr _ rfl
          · cases h

/-- A turn that goes on has the template in hand that it has read. -/
theorem getTurn_inHand {reported : List (Mgr R × FacEvent)}
    (h : getTurn flags host event s = .next s' reported) :
    ∃ t, obtained flags host s = some t ∧ s'.prevTmpl = some t ∧ s'.lastValidTmpl = some t := by
  unfold obtained
  unfold getTurn at h
  split at h
  · cases h
  · cases h
  · rename_i hread
    rw [hread]
    repeat' split at h
    all_goals cases h
    exact ⟨_, rfl, rfl, rfl⟩

/-- What is obtained is released, but for what is returned, by induction
on the turns. -/
theorem obtained_eq {fuel : Nat} {r : Except Errno Nat} {m' : Mgr R}
    {reported : List (Mgr R × FacEvent)} (hsame : s.lastValidTmpl = s.prevTmpl)
    (h : whileLoop (getTurn flags host event) fuel s = some (.ok (r, m'), reported)) :
    s.prevTmpl.toList ++
        (turns (getTurn flags host event) fuel s).filterMap (obtained flags host) =
      (turns (getTurn flags host event) fuel s).filterMap (released flags host) ++ returned r := by
  induction fuel generalizing s reported with
  | zero => cases h
  | succ fuel ih =>
    cases hbody : getTurn flags host event s with
    | stop res =>
      rw [whileLoop_stop hbody] at h
      cases h
      rw [turns_stop hbody, List.filterMap_cons, List.filterMap_nil, List.filterMap_cons,
        List.filterMap_nil]
      have hstop := getTurn_stop hbody hsame
      cases hob : obtained flags host s with
      | none =>
        simpa [released, hob] using hstop
      | some t =>
        simp only [released, hob, Option.bind_some] at hstop ⊢
        cases hprev : s.prevTmpl <;> simpa [hprev] using hstop
    | next s' now =>
      obtain ⟨t, hob, hprev', hlast'⟩ := getTurn_inHand hbody
      rw [whileLoop_next hbody, Option.map_eq_some_iff] at h
      obtain ⟨⟨res, later⟩, hrest, heq⟩ := h
      cases heq
      have hih := ih (hlast'.trans hprev'.symm) hrest
      rw [hprev'] at hih
      rw [turns_next hbody, List.filterMap_cons, List.filterMap_cons]
      simp only [released, hob, Option.bind_some]
      have hcons : t :: (turns (getTurn flags host event) fuel s').filterMap (obtained flags host) =
          (turns (getTurn flags host event) fuel s').filterMap (released flags host) ++
            returned r := hih
      rw [hcons]
      cases s.prevTmpl <;> rfl

/-- No pair is redirected from twice, by induction on the turns. -/
theorem nodup_visited (event : Event R) (fuel : Nat) (h : s.history.Nodup) :
    (s.history ++ ((turns (getTurn flags host event) fuel s).map GetState.key).dropLast).Nodup := by
  induction fuel generalizing s with
  | zero => simpa [turns] using h
  | succ fuel ih =>
    cases hbody : getTurn flags host event s with
    | stop res =>
      rw [turns_stop hbody]
      simpa using h
    | next s' now =>
      obtain ⟨hhistory, hnew⟩ := getTurn_next hbody
      have hnodup : s'.history.Nodup := by
        rw [hhistory]
        refine List.nodup_append.2 ⟨h, List.nodup_singleton _, ?_⟩
        intro a ha b hb heq
        rw [heq, List.mem_singleton.1 hb] at ha
        exact hnew ha
      have hih := ih hnodup
      rw [turns_next hbody, List.map_cons]
      cases hrest : (turns (getTurn flags host event) fuel s').map GetState.key with
      | nil => simpa using h
      | cons k ks =>
        rw [hrest, hhistory, List.append_assoc] at hih
        exact hih

end Chain

/-! ## What is handed out stays in memory -/

section Owned

variable {R : Type} {flags : MgmtFlags} {m m' : Mgr R} {held : List Nat} {t : Nat}

/-- The templates that are handed out are exclusive, or are clones of the
cache where these are reused. -/
def Owned (flags : MgmtFlags) (m : Mgr R) (held : List Nat) : Prop :=
  flags.reuse1Clone = false ∧ m.Inv held ∨
    flags.reuse1Clone = true ∧ ∃ cached, m.Reused cached ∧ ∀ t ∈ held, t ∈ cached

/-- What a read asks: that the table finds what is in it, and, unless
clones are reused, that the clone in the cache is not handed out. -/
structure ReadFine (flags : MgmtFlags) (host : Host R) (q : Mgr R × FacEvent) : Prop where
  fits : q.2.Fits
  near : q.1.hash.Near q.2
  free : flags.reuse1Clone = false → q.1.busy q.2 = false
  default : q.1.known q.2 = false → Mgr.onDisk host q.2 = false →
    q.2.toDefault.Fits ∧ (flags.reuse1Clone = false → q.1.busy q.2.toDefault = false)

def ReadsFine (flags : MgmtFlags) (host : Host R) (q : Mgr R × FacEvent) : Prop :=
  flags.ignoreAll = false → ReadFine flags host q

instance {R : Type} (flags : MgmtFlags) (host : Host R) (q : Mgr R × FacEvent) :
    Decidable (ReadFine flags host q) :=
  decidable_of_iff (q.2.Fits ∧ q.1.hash.Near q.2 ∧
      (flags.reuse1Clone = false → q.1.busy q.2 = false) ∧
      (q.1.known q.2 = false → Mgr.onDisk host q.2 = false →
        q.2.toDefault.Fits ∧ (flags.reuse1Clone = false → q.1.busy q.2.toDefault = false)))
    ⟨fun h => ⟨h.1, h.2.1, h.2.2.1, h.2.2.2⟩, fun h => ⟨h.fits, h.near, h.free, h.default⟩⟩

instance {R : Type} (flags : MgmtFlags) (host : Host R) (q : Mgr R × FacEvent) :
    Decidable (ReadsFine flags host q) :=
  inferInstanceAs (Decidable (_ → _))

theorem Owned.deref (h : Owned flags m held) (ht : t ∈ held) : ∃ tm, m.deref t = .ok tm := by
  cases h with
  | inl h =>
    obtain ⟨k, a, ⟨tm, master, hhas, -⟩, -⟩ := h.2.clones t ht
    exact ⟨tm, Mgr.deref_eq hhas⟩
  | inr h =>
    obtain ⟨cached, hreused, hsub⟩ := h.2
    obtain ⟨tm, master, hhas, -⟩ := hreused.has (hsub t ht)
    exact ⟨tm, Mgr.deref_eq hhas⟩

theorem Owned.nodup (h : Owned flags m held) (hreuse : flags.reuse1Clone = false) : held.Nodup := by
  cases h with
  | inl h => exact h.2.nodup
  | inr h =>
    rw [h.1] at hreuse
    cases hreuse

theorem Owned.perm {held' : List Nat} (h : Owned flags m held) (hperm : held.Perm held') :
    Owned flags m held' := by
  cases h with
  | inl h => exact .inl ⟨h.1, h.2.perm hperm⟩
  | inr h =>
    obtain ⟨cached, hreused, hsub⟩ := h.2
    exact .inr ⟨h.1, cached, hreused, fun t ht => hsub t (hperm.mem_iff.2 ht)⟩

theorem readTemplate_owned (host : Host R) {k : FacEvent} (h : Owned flags m held)
    (hok : ReadsFine flags host (m, k)) :
    ∃ res m', m.readTemplate flags host k true = .ok (res, m') ∧
      Owned flags m' (returned res ++ held) := by
  cases h with
  | inl h =>
    obtain ⟨hreuse, hinv⟩ := h
    have hreads : flags.ignoreAll = false → m.ReadOk host k := by
      intro hignore
      have hfine := hok hignore
      refine ⟨hfine.fits, hfine.near, hfine.free hreuse, ?_⟩
      intro hknown hdisk
      obtain ⟨hfits, hfree⟩ := hfine.default hknown hdisk
      exact ⟨hfits, hfree hreuse⟩
    obtain ⟨res, m', hread, hhanded⟩ := Mgr.readTemplate_spec hreuse host hinv hreads
    refine ⟨res, m', hread, .inl ⟨hreuse, ?_⟩⟩
    have hinv' := hhanded.inv
    cases res <;> exact hinv'
  | inr h =>
    obtain ⟨hreuse, cached, hreused, hsub⟩ := h
    have hreads : flags.ignoreAll = false → m.ReadFits host k := by
      intro hignore
      have hfine := hok hignore
      exact ⟨hfine.fits, hfine.near, fun hknown hdisk => (hfine.default hknown hdisk).1⟩
    obtain ⟨res, m', cached', hread, hlent⟩ := Mgr.readTemplate_reused flags host hreused hreads
    refine ⟨res, m', hread, .inr ⟨hreuse, cached', hlent.reused, ?_⟩⟩
    intro t ht
    rcases List.mem_append.1 ht with ht | ht
    · cases res with
      | error e => cases ht
      | ok u =>
        rw [List.mem_singleton.1 ht]
        exact hlent.lent u rfl
    · exact hlent.more t (hsub t ht)

theorem releaseTemplate_owned (h : Owned flags m (t :: held)) :
    ∃ m', m.releaseTemplate flags t = .ok m' ∧ Owned flags m' held := by
  cases h with
  | inl h =>
    obtain ⟨hreuse, hinv⟩ := h
    obtain ⟨m', hrelease, hinv', -⟩ := Mgr.releaseTemplate_spec hreuse hinv
    exact ⟨m', hrelease, .inl ⟨hreuse, hinv'⟩⟩
  | inr h =>
    obtain ⟨hreuse, cached, hreused, hsub⟩ := h
    obtain ⟨m', hrelease, hreused'⟩ :=
      Mgr.releaseTemplate_reused hreuse hreused (hsub t List.mem_cons_self)
    exact ⟨m', hrelease, .inr ⟨hreuse, cached, hreused', fun u hu => hsub u (List.mem_cons_of_mem t hu)⟩⟩

theorem redirect_owned (h : Owned flags m (t :: held)) (host : Host R) (event : Event R)
    (rd : Redirection) (k : FacEvent) (history : List FacEvent) :
    ∃ v m', m.redirect host event t rd k history = .ok (v, m') ∧ Owned flags m' (t :: held) := by
  cases h with
  | inl h =>
    obtain ⟨hreuse, hinv⟩ := h
    obtain ⟨v, m', hredirect, hinv', -⟩ := Mgr.redirect_spec hinv host event rd k history
    exact ⟨v, m', hredirect, .inl ⟨hreuse, hinv'⟩⟩
  | inr h =>
    obtain ⟨hreuse, cached, hreused, hsub⟩ := h
    obtain ⟨v, m', hredirect, hreused'⟩ :=
      Mgr.redirect_reused hreused (hsub t List.mem_cons_self) host event rd k history
    exact ⟨v, m', hredirect, .inr ⟨hreuse, cached, hreused', hsub⟩⟩

/-- What holds before each turn: the template of the turn before is in
hand. -/
structure InHand (flags : MgmtFlags) (host : Host R) (held : List Nat) (s : GetState R) : Prop where
  owned : Owned flags s.mgr (s.prevTmpl.toList ++ held)
  same : s.lastValidTmpl = s.prevTmpl
  reads : ReadsFine flags host (s.mgr, s.key)

/-- A turn leaves the loop with a template that is handed out, or goes
on with one in hand. -/
theorem getTurn_owned {host : Host R} (event : Event R) {s : GetState R}
    (h : InHand flags host held s) :
    (∃ res m', getTurn flags host event s = .stop (.ok (res, m')) ∧
        Owned flags m' (returned res ++ held)) ∨
      ∃ m' k t, getTurn flags host event s =
          .next ⟨m', k, s.history ++ [s.key], some t, some t⟩ [(m', k)] ∧
        Owned flags m' (t :: held) := by
  obtain ⟨res, m₁, hread, howned₁⟩ := readTemplate_owned host h.owned h.reads
  unfold getTurn
  rw [hread]
  cases res with
  | error e =>
    refine .inl ⟨_, m₁, rfl, ?_⟩
    rw [h.same]
    cases hprev : s.prevTmpl with
    | none =>
      rw [hprev] at howned₁
      exact howned₁
    | some p =>
      rw [hprev] at howned₁
      exact howned₁
  | ok t =>
    obtain ⟨m₂, hrelease, howned₂⟩ : ∃ m₂,
        s.prevTmpl.elim (.ok m₁) (m₁.releaseTemplate flags) = .ok m₂ ∧
          Owned flags m₂ (t :: held) := by
      cases hprev : s.prevTmpl with
      | none =>
        rw [hprev] at howned₁
        exact ⟨m₁, rfl, howned₁⟩
      | some p =>
        rw [hprev] at howned₁
        exact releaseTemplate_owned (howned₁.perm (.swap p t held))
    obtain ⟨tm, hderef⟩ := howned₂.deref List.mem_cons_self
    dsimp only
    rw [hrelease]
    dsimp only
    rw [hderef]
    dsimp only
    cases tm.file.redirection with
    | none => exact .inl ⟨.ok t, m₂, rfl, howned₂⟩
    | some rd =>
      obtain ⟨v, m₃, hredirect, howned₃⟩ :=
        redirect_owned howned₂ host event rd s.key s.history
      dsimp only
      rw [hredirect]
      cases v with
      | none => exact .inl ⟨.ok t, m₃, rfl, howned₃⟩
      | some k' => exact .inr ⟨m₃, k', t, rfl, howned₃⟩

/-- A template is got, or none is, and what is handed out stays. -/
theorem getTemplate_owned {host : Host R} {event : Event R} (h : Owned flags m held)
    {res : Except Fault (Except Errno Nat × Mgr R)} {reported : List (Mgr R × FacEvent)}
    (hget : getTemplate flags host m event = some (res, reported))
    (hfirst : ReadsFine flags host (m, event.key))
    (hreads : ∀ q ∈ reported, ReadsFine flags host q) :
    ∃ r m', res = .ok (r, m') ∧ Owned flags m' (returned r ++ held) := by
  have hnext (s s' : GetState R) (rep : List (Mgr R × FacEvent))
      (hbody : getTurn flags host event s = .next s' rep) (hrep : ∀ q ∈ rep, ReadsFine flags host q)
      (hs : InHand flags host held s) : InHand flags host held s' := by
    rcases getTurn_owned event hs with ⟨r, m', hturn, -⟩ | ⟨m', k, t, hturn, howned⟩
    · rw [hturn] at hbody
      cases hbody
    · rw [hturn] at hbody
      cases hbody
      exact ⟨howned, rfl, hrep _ List.mem_cons_self⟩
  have hstop (s : GetState R) (res : Except Fault (Except Errno Nat × Mgr R))
      (hbody : getTurn flags host event s = .stop res) (hs : InHand flags host held s) :
      ∃ r m', res = .ok (r, m') ∧ Owned flags m' (returned r ++ held) := by
    rcases getTurn_owned event hs with ⟨r', m', hturn, howned⟩ | ⟨m', k, t, hturn, -⟩
    · rw [hturn] at hbody
      cases hbody
      exact ⟨r', m', rfl, howned⟩
    · rw [hturn] at hbody
      cases hbody
  exact whileLoop_invariant hnext hstop hget hreads ⟨h, rfl, hfirst⟩

end Owned

/-! ## Runs -/

namespace Program

variable {R : Type}

def CallFine (flags : MgmtFlags) (p : Program R) : Call R → Prop
  | .read host k => ReadsFine flags host (p.mgr, k)
  | .get host event => ∀ q ∈ (p.mgr, event.key) ::
      (getTemplate flags host p.mgr event).elim [] fun out => out.2, ReadsFine flags host q
  | .release _ => True

/-- Every call has returned, and what is handed out is in memory. -/
structure Holds (flags : MgmtFlags) (p : Program R) : Prop where
  returned : p.ended = false
  owned : Owned flags p.mgr p.held

theorem holds_start (flags : MgmtFlags) : Holds flags (start : Program R) where
  returned := rfl
  owned := by
    cases hreuse : flags.reuse1Clone with
    | false => exact .inl ⟨hreuse, Mgr.inv_start⟩
    | true => exact .inr ⟨hreuse, [], Mgr.reused_start, fun _ => id⟩

variable {flags : MgmtFlags} {p : Program R}

theorem Holds.returned_holds (h : Holds flags p) {res : Except Errno Nat} {m' : Mgr R}
    (howned : Owned flags m' (Tmplmgmt.returned res ++ p.held)) :
    Holds flags (p.returned (.ok (res, m'))) := by
  cases res with
  | error e => exact ⟨h.returned, howned⟩
  | ok t => exact ⟨h.returned, howned.perm List.perm_append_comm⟩

/-- A call whose reads are fine leaves what is handed out in memory. -/
theorem Holds.step (h : Holds flags p) (c : Call R) (hok : p.CallFine flags c) :
    Holds flags (p.step flags c) := by
  unfold Program.step
  rw [h.returned, if_neg Bool.false_ne_true]
  cases c with
  | read host k =>
    obtain ⟨res, m', hread, howned⟩ := readTemplate_owned host h.owned hok
    dsimp only
    rw [hread]
    exact h.returned_holds howned
  | get host event =>
    obtain ⟨⟨res, reported⟩, hget⟩ := getTemplate_isSome flags host p.mgr event
    unfold CallFine at hok
    dsimp only at hok
    rw [hget] at hok
    obtain ⟨r, m', rfl, howned⟩ := getTemplate_owned h.owned hget
      (hok _ List.mem_cons_self) fun q hq => hok q (List.mem_cons_of_mem _ hq)
    dsimp only
    rw [hget]
    exact h.returned_holds howned
  | release i =>
    dsimp only
    cases hi : p.held[i]? with
    | none => exact h
    | some t =>
      obtain ⟨m', hrelease, howned⟩ := releaseTemplate_owned (h.owned.perm (perm_cons_eraseIdx hi))
      dsimp only
      rw [hrelease]
      exact ⟨rfl, howned⟩

end Program

/-- A call of `evl_gettemplate` redirects from no pair twice and returns;
of the templates it obtained the last is returned and each other has been
released; and that one and those that were handed out before are in
memory, and different unless clones are reused. -/
structure GetsLast {R : Type} (flags : MgmtFlags) (p : Program R) (host : Host R) (event : Event R) :
    Prop where
  visits : (visited flags host p.mgr event).dropLast.Nodup
  returns : ∃ r m' reported, getTemplate flags host p.mgr event = some (.ok (r, m'), reported) ∧
    (turnsOf flags host p.mgr event).filterMap (obtained flags host) =
      (turnsOf flags host p.mgr event).filterMap (released flags host) ++ returned r ∧
    (∀ t ∈ returned r ++ p.held, ∃ tm, m'.deref t = .ok tm) ∧
    (flags.reuse1Clone = false → (returned r ++ p.held).Nodup)

/-- The last template of the chain is returned, in every run whose reads
are fine. -/
theorem getTemplate_getsLast {R : Type} (flags : MgmtFlags) (cs : List (Call R)) (host : Host R)
    (event : Event R)
    (h : Meets (Program.step flags) (Program.CallFine flags) .start (cs ++ [.get host event])) :
    GetsLast flags (run (Program.step flags) .start cs) host event := by
  obtain ⟨hcs, hget⟩ := meets_of_append h
  have hholds : Program.Holds flags (run (Program.step flags) .start cs) :=
    run_invariant_of_meets (Program.Holds flags) (fun p c hp hc => hp.step c hc)
      (Program.holds_start flags) hcs
  generalize run (Program.step flags) .start cs = p at hget hholds ⊢
  have hok : ∀ q ∈ (p.mgr, event.key) ::
      (getTemplate flags host p.mgr event).elim [] fun out => out.2, ReadsFine flags host q := hget.1
  obtain ⟨⟨res, reported⟩, hres⟩ := getTemplate_isSome flags host p.mgr event
  rw [hres] at hok
  obtain ⟨r, m', heq, howned⟩ := getTemplate_owned hholds.owned hres (hok _ List.mem_cons_self)
    fun q hq => hok q (List.mem_cons_of_mem _ hq)
  subst heq
  constructor
  · exact @nodup_visited R flags host ⟨p.mgr, event.key, [], none, none⟩ event getTurns List.nodup_nil
  · refine ⟨r, m', reported, hres, ?_, fun t ht => howned.deref ht, howned.nodup⟩
    exact @obtained_eq R flags host event ⟨p.mgr, event.key, [], none, none⟩ getTurns r m' reported rfl
      hres

/-! ## Two templates that redirect to each other -/

theorem isInt32_zero : IsInt32 0 := by decide

theorem kernFacility_lt : 0 < 2 ^ 32 := by decide

theorem isInt32_kern : IsInt32 100 := by decide

theorem isInt32_kernBack : IsInt32 101 := by decide

/-- The pair that `kern` redirects to. -/
def kernBack : FacEvent := ⟨0, 101, kernFacility_lt, isInt32_kernBack⟩

def cycleHost : Host Unit where
  files k :=
    if k = kern then
      some [.template ⟨kern, some ⟨none, some (.const ⟨101, isInt32_kernBack⟩)⟩, fun _ _ => none⟩]
    else if k = kernBack then
      some [.template ⟨kernBack, some ⟨none, some (.const ⟨100, isInt32_kern⟩)⟩, fun _ _ => none⟩]
    else none
  strtofac _ := none
  genEventType _ := ⟨0, isInt32_zero⟩

def kernEvent : Event Unit := ⟨kern, (), false⟩

/-- The second template is released, and the first one read again. -/
theorem cycle_getsLast : GetsLast plainFlags (.start : Program Unit) cycleHost kernEvent := by
  refine getTemplate_getsLast plainFlags [] cycleHost kernEvent ⟨?_, trivial⟩
  show ∀ q ∈ (Program.start.mgr, kernEvent.key) :: _, ReadsFine plainFlags cycleHost q
  decide

/-- So its pair is read twice. -/
theorem cycle_visited_twice : ¬ (visited plainFlags cycleHost .start kernEvent).Nodup := by
  decide

end Evlog.Tmplmgmt
