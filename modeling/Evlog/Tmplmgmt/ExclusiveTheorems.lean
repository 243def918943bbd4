/-
Evlog.Tmplmgmt.ExclusiveTheorems — when the templates that are handed out
are exclusive.

A turn of `evl_gettemplate` has one template in hand, that of the turn
before, and releases it when it has read the next one (`getTurn_spec`). No
pair of facility and event type comes twice in the history, so the loop
ends (`getTemplate_isSome`). In a run in which no template is read while
somebody has the clone in the cache, the templates handed out are all
different, stay as they are until they are released, and leave the masters
in the cache (`held_exclusive`).
-/
import Evlog.Lib.Transition
import Evlog.Tmplmgmt.CacheTheorems

namespace Evlog.Tmplmgmt

open Evlog.Lib

namespace Mgr

variable {R : Type} {m : Mgr R} {t : Nat} {held : List Nat}

/-! ## Redirections -/

/-- An attribute's value is got, for which the template may be populated. -/
theorem getRedirectionAtt_spec (hinv : m.Inv (t :: held)) (event : Event R) (name : CString) :
    ∃ v m', m.getRedirectionAtt event t name = .ok (v, m') ∧ m'.Inv (t :: held) ∧ Kept m m' held := by
  obtain ⟨k, a, ⟨tm, master, hhas, -⟩, -⟩ := hinv.clones t List.mem_cons_self
  unfold getRedirectionAtt
  rw [deref_eq hhas]
  dsimp only [bind, Except.bind]
  cases tm.populated with
  | some record => exact ⟨_, m, rfl, hinv, .refl _ _⟩
  | none =>
    cases event.noBuf with
    | true => exact ⟨none, m, rfl, hinv, .refl _ _⟩
    | false =>
      obtain ⟨filled, hfilled⟩ : ∃ filled : Template R,
        filled = { tm with populated := some event.record } := ⟨_, rfl⟩
      obtain ⟨hinv', -, hkept⟩ := hinv.putClone hhas (u := filled) (by rw [hfilled])
        (by rw [hfilled]) (by rw [hfilled]) (by rw [hfilled]; exact hhas.2)
      refine ⟨tm.file.att event.record name, m.put t filled, ?_, hinv', hkept⟩
      unfold populateTemplate
      rw [deref_eq hhas, hfilled]
      rfl

theorem redirectFac_spec (hinv : m.Inv (t :: held)) (host : Host R) (event : Event R) (fac : FacCode)
    (rd : Option (RedirectedAttribute FacCode)) :
    ∃ v m', m.redirectFac host event t fac rd = .ok (v, m') ∧ m'.Inv (t :: held) ∧ Kept m m' held := by
  rcases rd with - | (- | value | name)
  · exact ⟨_, m, rfl, hinv, .refl _ _⟩
  · exact ⟨_, m, rfl, hinv, .refl _ _⟩
  · exact ⟨_, m, rfl, hinv, .refl _ _⟩
  · obtain ⟨v, m', hget, hinv', hkept⟩ := getRedirectionAtt_spec hinv event name
    unfold redirectFac
    dsimp only
    rw [hget]
    rcases v with - | (str | ⟨ulong, long⟩) <;> exact ⟨_, m', rfl, hinv', hkept⟩

theorem redirectEvtype_spec (hinv : m.Inv (t :: held)) (host : Host R) (event : Event R)
    (evtype : EventType) (rd : Option (RedirectedAttribute EventType)) :
    ∃ v m', m.redirectEvtype host event t evtype rd = .ok (v, m') ∧ m'.Inv (t :: held) ∧
      Kept m m' held := by
  rcases rd with - | (- | value | name)
  · exact ⟨_, m, rfl, hinv, .refl _ _⟩
  · exact ⟨_, m, rfl, hinv, .refl _ _⟩
  · exact ⟨_, m, rfl, hinv, .refl _ _⟩
  · obtain ⟨v, m', hget, hinv', hkept⟩ := getRedirectionAtt_spec hinv event name
    unfold redirectEvtype
    dsimp only
    rw [hget]
    rcases v with - | (str | ⟨ulong, long⟩) <;> exact ⟨_, m', rfl, hinv', hkept⟩

/-- A redirection is followed for a template in hand; the others stay as
they are. -/
theorem redirect_spec (hinv : m.Inv (t :: held)) (host : Host R) (event : Event R) (rd : Redirection)
    (k : FacEvent) (history : List FacEvent) :
    ∃ v m', m.redirect host event t rd k history = .ok (v, m') ∧ m'.Inv (t :: held) ∧
      Kept m m' held ∧ (v.isSome → k ∉ history) := by
  unfold redirect
  by_cases hk : k ∈ history
  · rw [if_pos hk]
    exact ⟨none, m, rfl, hinv, .refl _ _, fun h => nomatch h⟩
  · rw [if_neg hk]
    obtain ⟨fac, m₁, hfac, hinv₁, hkept₁⟩ :=
      redirectFac_spec hinv host event ⟨k.facility, k.facility_lt⟩ rd.fac
    rw [hfac]
    dsimp only [bind, Except.bind]
    cases fac with
    | none => exact ⟨none, m₁, rfl, hinv₁, hkept₁, fun h => nomatch h⟩
    | some fac =>
      obtain ⟨evtype, m₂, hevtype, hinv₂, hkept₂⟩ :=
        redirectEvtype_spec hinv₁ host event ⟨k.eventType, k.isInt32⟩ rd.evtype
      dsimp only
      rw [hevtype]
      cases evtype with
      | none => exact ⟨none, m₂, rfl, hinv₂, hkept₁.trans hkept₂, fun h => nomatch h⟩
      | some evtype => exact ⟨_, m₂, rfl, hinv₂, hkept₁.trans hkept₂, fun _ => hk⟩

end Mgr

section Get

variable {R : Type} {m : Mgr R} {held : List Nat}

def Reads (flags : MgmtFlags) (host : Host R) (q : Mgr R × FacEvent) : Prop :=
  flags.ignoreAll = false → q.1.ReadOk host q.2

/-- What holds before each turn: the template of the turn before is in hand. -/
structure GetInv (flags : MgmtFlags) (host : Host R) (m : Mgr R) (held : List Nat) (s : GetState R) :
    Prop where
  kept : Mgr.Kept m s.mgr held
  inv : s.mgr.Inv (s.prevTmpl.toList ++ held)
  same : s.lastValidTmpl = s.prevTmpl
  reads : Reads flags host (s.mgr, s.key)

variable {flags : MgmtFlags} {s : GetState R}

/-- A turn leaves the loop with a template that is handed out, or goes
on with the one in hand. -/
theorem getTurn_spec (hreuse : flags.reuse1Clone = false) (host : Host R) (event : Event R)
    (h : GetInv flags host m held s) :
    (∃ res m', getTurn flags host event s = .stop (.ok (res, m')) ∧ Mgr.Handed m held res m') ∨
      ∃ m' k t, getTurn flags host event s =
          .next ⟨m', k, s.history ++ [s.key], some t, some t⟩ [(m', k)] ∧
        m'.Inv (t :: held) ∧ Mgr.Kept m m' held := by
  obtain ⟨res, m₁, hread, hhanded⟩ := Mgr.readTemplate_spec hreuse host h.inv h.reads
  have hsub : ∀ t ∈ held, t ∈ s.prevTmpl.toList ++ held := fun _ => List.mem_append_right _
  have hkept₁ : Mgr.Kept m m₁ held := h.kept.trans fun t ht => hhanded.kept t (hsub t ht)
  unfold getTurn
  rw [hread]
  cases res with
  | error e =>
    refine .inl ⟨_, m₁, rfl, hkept₁, ?_⟩
    rw [h.same]
    have hinv := hhanded.inv
    cases hprev : s.prevTmpl with
    | none =>
      rw [hprev] at hinv
      exact hinv
    | some p =>
      rw [hprev] at hinv
      exact hinv
  | ok t =>
    obtain ⟨m₂, hrelease, hinv₂, hkept₂⟩ : ∃ m₂,
        s.prevTmpl.elim (.ok m₁) (m₁.releaseTemplate flags) = .ok m₂ ∧ m₂.Inv (t :: held) ∧
          Mgr.Kept m₁ m₂ (t :: held) := by
      have hinv := hhanded.inv
      cases hprev : s.prevTmpl with
      | none =>
        rw [hprev] at hinv
        exact ⟨m₁, rfl, hinv, .refl _ _⟩
      | some p =>
        rw [hprev] at hinv
        exact Mgr.releaseTemplate_spec hreuse (hinv.perm (.swap p t held))
    obtain ⟨k, a, ⟨tm, master, hhas, -⟩, -⟩ := hinv₂.clones t List.mem_cons_self
    have hkept : Mgr.Kept m m₂ held := hkept₁.trans fun u hu => hkept₂ u (List.mem_cons_of_mem t hu)
    dsimp only
    rw [hrelease]
    dsimp only
    rw [Mgr.deref_eq hhas]
    dsimp only
    cases tm.file.redirection with
    | none => exact .inl ⟨.ok t, m₂, rfl, hkept, hinv₂⟩
    | some rd =>
      obtain ⟨v, m₃, hredirect, hinv₃, hkept₃, -⟩ :=
        Mgr.redirect_spec hinv₂ host event rd s.key s.history
      dsimp only
      rw [hredirect]
      cases v with
      | none => exact .inl ⟨.ok t, m₃, rfl, hkept.trans hkept₃, hinv₃⟩
      | some k' => exact .inr ⟨m₃, k', t, rfl, hinv₃, hkept.trans hkept₃⟩

variable {reported : List (Mgr R × FacEvent)}

/-- A template is got: it is a clone that nobody has, and the others
stay as they are. -/
theorem getTemplate_spec (hreuse : flags.reuse1Clone = false) (host : Host R) (hinv : m.Inv held)
    (event : Event R) {res : Except Fault (Except Errno Nat × Mgr R)}
    (hget : getTemplate flags host m event = some (res, reported))
    (hfirst : Reads flags host (m, event.key)) (hreads : ∀ q ∈ reported, Reads flags host q) :
    ∃ r m', res = .ok (r, m') ∧ Mgr.Handed m held r m' := by
  have hnext (s s' : GetState R) (rep : List (Mgr R × FacEvent))
      (hbody : getTurn flags host event s = .next s' rep) (hrep : ∀ q ∈ rep, Reads flags host q)
      (hs : GetInv flags host m held s) : GetInv flags host m held s' := by
    rcases getTurn_spec hreuse host event hs with ⟨r, m', hturn, -⟩ | ⟨m', k, t, hturn, hinv', hkept⟩
    · rw [hturn] at hbody
      cases hbody
    · rw [hturn] at hbody
      cases hbody
      exact ⟨hkept, hinv', rfl, hrep _ List.mem_cons_self⟩
  have hstop (s : GetState R) (res : Except Fault (Except Errno Nat × Mgr R))
      (hbody : getTurn flags host event s = .stop res) (hs : GetInv flags host m held s) :
      ∃ r m', res = .ok (r, m') ∧ Mgr.Handed m held r m' := by
    rcases getTurn_spec hreuse host event hs with ⟨r', m', hturn, hhanded⟩ | ⟨m', k, t, hturn, -⟩
    · rw [hturn] at hbody
      cases hbody
      exact ⟨r', m', rfl, hhanded⟩
    · rw [hturn] at hbody
      cases hbody
  exact whileLoop_invariant (R := fun res => ∃ r m', res = .ok (r, m') ∧ Mgr.Handed m held r m') hnext
    hstop hget hreads ⟨.refl _ _, hinv, rfl, hfirst⟩

/-! ### A redirection comes to an end -/

theorem redirect_some {t : Nat} {host : Host R} {event : Event R} {rd : Redirection} {k k' : FacEvent}
    {history : List FacEvent} {m' : Mgr R}
    (h : m.redirect host event t rd k history = .ok (some k', m')) : k ∉ history := by
  intro hk
  unfold Mgr.redirect at h
  rw [if_pos hk] at h
  cases h

/-- A turn after which there is another adds a new pair to the history. -/
theorem getTurn_next {host : Host R} {event : Event R} {s' : GetState R}
    (h : getTurn flags host event s = .next s' reported) :
    s'.history = s.history ++ [s.key] ∧ s.key ∉ s.history := by
  unfold getTurn at h
  repeat' split at h
  all_goals cases h
  rename_i hredirect
  exact ⟨rfl, redirect_some hredirect⟩

def FacEvent.code (k : FacEvent) : Nat := k.facility * 2 ^ 32 + (k.eventType + 2 ^ 31).toNat

theorem FacEvent.code_lt (k : FacEvent) : k.code < 2 ^ 64 := by
  have hfac := k.facility_lt
  have hint := k.isInt32
  unfold IsInt32 at hint
  unfold FacEvent.code
  omega

theorem FacEvent.code_injective : Function.Injective FacEvent.code := by
  intro k k' h
  obtain ⟨fac, ev, hfac, hev⟩ := k
  obtain ⟨fac', ev', hfac', hev'⟩ := k'
  have hlt := hev
  have hlt' := hev'
  unfold IsInt32 at hlt hlt'
  unfold FacEvent.code at h
  dsimp only at h
  have hf : fac = fac' := by omega
  have he : ev = ev' := by omega
  subst hf
  subst he
  rfl

theorem length_le_of_nodup {history : List FacEvent} (h : history.Nodup) : history.length ≤ 2 ^ 64 := by
  have hcodes : (history.map FacEvent.code).Nodup := h.map FacEvent.code_injective
  have hsub : history.map FacEvent.code ⊆ List.range (2 ^ 64) := by
    intro n hn
    obtain ⟨k, -, rfl⟩ := List.mem_map.1 hn
    exact List.mem_range.2 k.code_lt
  have hle := (hcodes.subperm hsub).length_le
  rwa [List.length_map, List.length_range] at hle

theorem whileLoop_getTurn (flags : MgmtFlags) (host : Host R) (event : Event R) (fuel : Nat)
    (hnodup : s.history.Nodup) (hfuel : 2 ^ 64 < s.history.length + fuel) :
    ∃ r, whileLoop (getTurn flags host event) fuel s = some r := by
  induction fuel generalizing s with
  | zero => exact absurd (length_le_of_nodup hnodup) (Nat.not_le.2 hfuel)
  | succ fuel ih =>
    cases hbody : getTurn flags host event s with
    | stop r => exact ⟨_, whileLoop_stop hbody fuel⟩
    | next s' reported =>
      obtain ⟨hhistory, hnew⟩ := getTurn_next hbody
      have hnodup' : s'.history.Nodup := by
        rw [hhistory]
        exact List.nodup_append.2 ⟨hnodup, List.nodup_singleton _, fun a ha b hb => by
          rw [List.mem_singleton.1 hb]
          rintro rfl
          exact hnew ha⟩
      have hlength : s'.history.length = s.history.length + 1 := by
        rw [hhistory, List.length_append, List.length_singleton]
      obtain ⟨r, hr⟩ := ih hnodup' (by omega)
      exact ⟨_, by rw [whileLoop_next hbody, hr]; rfl⟩

/-- `evl_gettemplate` returns, whatever redirects to what. -/
theorem getTemplate_isSome (flags : MgmtFlags) (host : Host R) (m : Mgr R) (event : Event R) :
    ∃ r, getTemplate flags host m event = some r :=
  whileLoop_getTurn flags host event getTurns List.nodup_nil (by simp [getTurns])

end Get

/-! ## Runs -/

namespace Program

variable {R : Type}

/-- The templates that are handed out are different and in memory, every
template in the cache is in memory, and is a master or handed out, and
every call has returned. -/
structure Exclusive (p : Program R) : Prop where
  returned : p.ended = false
  distinct : p.held.Nodup
  inMemory : ∀ t ∈ p.held, ∃ tm, p.mgr.deref t = .ok tm
  consistent : ∀ fet ∈ p.mgr.hash.fets, ∀ t, fet.template = some t →
    ∃ tm, p.mgr.deref t = .ok tm ∧ (tm.master = none ∨ t ∈ p.held)

/-- The templates that were handed out before and are not released now are
as they were. -/
def Keeps (p p' : Program R) : Prop :=
  ∀ t ∈ p.held, t ∈ p'.held → p'.mgr.tmpls[t]? = p.mgr.tmpls[t]?

/-- Nobody has the clone in the cache of a template that the call reads. -/
def CallOk (flags : MgmtFlags) (p : Program R) : Call R → Prop
  | .read host k => Reads flags host (p.mgr, k)
  | .get host event => ∀ q ∈ (p.mgr, event.key) ::
      (getTemplate flags host p.mgr event).elim [] fun out => out.2, Reads flags host q
  | .release _ => True

structure Inv (p : Program R) : Prop where
  returned : p.ended = false
  inv : p.mgr.Inv p.held

theorem inv_start : Inv (start : Program R) := ⟨rfl, Mgr.inv_start⟩

variable {p : Program R}

theorem Inv.exclusive (h : p.Inv) : p.Exclusive where
  returned := h.returned
  distinct := h.inv.nodup
  inMemory t ht := by
    obtain ⟨k, a, ⟨tm, master, hhas, -⟩, -⟩ := h.inv.clones t ht
    exact ⟨tm, Mgr.deref_eq hhas⟩
  consistent fet hfet t ht := by
    obtain ⟨a, ha, heq⟩ := List.getElem_of_mem hfet
    obtain ⟨k, he⟩ := h.inv.sound.owned a ha
    cases h.inv.fets k a fet he (heq ▸ List.getElem?_eq_getElem ha) with
    | notThere => cases ht
    | default => cases ht
    | master hm =>
      cases ht
      obtain ⟨tm, hhas, hnone, -⟩ := hm
      exact ⟨tm, Mgr.deref_eq hhas, .inl hnone⟩
    | clone hc hheld =>
      cases ht
      obtain ⟨tm, master, hhas, -⟩ := hc
      exact ⟨tm, Mgr.deref_eq hhas, .inr hheld⟩

theorem perm_cons_eraseIdx {held : List Nat} {i t : Nat} (h : held[i]? = some t) :
    held.Perm (t :: held.eraseIdx i) := by
  obtain ⟨hlt, rfl⟩ := List.getElem?_eq_some_iff.1 h
  exact (List.getElem_cons_eraseIdx_perm hlt).symm

theorem Inv.returned_inv (h : p.Inv) {res : Except Errno Nat} {m' : Mgr R}
    (hhanded : Mgr.Handed p.mgr p.held res m') :
    (p.returned (.ok (res, m'))).Inv ∧ p.Keeps (p.returned (.ok (res, m'))) := by
  cases res with
  | error e => exact ⟨⟨h.returned, hhanded.inv⟩, fun t ht _ => hhanded.kept t ht⟩
  | ok t =>
    exact ⟨⟨h.returned, hhanded.inv.perm List.perm_append_comm⟩, fun t ht _ => hhanded.kept t ht⟩

/-- A call keeps the templates apart, if it reads none whose clone in the
cache is handed out. -/
theorem Inv.step {flags : MgmtFlags} (hreuse : flags.reuse1Clone = false) (h : p.Inv) (c : Call R)
    (hok : p.CallOk flags c) : (p.step flags c).Inv ∧ p.Keeps (p.step flags c) := by
  unfold Program.step
  rw [h.returned, if_neg Bool.false_ne_true]
  cases c with
  | read host k =>
    obtain ⟨res, m', hread, hhanded⟩ := Mgr.readTemplate_spec hreuse host h.inv hok
    dsimp only
    rw [hread]
    exact h.returned_inv hhanded
  | get host event =>
    obtain ⟨⟨res, reported⟩, hget⟩ := getTemplate_isSome flags host p.mgr event
    unfold CallOk at hok
    dsimp only at hok
    rw [hget] at hok
    obtain ⟨r, m', rfl, hhanded⟩ := getTemplate_spec hreuse host h.inv event hget
      (hok _ List.mem_cons_self) fun q hq => hok q (List.mem_cons_of_mem _ hq)
    dsimp only
    rw [hget]
    exact h.returned_inv hhanded
  | release i =>
    dsimp only
    cases hi : p.held[i]? with
    | none => exact ⟨h, fun _ _ _ => rfl⟩
    | some t =>
      obtain ⟨m', hrelease, hinv, hkept⟩ := Mgr.releaseTemplate_spec hreuse (h.inv.perm (perm_cons_eraseIdx hi))
      dsimp only
      rw [hrelease]
      exact ⟨⟨rfl, hinv⟩, fun u _ hu => hkept u hu⟩

end Program

/-- Without `TMPL_REUSE1CLONE`, the templates are exclusive in every run
in which no template is read while somebody has the clone of it in the
cache: those that are handed out are different, and no call frees,
populates or changes one that it does not release. -/
theorem held_exclusive {R : Type} (ignoreAll lazyDepop : Bool) (cs : List (Call R))
    (h : Meets (Program.step ⟨ignoreAll, false, lazyDepop⟩)
      (Program.CallOk ⟨ignoreAll, false, lazyDepop⟩) .start cs) :
    Always (Program.step ⟨ignoreAll, false, lazyDepop⟩) Program.Exclusive .start cs ∧
      Meets (Program.step ⟨ignoreAll, false, lazyDepop⟩)
        (fun p c => p.Keeps (p.step ⟨ignoreAll, false, lazyDepop⟩ c)) .start cs := by
  refine ⟨always_of_meets (fun p c hp hc => (hp.step rfl c hc).1) (fun p hp => hp.exclusive)
    Program.inv_start h, ?_⟩
  have hall (p : Program R) (hp : p.Inv) (cs : List (Call R))
      (hcs : Meets (Program.step ⟨ignoreAll, false, lazyDepop⟩)
        (Program.CallOk ⟨ignoreAll, false, lazyDepop⟩) p cs) :
      Meets (Program.step ⟨ignoreAll, false, lazyDepop⟩)
        (fun p c => p.Keeps (p.step ⟨ignoreAll, false, lazyDepop⟩ c)) p cs := by
    induction cs generalizing p with
    | nil => trivial
    | cons c cs ih =>
      obtain ⟨hinv, hkeeps⟩ := hp.step rfl c hcs.1
      exact ⟨hkeeps, ih _ hinv hcs.2⟩
  exact hall _ Program.inv_start cs h

/-! ## One template -/

def kern : FacEvent := ⟨0, 100, by decide, by decide⟩

def kernFile : TmplFile Unit := ⟨kern, none, fun _ _ => none⟩

def kernHost : Host Unit where
  files k := if k = kern then some [.template kernFile] else none
  strtofac _ := none
  genEventType _ := ⟨0, by decide⟩

def plainFlags : MgmtFlags := ⟨false, false, false⟩

def releasedFirst : List (Call Unit) :=
  [.read kernHost kern, .release 0, .read kernHost kern, .read kernHost kern]

theorem held_exclusive_released :
    Always (Program.step plainFlags) Program.Exclusive .start releasedFirst ∧
      Meets (Program.step plainFlags) (fun p c => p.Keeps (p.step plainFlags c)) .start
        releasedFirst :=
  held_exclusive false false releasedFirst
    ⟨fun _ => ⟨by decide, by decide, by decide, fun _ h => absurd h (by decide)⟩,
      trivial,
      fun _ => ⟨by decide, by decide, by decide, fun _ h => absurd h (by decide)⟩,
      fun _ => ⟨by decide, by decide, by decide, fun _ h => absurd h (by decide)⟩,
      trivial⟩

/-- The template is read twice while the first clone is handed out: both
have the same one. -/
theorem held_not_exclusive : ¬ Always (Program.step plainFlags) Program.Exclusive .start
      [.read kernHost kern, .read kernHost kern] := by
  rintro ⟨-, -, hlast⟩
  have hheld : (((Program.start : Program Unit).step plainFlags (.read kernHost kern)).step plainFlags
      (.read kernHost kern)).held = [1, 1] := by decide
  have hdistinct := hlast.distinct
  rw [hheld] at hdistinct
  exact absurd hdistinct (by decide)

end Evlog.Tmplmgmt
