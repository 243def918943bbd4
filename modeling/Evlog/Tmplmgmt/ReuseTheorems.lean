/-
Evlog.Tmplmgmt.ReuseTheorems — the template manager under
`TMPL_REUSE1CLONE`.

With that flag a template has one clone, which is in the cache from the
first read on and is what every read hands out; a release leaves it there.
So the clones of the cache (`Reused`) take the place of those that are
handed out: what is read is one of them (`readTemplate_reused`), and they
are never freed (`releaseTemplate_reused`).
-/
import Evlog.Tmplmgmt.ExclusiveTheorems

namespace Evlog.Tmplmgmt

open Evlog.Lib

namespace Mgr

variable {R : Type} {m m' : Mgr R} {k : FacEvent} {t : Nat} {cached : List Nat}

/-- The templates in the cache are these clones. -/
structure Reused (m : Mgr R) (cached : List Nat) : Prop where
  inv : m.Inv cached
  only : ∀ (a : Nat) (fet : Fet) (t : Nat), m.hash.fets[a]? = some fet → fet.template = some t →
    t ∈ cached

/-- What a read asks of the table. -/
structure ReadFits (m : Mgr R) (host : Host R) (k : FacEvent) : Prop where
  fits : k.Fits
  near : m.hash.Near k
  default : m.known k = false → onDisk host k = false → k.toDefault.Fits

/-- What has come of a read: no clone has gone, and one of them is handed
out. -/
structure Lent (cached : List Nat) (res : Except Errno Nat) (m' : Mgr R) (cached' : List Nat) :
    Prop where
  more : ∀ t ∈ cached, t ∈ cached'
  reused : m'.Reused cached'
  lent : ∀ t, res = .ok t → t ∈ cached'

theorem reused_start : Reused (start : Mgr R) [] where
  inv := inv_start
  only a fet t hfet _ := absurd hfet (by simp [start, FetHash.empty])

theorem Lent.failed (h : m.Reused cached) (e : Errno) : Lent cached (.error e) m cached :=
  ⟨fun _ => id, h, fun _ heq => by cases heq⟩

theorem Reused.has (h : m.Reused cached) (ht : t ∈ cached) :
    ∃ tm master, m.Has t tm ∧ tm.refCount = 0 ∧ tm.master = some master := by
  obtain ⟨k, a, ⟨tm, master, hhas, hcount, -, hmaster, -⟩, -⟩ := h.inv.clones t ht
  exact ⟨tm, master, hhas, hcount, hmaster⟩

theorem Reused.front (h : m.Reused cached) (ht : t ∈ cached) : m.Inv (t :: cached.erase t) :=
  h.inv.perm (List.perm_cons_erase ht)

theorem Reused.of_inv (h : m.Reused cached) (ht : t ∈ cached) (hinv : m'.Inv (t :: cached.erase t))
    (hhash : m'.hash = m.hash) : m'.Reused cached where
  inv := hinv.perm (List.perm_cons_erase ht).symm
  only a fet u hfet hu := h.only a fet u (hhash ▸ hfet) hu

/-! ## Reading -/

theorem findEvlogTemplate_reused (flags : MgmtFlags) (h : m.Reused cached) (hfits : k.Fits)
    (hnear : m.hash.Near k) :
    (m.findEvlogTemplate flags k true = .ok (none, false, m) ∧ m.known k = false ∧
        ∀ a, ¬ m.hash.Entry k a) ∨
      m.findEvlogTemplate flags k true = .ok (none, true, m) ∨
      ∃ t a, m.findEvlogTemplate flags k true = .ok (some t, false, m) ∧ t ∈ cached ∧
        (m.hash.Entry k a ∨ m.hash.Entry k.toDefault a) ∧
        m.hash.fets[a]? = some ⟨some t, none, false⟩ := by
  unfold findEvlogTemplate
  rcases h.inv.findFet_cases hfits hnear with ⟨hfind, hno⟩ | ⟨a, hfind⟩ |
    ⟨a, t, k', hfind, hfet, hentry, hkey, -⟩
  · refine .inl ⟨?_, ?_, hno⟩
    · rw [hfind]
      rfl
    · unfold known
      rw [hfind]
  · refine .inr (.inl ?_)
    rw [hfind]
    rfl
  · have ht := h.only a _ t hfet rfl
    obtain ⟨tm, master, hhas, -, hmaster⟩ := h.has ht
    refine .inr (.inr ⟨t, a, ?_, ht, ?_, hfet⟩)
    · rw [hfind]
      dsimp only [bind, Except.bind]
      rw [deref_eq hhas]
      dsimp only
      rw [hmaster]
      rfl
    · rcases hkey with rfl | rfl
      · exact .inl hentry
      · exact .inr hentry

theorem Reused.addFet (h : m.Reused cached) (hfits : k.Fits) (hnear : m.hash.Near k)
    (hno : ∀ a, ¬ m.hash.Entry k a) {fet : Fet} (hok : FetOk m cached k fet)
    (hnone : fet.template = none) :
    ∃ m', m.addFet k fet = .ok m' ∧ m'.Reused cached ∧
      ∀ g a, m'.hash.Entry g a → m.hash.Entry g a ∨ g = k := by
  have hnew : ∀ t ∈ ([] : List Nat), m.IsClone k t := fun _ ht => absurd ht List.not_mem_nil
  obtain ⟨hash, hadd, hinv', hfets, hentry⟩ :=
    h.inv.addHash hfits hnear hno [] hnew h.inv.nodup hok
  refine ⟨{ m with hash := hash }, ?_, ⟨hinv', ?_⟩, ?_⟩
  · unfold Mgr.addFet
    rw [hadd]
  · intro a fet' t hfet ht
    have hmem := List.mem_of_getElem? hfet
    rw [hfets] at hmem
    rcases List.mem_append.1 hmem with hold | hlast
    · obtain ⟨b, hb⟩ := List.mem_iff_getElem?.1 hold
      exact h.only b fet' t hb ht
    · rw [List.mem_singleton.1 hlast, hnone] at ht
      cases ht
  · intro g a he
    rcases (hentry g a).1 he with ⟨rfl, -⟩ | hold
    · exact .inr rfl
    · exact .inl hold

/-- A template that is read from its file is in the cache from now on. -/
theorem Reused.handOut (h : m.Reused cached) (hfits : k.Fits) (hnear : m.hash.Near k)
    (hno : ∀ a, ¬ m.hash.Entry k a) {file : TmplFile R} (hkey : file.key = k) :
    ∃ t m' cached', m.handOut file true = .ok (t, m') ∧ Lent cached (.ok t) m' cached' ∧
      m'.hash.fets = m.hash.fets ++ [⟨some t, none, false⟩] ∧
      ∀ g a, m'.hash.Entry g a ↔ (g = k ∧ a = m.hash.fets.length) ∨ m.hash.Entry g a := by
  obtain ⟨t, m', hout, hhanded, hfets, hentry⟩ := handOut_spec h.inv hfits hnear hno hkey
  refine ⟨t, m', t :: cached, hout, ⟨fun _ => List.mem_cons_of_mem t, ⟨hhanded.inv, ?_⟩, ?_⟩, hfets,
    hentry⟩
  · intro a fet u hfet hu
    have hmem := List.mem_of_getElem? hfet
    rw [hfets] at hmem
    rcases List.mem_append.1 hmem with hold | hlast
    · obtain ⟨b, hb⟩ := List.mem_iff_getElem?.1 hold
      exact List.mem_cons_of_mem t (h.only b fet u hb hu)
    · rw [List.mem_singleton.1 hlast] at hu
      cases hu
      exact List.mem_cons_self
  · intro u heq
    cases heq
    exact List.mem_cons_self

variable {flags : MgmtFlags}

theorem readDefault_reused (hignore : flags.ignoreAll = false) (host : Host R)
    (hdefault : k.toDefault = k) (h : m.Reused cached) (hfits : k.Fits) :
    ∃ res m' cached', readTemplateOr none flags host m k true = .ok (res, m') ∧
      Lent cached res m' cached' ∧
      (∀ g a, m'.hash.Entry g a → m.hash.Entry g a ∨ g = k) ∧
      ∀ t, res = .ok t → ∃ d u, m'.hash.Entry k d ∧ m'.hash.fets[d]? = some ⟨some u, none, false⟩ := by
  have hnear : m.hash.Near k := hdefault ▸ FetHash.near_toDefault m.hash k
  unfold readTemplateOr
  rw [hignore, if_neg Bool.false_ne_true]
  rcases findEvlogTemplate_reused flags h hfits hnear with ⟨hfind, -, hno⟩ | hfind |
    ⟨t, a, hfind, ht, hentry, hfet⟩
  · rw [hfind]
    dsimp only [bind, Except.bind]
    obtain ⟨found, hfound⟩ : ∃ found, found = (host.files k).elim (none, false) (searchDirs k) := ⟨_, rfl⟩
    rw [← hfound]
    obtain ⟨- | file, unreadable⟩ := found
    · obtain ⟨m', hadd, hreused, hentry⟩ := h.addFet hfits hnear hno .notThere rfl
      refine ⟨.error (if unreadable then .eio else .enoent), m', cached, ?_, .failed hreused _, hentry,
        fun t ht => by cases ht⟩
      unfold noSuchTemplate
      dsimp only
      rw [hadd]
      rfl
    · have hkey : file.key = k := search_key (congrArg Prod.fst hfound.symm)
      obtain ⟨t, m', cached', hout, hlent, hfets, hentry⟩ := h.handOut hfits hnear hno hkey
      refine ⟨.ok t, m', cached', ?_, hlent, ?_, fun t' _ => ⟨m.hash.fets.length, t, ?_, ?_⟩⟩
      · dsimp only
        rw [hout]
      · intro g a he
        rcases (hentry g a).1 he with ⟨rfl, -⟩ | hold
        · exact .inr rfl
        · exact .inl hold
      · exact (hentry _ _).2 (.inl ⟨rfl, rfl⟩)
      · rw [hfets, List.getElem?_append_right le_rfl, Nat.sub_self]
        rfl
  · rw [hfind]
    exact ⟨.error .enoent, m, cached, rfl, .failed h _, fun _ _ => .inl, fun t ht => by cases ht⟩
  · rw [hfind]
    refine ⟨.ok t, m, cached, rfl, ⟨fun _ => id, h, ?_⟩, fun _ _ => .inl, fun _ _ => ⟨a, t, ?_, hfet⟩⟩
    · intro u heq
      cases heq
      exact ht
    · rw [hdefault, or_self] at hentry
      exact hentry

/-- There is no template for the event type: the default one is read. -/
theorem noSuchTemplate_reused (hignore : flags.ignoreAll = false) (host : Host R)
    (h : m.Reused cached) (hfits : k.Fits) (hnear : m.hash.Near k) (hno : ∀ a, ¬ m.hash.Entry k a)
    (hne : k.eventType ≠ evlDefaultEventType) (hfits' : k.toDefault.Fits) (unreadable : Bool) :
    ∃ res m' cached', noSuchTemplate
        (some fun m => readTemplateOr none flags host m k.toDefault true) m k unreadable =
          .ok (res, m') ∧ Lent cached res m' cached' := by
  obtain ⟨res, m', cached', hread, hlent, hentry, hloaded⟩ :=
    readDefault_reused hignore host (toDefault_toDefault k) h hfits'
  obtain ⟨hnear', hno'⟩ := near_of_read h.inv hfits hnear hno hne hlent.reused.inv.sound hentry
  unfold noSuchTemplate
  dsimp only
  rw [hread]
  dsimp only [bind, Except.bind]
  cases res with
  | error e =>
    obtain ⟨m'', hadd, hreused, -⟩ := hlent.reused.addFet hfits hnear' hno' .notThere rfl
    dsimp only
    rw [hadd]
    exact ⟨_, m'', cached', rfl, hlent.more, hreused, fun t ht => by cases ht⟩
  | ok t =>
    obtain ⟨d, u, hd, hfet⟩ := hloaded t rfl
    obtain ⟨m'', hadd, hreused, -⟩ :=
      hlent.reused.addFet hfits hnear' hno' (.default hd hfet) rfl
    dsimp only
    rw [hlent.reused.inv.sound.find_entry hd]
    dsimp only
    rw [hadd]
    exact ⟨_, m'', cached', rfl, hlent.more, hreused, hlent.lent⟩

/-- A template is read: it is one of the clones of the cache. -/
theorem readTemplate_reused (flags : MgmtFlags) (host : Host R) (h : m.Reused cached)
    (hok : flags.ignoreAll = false → m.ReadFits host k) :
    ∃ res m' cached', m.readTemplate flags host k true = .ok (res, m') ∧
      Lent cached res m' cached' := by
  cases hignore : flags.ignoreAll with
  | true =>
    refine ⟨.error .enoent, m, cached, ?_, .failed h _⟩
    unfold readTemplate readTemplateOr
    rw [hignore, if_pos rfl, if_pos rfl, ite_self]
  | false =>
    obtain ⟨hfits, hnear, hdefault⟩ := hok hignore
    unfold readTemplate
    by_cases hne : k.eventType = evlDefaultEventType
    · rw [if_pos hne]
      obtain ⟨res, m', cached', hread, hlent, -⟩ :=
        readDefault_reused hignore host (toDefault_of_default hne) h hfits
      exact ⟨res, m', cached', hread, hlent⟩
    · rw [if_neg hne]
      generalize hfallback : (some fun m => readTemplateOr none flags host m k.toDefault true) = fallback
      unfold readTemplateOr
      rw [hignore, if_neg Bool.false_ne_true]
      rcases findEvlogTemplate_reused flags h hfits hnear with ⟨hfind, hknown, hno⟩ | hfind |
        ⟨t, a, hfind, ht, -⟩
      · rw [hfind]
        dsimp only [bind, Except.bind]
        obtain ⟨found, hfound⟩ :
          ∃ found, found = (host.files k).elim (none, false) (searchDirs k) := ⟨_, rfl⟩
        rw [← hfound]
        obtain ⟨- | file, unreadable⟩ := found
        · have hfits' := hdefault hknown (by rw [onDisk, ← hfound]; rfl)
          rw [← hfallback]
          exact noSuchTemplate_reused hignore host h hfits hnear hno hne hfits' _
        · have hkey : file.key = k := search_key (congrArg Prod.fst hfound.symm)
          obtain ⟨t, m', cached', hout, hlent, -⟩ := h.handOut hfits hnear hno hkey
          dsimp only
          rw [hout]
          exact ⟨.ok t, m', cached', rfl, hlent⟩
      · rw [hfind]
        exact ⟨.error .enoent, m, cached, rfl, .failed h _⟩
      · rw [hfind]
        refine ⟨.ok t, m, cached, rfl, fun _ => id, h, ?_⟩
        intro u heq
        cases heq
        exact ht

/-! ## Releasing and redirecting -/

/-- A release leaves the clone in memory and in the cache. -/
theorem releaseTemplate_reused (hreuse : flags.reuse1Clone = true) (h : m.Reused cached)
    (ht : t ∈ cached) : ∃ m', m.releaseTemplate flags t = .ok m' ∧ m'.Reused cached := by
  obtain ⟨tm, master, hhas, hcount, hmaster⟩ := h.has ht
  have hstays (m₁ : Mgr R) :
      (if tm.master.isSome ∧ flags.reuse1Clone then .ok m₁ else m₁.freeCached t) = .ok m₁ :=
    if_pos (by simp [hreuse, hmaster])
  unfold releaseTemplate
  rw [deref_eq hhas]
  dsimp only [bind, Except.bind]
  rw [if_neg (not_not_intro hcount)]
  cases flags.lazyDepop with
  | true => exact ⟨m, hstays m, h⟩
  | false =>
    obtain ⟨depop, hdepop⟩ : ∃ depop : Template R, depop = { tm with populated := none } := ⟨_, rfl⟩
    obtain ⟨hinv, -, -⟩ := (h.front ht).putClone hhas (u := depop) (by rw [hdepop])
      (by rw [hdepop]) (by rw [hdepop]) (by rw [hdepop]; exact hhas.2)
    refine ⟨m.put t depop, ?_, h.of_inv ht hinv rfl⟩
    rw [if_neg Bool.false_ne_true]
    unfold depopulateTemplate
    rw [deref_eq hhas, ← hstays, hdepop]
    rfl

variable {event : Event R}

theorem getRedirectionAtt_hash {name : CString} {v : Option AttValue}
    (h : m.getRedirectionAtt event t name = .ok (v, m')) : m'.hash = m.hash := by
  unfold getRedirectionAtt populateTemplate at h
  dsimp only [bind, Except.bind] at h
  split at h
  · cases h
  · split at h
    · cases h
      rfl
    · split at h
      · cases h
        rfl
      · split at h
        · cases h
        · rename_i hput
          split at hput
          · cases hput
          · cases hput
            cases h
            rfl

variable {host : Host R}

theorem redirectFac_hash {fac : FacCode} {rd : Option (RedirectedAttribute FacCode)}
    {v : Option FacCode} (h : m.redirectFac host event t fac rd = .ok (v, m')) :
    m'.hash = m.hash := by
  unfold redirectFac at h
  split at h
  · cases h
    rfl
  · cases h
    rfl
  · cases h
    rfl
  · dsimp only [bind, Except.bind] at h
    split at h
    · cases h
    · rename_i hatt
      split at h
      all_goals cases h
      all_goals exact getRedirectionAtt_hash hatt

theorem redirectEvtype_hash {evtype : EventType} {rd : Option (RedirectedAttribute EventType)}
    {v : Option EventType} (h : m.redirectEvtype host event t evtype rd = .ok (v, m')) :
    m'.hash = m.hash := by
  unfold redirectEvtype at h
  split at h
  · cases h
    rfl
  · cases h
    rfl
  · cases h
    rfl
  · dsimp only [bind, Except.bind] at h
    split at h
    · cases h
    · rename_i hatt
      split at h
      all_goals cases h
      all_goals exact getRedirectionAtt_hash hatt

theorem redirect_hash {rd : Redirection} {history : List FacEvent} {v : Option FacEvent}
    (h : m.redirect host event t rd k history = .ok (v, m')) : m'.hash = m.hash := by
  unfold redirect at h
  split at h
  · cases h
    rfl
  · dsimp only [bind, Except.bind] at h
    split at h
    · cases h
    · rename_i hfac
      split at h
      · cases h
        exact redirectFac_hash hfac
      · split at h
        · cases h
        · rename_i hevtype
          split at h
          all_goals cases h
          all_goals exact (redirectEvtype_hash hevtype).trans (redirectFac_hash hfac)

/-- A redirection is followed for a clone of the cache. -/
theorem redirect_reused (h : m.Reused cached) (ht : t ∈ cached) (host : Host R) (event : Event R)
    (rd : Redirection) (k : FacEvent) (history : List FacEvent) :
    ∃ v m', m.redirect host event t rd k history = .ok (v, m') ∧ m'.Reused cached := by
  obtain ⟨v, m', hredirect, hinv, -⟩ := redirect_spec (h.front ht) host event rd k history
  exact ⟨v, m', hredirect, h.of_inv ht hinv (redirect_hash hredirect)⟩

end Mgr

end Evlog.Tmplmgmt
