/-
Evlog.Query.ScreenTheorems — what `prepareNonStdAtts` can come to.

The two loops over the non-standard attributes write into an array at the
position each entry names. When these positions are the entries' own,
each loop is a `map` over the list (`screenAtts_eq`, `fixStructRefs_eq`),
and `prepareNonStdAtts` on a template has three outcomes
(`prepareNonStdAtts_cases`): no attribute is usable, a missing attribute
decides the query, or the template is populated.
-/
import Evlog.Query.Evaluate

namespace Evlog.Query

open Evlog.Lib

/-! ## The loops as maps -/

def fixedAtt (t : Template) (nsa : NonStdAtt) : Option Nat :=
  if (screenedAtt t nsa).isSome && nsa.strref then t.getattPopulated nsa.nsaName
  else screenedAtt t nsa

theorem fixedAtt_of_screenedAtt_none {t : Template} {nsa : NonStdAtt}
    (h : screenedAtt t nsa = none) : fixedAtt t nsa = none := by
  simp [fixedAtt, h]

/-- The state of the first loop after the entries `done`, with room for
`k` more. -/
def screeningOf (t : Template) (done : List NonStdAtt) (k : Nat) : Screening where
  tmplAtts := done.map (screenedAtt t) ++ List.replicate k none
  anyValidAtts := done.any fun nsa => (screenedAtt t nsa).isSome
  anyStrRefs := done.any (·.strref)
  foundInvalidAtt := done.any fun nsa => (screenedAtt t nsa).isNone

theorem screenEntry_screeningOf (t : Template) (done : List NonStdAtt) (k : Nat) (nsa : NonStdAtt)
    (h : nsa.nsaAtt = done.length) :
    screenEntry t (screeningOf t done (k + 1)) nsa = some (screeningOf t (done ++ [nsa]) k) := by
  have hlt : nsa.nsaAtt < (screeningOf t done (k + 1)).tmplAtts.length := by
    simp only [screeningOf, List.length_append, List.length_map, List.length_replicate]
    omega
  unfold screenEntry
  rw [if_pos hlt]
  simp [screeningOf, h, List.replicate_succ]

theorem foldlM_screenEntry (t : Template) (done rest : List NonStdAtt)
    (h : PositionIndexed (done ++ rest)) :
    rest.foldlM (screenEntry t) (screeningOf t done rest.length)
      = some (screeningOf t (done ++ rest) 0) := by
  induction rest generalizing done with
  | nil => simp [screeningOf]
  | cons nsa rest ih =>
    have hpos : nsa.nsaAtt = done.length := h done.length nsa (by simp)
    rw [List.foldlM_cons, List.length_cons, screenEntry_screeningOf t done _ nsa hpos,
      Option.bind_eq_bind, Option.bind_some, ih (done ++ [nsa]) (by simpa using h)]
    simp

variable {nsAtts : List NonStdAtt}

/-- The first loop stores every entry's attribute at its position. -/
theorem screenAtts_eq (t : Template) (h : PositionIndexed nsAtts) :
    screenAtts t nsAtts = some (screeningOf t nsAtts 0) := by
  have := foldlM_screenEntry t [] nsAtts h
  simpa [screenAtts, screeningOf] using this

theorem screeningOf_tmplAtts (t : Template) (nsAtts : List NonStdAtt) :
    (screeningOf t nsAtts 0).tmplAtts = nsAtts.map (screenedAtt t) := by
  simp [screeningOf]

theorem foldl_fixStructRef (t : Template) (done rest : List NonStdAtt)
    (h : PositionIndexed (done ++ rest)) :
    rest.foldl (fixStructRef t) (done.map (fixedAtt t) ++ rest.map (screenedAtt t))
      = (done ++ rest).map (fixedAtt t) := by
  induction rest generalizing done with
  | nil => simp
  | cons nsa rest ih =>
    have hpos : nsa.nsaAtt = done.length := h done.length nsa (by simp)
    have hstep : fixStructRef t (done.map (fixedAtt t) ++ (nsa :: rest).map (screenedAtt t)) nsa
        = (done ++ [nsa]).map (fixedAtt t) ++ rest.map (screenedAtt t) := by
      unfold fixStructRef
      simp only [hpos, List.map_cons, List.getD_eq_getElem?_getD]
      rw [List.getElem?_append_right (by simp)]
      simp only [List.length_map, Nat.sub_self, List.getElem?_cons_zero, Option.getD_some]
      split
      · next hc => simp [fixedAtt, hc]
      · next hc => simp [fixedAtt, hc]
    rw [List.foldl_cons, hstep, ih (done ++ [nsa]) (by simpa using h)]
    simp

/-- `fixStructRefs` looks the struct members up again. -/
theorem fixStructRefs_eq (t : Template) (h : PositionIndexed nsAtts) :
    fixStructRefs t nsAtts (nsAtts.map (screenedAtt t)) = nsAtts.map (fixedAtt t) := by
  simpa [fixStructRefs] using foldl_fixStructRef t [] nsAtts h

/-- Without struct members there is nothing to look up again. -/
theorem map_fixedAtt_of_no_strref (t : Template) (h : nsAtts.any (·.strref) = false) :
    nsAtts.map (fixedAtt t) = nsAtts.map (screenedAtt t) := by
  apply List.map_congr_left
  intro nsa hnsa
  have hs : nsa.strref = false := by
    simpa using List.any_eq_false.mp h nsa hnsa
  simp [fixedAtt, hs]

theorem getD_map_screenedAtt (t : Template) (h : PositionIndexed nsAtts) {nsa : NonStdAtt}
    (hnsa : nsa ∈ nsAtts) :
    (nsAtts.map (screenedAtt t)).getD nsa.nsaAtt none = screenedAtt t nsa := by
  obtain ⟨i, hi⟩ := List.mem_iff_getElem?.mp hnsa
  rw [h i nsa hi, List.getD_eq_getElem?_getD, List.getElem?_map, hi]
  rfl

/-! ## The second loop -/

/-- The second loop finds a missing attribute that decides, if there is
one. -/
theorem missingResult_cases (tmplAtts : List (Option Nat)) (nsAtts : List NonStdAtt) :
    (∃ nsa ∈ nsAtts, tmplAtts.getD nsa.nsaAtt none = none ∧
        nsa.nsaResultIfMissing ≠ evlFuzzyMaybe ∧
        missingResult tmplAtts nsAtts = nsa.nsaResultIfMissing) ∨
      (∀ nsa ∈ nsAtts, tmplAtts.getD nsa.nsaAtt none = none →
        nsa.nsaResultIfMissing = evlFuzzyMaybe) ∧
      missingResult tmplAtts nsAtts = evlFuzzyMaybe := by
  induction nsAtts with
  | nil => exact .inr ⟨by simp, rfl⟩
  | cons nsa rest ih =>
    rw [missingResult]
    split
    · next hc =>
      simp only [Bool.and_eq_true, Option.isNone_iff_eq_none, decide_eq_true_eq] at hc
      exact .inl ⟨nsa, by simp, hc.1, hc.2, rfl⟩
    · next hc =>
      simp only [Bool.and_eq_true, Option.isNone_iff_eq_none, decide_eq_true_eq, not_and,
        not_not] at hc
      rcases ih with ⟨nsa', hmem, hrest⟩ | ⟨hall, heq⟩
      · exact .inl ⟨nsa', List.mem_cons_of_mem _ hmem, hrest⟩
      · refine .inr ⟨?_, heq⟩
        intro nsa' hmem
        rcases List.mem_cons.mp hmem with rfl | hmem
        · exact hc
        · exact hall nsa' hmem

/-! ## `prepareNonStdAtts` -/

def releasedClone (flags : TmplMgmtFlags) : CloneState := evlReleasetemplate flags ⟨false, 0, 0⟩

/-- What became of a template: it has no usable attribute, a missing
attribute decides the query, or it has been populated. -/
inductive PreparedCase (flags : TmplMgmtFlags) (ns : NonStdAtts) (t : Template) :
    EvlFuzzyBoolean → Prepared → Prop where
  | noneUsable (h : ∀ nsa ∈ ns.nsAtts, screenedAtt t nsa = none) :
      PreparedCase flags ns t ns.nsResultIfAllAttsMissing
        ⟨some (releasedClone flags), some (ns.nsAtts.map fun _ => none)⟩
  | decided (nsa nsa' : NonStdAtt) (hmem : nsa ∈ ns.nsAtts) (hmissing : screenedAtt t nsa = none)
      (hfb : nsa.nsaResultIfMissing ≠ evlFuzzyMaybe) (hmem' : nsa' ∈ ns.nsAtts)
      (husable : (screenedAtt t nsa').isSome) (atts : TmplAtts) :
      PreparedCase flags ns t nsa.nsaResultIfMissing ⟨some (releasedClone flags), atts⟩
  | populated (nsa' : NonStdAtt) (hmem' : nsa' ∈ ns.nsAtts)
      (husable : (screenedAtt t nsa').isSome)
      (hundecided : ∀ nsa ∈ ns.nsAtts, screenedAtt t nsa = none →
        nsa.nsaResultIfMissing = evlFuzzyMaybe) :
      PreparedCase flags ns t evlFuzzyMaybe
        ⟨some ⟨true, 0, 0⟩,
          some (ns.nsAtts.map fun nsa => (fixedAtt t nsa).map t.populatedAtt)⟩

theorem prepareNonStdAtts_none (flags : TmplMgmtFlags) (ns : NonStdAtts) :
    prepareNonStdAtts flags ns none = some (ns.nsResultIfAllAttsMissing, ⟨none, none⟩) := rfl

theorem prepareNonStdAtts_cases (flags : TmplMgmtFlags) {ns : NonStdAtts} (t : Template)
    (h : PositionIndexed ns.nsAtts) :
    ∃ fb ec, prepareNonStdAtts flags ns (some t) = some (fb, ec) ∧
      PreparedCase flags ns t fb ec := by
  simp only [prepareNonStdAtts, screenUnpopulatedTemplate, screenAtts_eq t h, Option.bind_eq_bind,
    Option.bind_some]
  by_cases hvalid : (screeningOf t ns.nsAtts 0).anyValidAtts = true
  · obtain ⟨nsa', hmem', husable⟩ := List.any_eq_true.mp hvalid
    -- the populated outcome, whichever way screening came to `evlFuzzyMaybe`
    have hpop : ∀ hundecided : ∀ nsa ∈ ns.nsAtts, screenedAtt t nsa = none →
          nsa.nsaResultIfMissing = evlFuzzyMaybe,
        PreparedCase flags ns t evlFuzzyMaybe ⟨some ⟨true, 0, 0⟩,
          some ((if (screeningOf t ns.nsAtts 0).anyStrRefs then
            fixStructRefs t ns.nsAtts (screeningOf t ns.nsAtts 0).tmplAtts
            else (screeningOf t ns.nsAtts 0).tmplAtts).map (·.map t.populatedAtt))⟩ := by
      intro hundecided
      have hatts : (if (screeningOf t ns.nsAtts 0).anyStrRefs then
          fixStructRefs t ns.nsAtts (screeningOf t ns.nsAtts 0).tmplAtts
          else (screeningOf t ns.nsAtts 0).tmplAtts) = ns.nsAtts.map (fixedAtt t) := by
        rw [screeningOf_tmplAtts, fixStructRefs_eq t h]
        split
        · rfl
        · next hs => exact (map_fixedAtt_of_no_strref t (by simpa [screeningOf] using hs)).symm
      rw [hatts, List.map_map]
      exact .populated nsa' hmem' husable hundecided
    cases hinv : (screeningOf t ns.nsAtts 0).foundInvalidAtt with
    | false =>
      refine ⟨evlFuzzyMaybe, _, by simp [hvalid], hpop ?_⟩
      intro nsa hnsa hnone
      have := List.any_eq_false.mp hinv nsa hnsa
      simp [hnone] at this
    | true =>
      rcases missingResult_cases (screeningOf t ns.nsAtts 0).tmplAtts ns.nsAtts with
        ⟨nsa, hmem, hnone, hne, heq⟩ | ⟨hall, heq⟩
      · rw [screeningOf_tmplAtts, getD_map_screenedAtt t h hmem] at hnone
        refine ⟨nsa.nsaResultIfMissing, _, ?_, .decided nsa nsa' hmem hnone hne hmem' husable
          (some ((screeningOf t ns.nsAtts 0).tmplAtts.map (·.map t.att)))⟩
        simp [hvalid, heq, hne, releasedClone]
      · refine ⟨evlFuzzyMaybe, _, by simp [hvalid, heq], hpop ?_⟩
        intro nsa hnsa hnone
        refine hall nsa hnsa ?_
        rw [screeningOf_tmplAtts, getD_map_screenedAtt t h hnsa, hnone]
  · have hnone : ∀ nsa ∈ ns.nsAtts, screenedAtt t nsa = none := by
      intro nsa hnsa
      have := List.any_eq_false.mp (Bool.eq_false_iff.mpr hvalid) nsa hnsa
      simpa using this
    have hatts : (screeningOf t ns.nsAtts 0).tmplAtts.map (·.map t.att)
        = ns.nsAtts.map fun _ => (none : Option Attribute) := by
      rw [screeningOf_tmplAtts, List.map_map]
      apply List.map_congr_left
      intro nsa hnsa
      simp [hnone nsa hnsa]
    refine ⟨ns.nsResultIfAllAttsMissing, _, ?_, .noneUsable hnone⟩
    simp only [Bool.not_eq_true] at hvalid
    simp [hvalid, hatts, releasedClone]

end Evlog.Query
