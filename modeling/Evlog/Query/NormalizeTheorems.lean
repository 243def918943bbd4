/-
Evlog.Query.NormalizeTheorems — what normalization promises evaluation.

`LeafNormalized` is the interface between normalization and evaluation: how
a leaf of the parse tree and the leaf it becomes are related, with what is
known about the rewritten operand (`evlQNormalizeTree_leaves`). Optimization
relies on `evlQNormalizeTree_registered`.

The promise has two holes. `host contains NAME`, with a bare name, passes
`normalizeAttHost` unchanged, and the evaluator asserts that the operand
is an integer. And a non-standard attribute compared as text is formatted
into a buffer of `EVL_ATTRSTR_MAXLEN`; the evaluator asserts that it fits.
`normalized_evaluates_iff` says that these are the only ones.
-/
import Evlog.Lib.SerialList
import Evlog.Query.EvaluateTheorems
import Evlog.Query.Normalize

namespace Evlog.Query

open Evlog.Lib Evlog.Posix

theorem except_bind_eq_ok {ε α β : Type} {x : Except ε α} {f : α → Except ε β} {b : β}
    (h : (x >>= f) = .ok b) : ∃ a, x = .ok a ∧ f a = .ok b := by
  cases x with
  | error e => cases h
  | ok a => exact ⟨a, rfl, h⟩

/-! ## Operands -/

def PNode.isVal : PNode → Bool
  | .val _ _ _ => true
  | _ => false

/-- `nt_string` or `nt_regex`. -/
def PNode.isText : PNode → Bool
  | .string _ _ => true
  | .regex _ _ => true
  | _ => false

theorem not_semanticError {α : Type} {msg : String} {x : α} : semanticError msg ≠ .ok x := by
  unfold semanticError
  intro h
  cases h

variable {attName s what : String} {op o : Op} {opTable : List Op} {r r' n n' v t q v' : PNode}

theorem verifyOp_ok (h : verifyOp attName op opTable r = .ok r') : op ∈ opTable ∧ r' = r := by
  unfold verifyOp at h
  split at h
  · next hop => exact ⟨hop, (Except.ok.inj h).symm⟩
  · exact absurd h not_semanticError

variable {size a i b : Nat}

theorem normalizeInteger_ok {isSigned : Bool}
    (h : normalizeInteger isSigned size attName r = .ok r') : r.isVal = true ∧ r'.isVal = true := by
  unfold normalizeInteger at h
  split at h
  · split at h
    · exact absurd h not_semanticError
    · split at h
      · exact absurd h not_semanticError
      · split at h <;> cases h <;> exact ⟨rfl, rfl⟩
  · exact absurd h not_semanticError

theorem normalizeIntegerAtt_ok {isSigned : Bool}
    (h : normalizeIntegerAtt isSigned size attName op r = .ok r') :
    r.isVal = true ∧ r'.isVal = true := by
  obtain ⟨r₁, h₁, h₂⟩ := except_bind_eq_ok h
  rw [(verifyOp_ok h₂).2]
  exact normalizeInteger_ok h₁

variable {sys : System}

theorem normalizeRegex_some (h : normalizeRegex sys attName op a s = .ok (some r')) :
    r'.isText = true := by
  unfold normalizeRegex at h
  split at h
  · split at h
    · cases h
      rfl
    · exact absurd h not_semanticError
  · cases h

theorem normalizeStringOrRegex_ok (h : normalizeStringOrRegex sys attName op a s = .ok r') :
    r'.isText = true := by
  obtain ⟨x, hx, h⟩ := except_bind_eq_ok h
  cases x with
  | some r =>
    cases h
    exact normalizeRegex_some hx
  | none =>
    rw [(verifyOp_ok h).2]
    rfl

theorem changeNameNodeToInt_ok {table : NvTable}
    (h : changeNameNodeToInt table attName a s = .ok r') : r'.isVal = true := by
  unfold changeNameNodeToInt at h
  split at h
  · cases h
    rfl
  · exact absurd h not_semanticError

/-- A name from a table, with the operator checked afterwards. -/
theorem changeNameNodeToInt_verifyOp_ok {table : NvTable}
    (h : (changeNameNodeToInt table attName a s >>= verifyOp attName op opTable) = .ok r') :
    r'.isVal = true := by
  obtain ⟨r₁, h₁, h₂⟩ := except_bind_eq_ok h
  rw [(verifyOp_ok h₂).2]
  exact changeNameNodeToInt_ok h₁

/-! ## Comparisons with a standard attribute -/

/-- The selectors whose text the evaluator can always produce. -/
def Selector.hasText (sel : Selector) : Bool :=
  sel = .data || sel = .host || sel.comparesAsText

/-- An operand the evaluator can compare the attribute with. -/
def Comparable (sel : Selector) (r : PNode) : Prop :=
  r.isVal = true ∨ (r.isText = true ∧ sel.hasText = true)

theorem normalizeHostName_ok (h : normalizeHostName sys attName op a s r = .ok r') :
    Comparable .host r' ∨ (op = .contains ∧ r' = r) := by
  unfold normalizeHostName at h
  split at h
  · left
    left
    split at h
    · cases h
    · rw [(verifyOp_ok h).2]
      rfl
    · dsimp only at h
      split at h
      · exact absurd h not_semanticError
      · cases h
        rfl
  · split at h
    · next hop => exact .inr ⟨hop, (Except.ok.inj h).symm⟩
    · left
      obtain ⟨x, hx, h⟩ := except_bind_eq_ok h
      cases x with
      | some r₁ =>
        cases h
        exact .inr ⟨normalizeRegex_some hx, rfl⟩
      | none => cases h

/-- `normalizeAttHost` lets a bare name through after `contains`. -/
theorem normalizeAttHost_ok (hr : ParsedVal r) (h : normalizeAttHost sys attName op r = .ok r') :
    Comparable .host r' ∨ (op = .contains ∧ (∃ a s, r = .name a s) ∧ r' = r) := by
  cases hr with
  | val a m v =>
    left
    left
    obtain ⟨r₁, h₁, h₂⟩ := except_bind_eq_ok h
    cases r₁ with
    | val a' m' v' =>
      dsimp only at h₂
      split at h₂
      · exact absurd h₂ not_semanticError
      · rw [(verifyOp_ok h₂).2]
        rfl
    | _ => exact absurd (normalizeInteger_ok h₁).2 (by simp [PNode.isVal])
  | name a s =>
    rcases normalizeHostName_ok h with hc | ⟨hop, rfl⟩
    · exact .inl hc
    · exact .inr ⟨hop, ⟨a, s, rfl⟩, rfl⟩
  | string a s =>
    rcases normalizeHostName_ok h with hc | ⟨hop, rfl⟩
    · exact .inl hc
    · exact .inl (.inr ⟨rfl, rfl⟩)

theorem normalizeAttAge_ok (hr : ParsedVal r) (h : normalizeAttAge attName op r = .ok r') :
    r'.isVal = true := by
  cases hr with
  | val a m v =>
    obtain ⟨r₁, h₁, h₂⟩ := except_bind_eq_ok h
    cases r₁ with
    | val a' m' v' =>
      rw [(verifyOp_ok h₂).2]
      rfl
    | _ => exact absurd (normalizeInteger_ok h₁).2 (by simp [PNode.isVal])
  | string a s =>
    simp only [normalizeAttAge] at h
    split at h
    · exact absurd h not_semanticError
    · rw [(verifyOp_ok h).2]
      rfl
  | name a s => exact absurd h not_semanticError

theorem normalizeAttFacility_ok (hr : ParsedVal r)
    (h : normalizeAttFacility sys attName op r = .ok r') : Comparable .facility r' := by
  have hname : ∀ {a : Nat} {s : String},
      (if sys.facilityCode s = 0xffffffff then
          semanticError ("Unrecognized value for facility attribute: " ++ s)
        else verifyOp attName op [.eq, .ne] (.val a false (sys.facilityCode s).toUInt64))
        = .ok r' → r'.isVal = true := by
    intro a s h
    split at h
    · exact absurd h not_semanticError
    · rw [(verifyOp_ok h).2]
      rfl
  cases hr with
  | val a m v => exact .inl (normalizeIntegerAtt_ok h).2
  | name a s => exact .inl (hname h)
  | string a s =>
    obtain ⟨x, hx, h⟩ := except_bind_eq_ok h
    cases x with
    | some r₁ =>
      cases h
      exact .inr ⟨normalizeRegex_some hx, rfl⟩
    | none => exact .inl (hname h)

variable {getnam : String → Option UInt32}

theorem namedId_ok
    (h : (match getnam s with
      | some id => verifyOp attName op uidGidOps (.val a false id.toUInt64)
      | none => semanticError ("Unknown " ++ what ++ " name: \"" ++ s ++ "\"")) = .ok r') :
    r'.isVal = true := by
  split at h
  · rw [(verifyOp_ok h).2]
    rfl
  · exact absurd h not_semanticError

theorem normalizeIdAtt_ok (hr : ParsedVal r) (h : normalizeIdAtt getnam what attName op r = .ok r') :
    r'.isVal = true := by
  cases hr with
  | val a m v => exact (normalizeIntegerAtt_ok h).2
  | name a s => exact namedId_ok h
  | string a s => exact namedId_ok h

theorem normalizeAttFlags_ok (h : normalizeAttFlags attName op r = .ok r') : r'.isVal = true := by
  obtain ⟨r₁, h₁, h₂⟩ := except_bind_eq_ok h
  split at h₂
  · exact (normalizeInteger_ok h₂).2
  · exact changeNameNodeToInt_ok h₂
  · exact absurd h₂ not_semanticError

variable {sel : Selector}

theorem verifyOp_string_ok (hsel : sel.hasText = true)
    (h : verifyOp attName op opTable (.string a s) = .ok r') : Comparable sel r' := by
  rw [(verifyOp_ok h).2]
  exact .inr ⟨rfl, hsel⟩

theorem normalizeIntegerOrText_ok (hsel : sel.hasText = true) (hr : ParsedVal r)
    (h : normalizeIntegerOrText sys size attName op r = .ok r') : Comparable sel r' := by
  cases hr with
  | val a m v => exact .inl (normalizeIntegerAtt_ok h).2
  | string a s => exact .inr ⟨normalizeStringOrRegex_ok h, hsel⟩
  | name a s => exact absurd h not_semanticError

/-- What an accepted comparison with a standard attribute is compared
with. -/
theorem normalizeStdComparison_ok (hr : ParsedVal r)
    (h : normalizeStdComparison sys sel attName op r = .ok r') :
    Comparable sel r' ∨ (sel = .host ∧ op = .contains ∧ (∃ a s, r = .name a s) ∧ r' = r) := by
  cases sel with
  | host =>
    rcases normalizeAttHost_ok hr h with hc | hc
    · exact .inl hc
    · exact .inr ⟨rfl, hc⟩
  | data =>
    cases hr with
    | string a s => exact .inl (.inr ⟨normalizeStringOrRegex_ok h, rfl⟩)
    | _ => exact absurd h not_semanticError
  | recid =>
    cases hr with
    | string a s => exact .inl (verifyOp_string_ok rfl h)
    | val a m v => exact .inl (.inl (normalizeIntegerAtt_ok h).2)
    | name a s => exact .inl (.inl (normalizeIntegerAtt_ok h).2)
  | size => exact .inl (.inl (normalizeIntegerAtt_ok h).2)
  | format =>
    cases hr with
    | name a s => exact .inl (.inl (changeNameNodeToInt_verifyOp_ok h))
    | string a s => exact .inl (verifyOp_string_ok rfl h)
    | val a m v => exact .inl (.inl (normalizeIntegerAtt_ok h).2)
  | eventType =>
    cases hr with
    | name a s => exact .inl (.inl (changeNameNodeToInt_verifyOp_ok h))
    | string a s => exact .inl (.inl (by rw [(verifyOp_ok h).2]; rfl))
    | val a m v => exact .inl (.inl (normalizeIntegerAtt_ok h).2)
  | facility => exact .inl (normalizeAttFacility_ok hr h)
  | severity =>
    cases hr with
    | name a s => exact .inl (.inl (changeNameNodeToInt_verifyOp_ok h))
    | string a s => exact .inl (verifyOp_string_ok rfl h)
    | val a m v => exact absurd h not_semanticError
  | uid => exact .inl (.inl (normalizeIdAtt_ok hr h))
  | gid => exact .inl (.inl (normalizeIdAtt_ok hr h))
  | pid => exact .inl (.inl (normalizeIntegerAtt_ok h).2)
  | pgrp => exact .inl (.inl (normalizeIntegerAtt_ok h).2)
  | time => exact .inl (normalizeIntegerOrText_ok rfl hr h)
  | flags => exact .inl (.inl (normalizeAttFlags_ok h))
  | thread =>
    cases hr with
    | string a s => exact .inl (verifyOp_string_ok rfl h)
    | val a m v => exact .inl (.inl (normalizeIntegerAtt_ok h).2)
    | name a s => exact absurd h not_semanticError
  | processor => exact .inl (normalizeIntegerOrText_ok rfl hr h)
  | age => exact .inl (.inl (normalizeAttAge_ok hr h))

/-! ## Evaluating a normalized operand -/

theorem stdAttText_member (inp : EvalInput) (hdata : sel ≠ .data) (hhost : sel ≠ .host) :
    stdAttText inp sel
      = match posixLogMemtostr inp.sys sel inp.entry posixLogMemstrMaxlen with
        | .ok s => some (some s)
        | .error _ => none := by
  cases sel <;> first | rfl | exact absurd rfl hdata | exact absurd rfl hhost

theorem stdAttText_isSome (inp : EvalInput) (h : sel.hasText = true) :
    (stdAttText inp sel).isSome := by
  by_cases hdata : sel = .data
  · subst hdata
    simp only [stdAttText]
    split <;> rfl
  by_cases hhost : sel = .host
  · subst hhost
    rfl
  have htext : sel.comparesAsText = true := by
    simpa [Selector.hasText, hdata, hhost] using h
  obtain ⟨s, hs⟩ := posixLogMemtostr_comparesAsText inp.sys inp.entry htext
  rw [stdAttText_member inp hdata hhost, hs]
  rfl

theorem compareText_isSome (sys : System) (op : Op) (leftStr : String) (h : r.isText = true) :
    (compareText sys op leftStr r).isSome := by
  cases r with
  | string a s => rfl
  | regex a s => rfl
  | _ => cases h

theorem evaluateStdComparison_text (inp : EvalInput) (op : Op) (sel : Selector)
    (h : r.isText = true) :
    evaluateStdComparison inp op sel r
      = (stdAttText inp sel).bind fun x =>
          match x with
          | none => some false
          | some leftStr => compareText inp.sys op leftStr r := by
  cases r with
  | string a s => rfl
  | regex a s => rfl
  | _ => cases h

theorem evaluateStdComparison_isSome (inp : EvalInput) (op : Op) (h : Comparable sel r) :
    (evaluateStdComparison inp op sel r).isSome := by
  rcases h with hval | ⟨htext, hsel⟩
  · cases r with
    | val a m v => rfl
    | _ => cases hval
  · obtain ⟨x, hx⟩ := Option.isSome_iff_exists.mp (stdAttText_isSome inp hsel)
    rw [evaluateStdComparison_text inp op sel htext, hx, Option.bind_some]
    cases x with
    | none => rfl
    | some leftStr => exact compareText_isSome inp.sys op leftStr htext

theorem compareExistingAtt_val (sys : System) (op : Op) (att : Attribute) (h : r.isVal = true) :
    (compareExistingAtt sys op att r).isSome := by
  cases r with
  | val a m v => rfl
  | _ => cases h

/-- Compared as text, an attribute has to fit in the evaluator's buffer. -/
theorem compareExistingAtt_eq (sys : System) (op : Op) (att : Attribute) (h : r.isText = true) :
    compareExistingAtt sys op att r
      = match evlattGetstring att evlAttrstrMaxlen with
        | .ok leftStr => compareText sys op leftStr r
        | .error _ => none := by
  cases r with
  | string a s => rfl
  | regex a s => rfl
  | _ => cases h

theorem compareExistingAtt_text (sys : System) (op : Op) (att : Attribute) (h : r.isText = true) :
    (compareExistingAtt sys op att r).isSome ↔
      ∀ err, evlattGetstring att evlAttrstrMaxlen ≠ .error err := by
  rw [compareExistingAtt_eq sys op att h]
  cases evlattGetstring att evlAttrstrMaxlen with
  | ok leftStr => simp [compareText_isSome sys op leftStr h]
  | error err => simp

/-! ## The list of non-standard attributes -/

def Extends (nsAtts nsAtts' : List NonStdAtt) : Prop :=
  ∀ (i : Nat) (nsa : NonStdAtt), nsAtts[i]? = some nsa →
    ∃ nsa', nsAtts'[i]? = some nsa' ∧ nsa'.nsaName = nsa.nsaName

theorem Extends.refl (nsAtts : List NonStdAtt) : Extends nsAtts nsAtts :=
  fun _ nsa h => ⟨nsa, h, rfl⟩

variable {l₁ l₂ nsAtts nsAtts' : List NonStdAtt}

theorem Extends.trans {l₃ : List NonStdAtt} (h₁ : Extends l₁ l₂) (h₂ : Extends l₂ l₃) :
    Extends l₁ l₃ := by
  intro i nsa h
  obtain ⟨nsa₂, h₂', hn₂⟩ := h₁ i nsa h
  obtain ⟨nsa₃, h₃', hn₃⟩ := h₂ i nsa₂ h₂'
  exact ⟨nsa₃, h₃', hn₃.trans hn₂⟩

theorem registerNonStdAtt_spec (attName : String) (h : PositionIndexed nsAtts) :
    PositionIndexed (registerNonStdAtt attName nsAtts).2 ∧
      Extends nsAtts (registerNonStdAtt attName nsAtts).2 ∧
      ∃ nsa, (registerNonStdAtt attName nsAtts).2[(registerNonStdAtt attName nsAtts).1]? = some nsa ∧
        nsa.nsaName = attName := by
  unfold registerNonStdAtt
  split
  · next i hi =>
    obtain ⟨hlt, hname, -⟩ := List.findIdx?_eq_some_iff_getElem.mp hi
    exact ⟨h, .refl _, nsAtts[i], List.getElem?_eq_getElem hlt, by simpa using hname⟩
  · refine ⟨?_, ?_, _, List.getElem?_concat_length, rfl⟩
    · intro i nsa hi
      rcases Nat.lt_trichotomy i nsAtts.length with hlt | rfl | hgt
      · rw [List.getElem?_append_left hlt] at hi
        exact h i nsa hi
      · rw [List.getElem?_concat_length] at hi
        cases hi
        rfl
      · rw [List.getElem?_eq_none (by simpa using hgt)] at hi
        cases hi
    · intro i nsa hi
      have hlt := (List.getElem?_eq_some_iff.mp hi).1
      exact ⟨nsa, by rw [List.getElem?_append_left hlt, hi], rfl⟩

theorem modify_numeric_spec (i : Nat) (h : PositionIndexed nsAtts) :
    PositionIndexed (nsAtts.modify i fun nsa => { nsa with numeric := true }) ∧
      Extends nsAtts (nsAtts.modify i fun nsa => { nsa with numeric := true }) := by
  constructor
  · intro k nsa' hk
    rw [List.getElem?_modify, Option.map_eq_map, Option.map_eq_some_iff] at hk
    obtain ⟨nsa, hk, rfl⟩ := hk
    have := h k nsa hk
    split <;> exact this
  · intro k nsa hk
    refine ⟨_, by rw [List.getElem?_modify, hk]; rfl, ?_⟩
    split <;> rfl

/-! ## Leaves before and after -/

/-- A leaf of the parse tree, and what normalization makes of it. -/
inductive LeafNormalized (nsAtts : List NonStdAtt) : PNode → PNode → Prop where
  | attname (a : Nat) (s : String) (sel : Selector) (hsel : stdSelector s = some sel) :
      LeafNormalized nsAtts (.name a s) (.attname a sel s)
  | nsaname (a : Nat) (s : String) (i : Nat) (nsa : NonStdAtt) (hsel : stdSelector s = none)
      (hi : nsAtts[i]? = some nsa) (hname : nsa.nsaName = s) :
      LeafNormalized nsAtts (.name a s) (.nsaname a i s)
  | stdComparison (a b : Nat) (o : Op) (s : String) (sel : Selector) (v v' : PNode)
      (ho : o.isComparison = true) (hsel : stdSelector s = some sel)
      (hv : Comparable sel v' ∨
        (sel = .host ∧ o = .contains ∧ (∃ c n, v = .name c n) ∧ v' = v))
      (hhost : sel = .host → o = .contains → (∃ c n, v = .name c n) → v' = v) :
      LeafNormalized nsAtts (.op a o (.name b s) v) (.op a o (.attname b sel s) v')
  | nsaComparison (a b : Nat) (o : Op) (s : String) (i : Nat) (nsa : NonStdAtt) (v v' : PNode)
      (ho : o.isComparison = true) (hsel : stdSelector s = none) (hi : nsAtts[i]? = some nsa)
      (hname : nsa.nsaName = s)
      (hv : (v.isVal = true ∧ v'.isVal = true) ∨ ((∃ c n, v = .string c n) ∧ v'.isText = true)) :
      LeafNormalized nsAtts (.op a o (.name b s) v) (.op a o (.nsaname b i s) v')

theorem LeafNormalized.mono (h : Extends l₁ l₂) (hn : LeafNormalized l₁ n n') :
    LeafNormalized l₂ n n' := by
  cases hn with
  | attname a s sel hsel => exact .attname a s sel hsel
  | nsaname a s i nsa hsel hi hname =>
    obtain ⟨nsa', hi', hname'⟩ := h i nsa hi
    exact .nsaname a s i nsa' hsel hi' (hname'.trans hname)
  | stdComparison a b o s sel v v' ho hsel hv hhost =>
    exact .stdComparison a b o s sel v v' ho hsel hv hhost
  | nsaComparison a b o s i nsa v v' ho hsel hi hname hv =>
    obtain ⟨nsa', hi', hname'⟩ := h i nsa hi
    exact .nsaComparison a b o s i nsa' v v' ho hsel hi' (hname'.trans hname) hv

theorem LeafNormalized.normalizedLeaf (h : LeafNormalized nsAtts n n') : NormalizedLeaf n' := by
  cases h with
  | attname a s sel hsel => exact .attname a sel s
  | nsaname a s i nsa hsel hi hname => exact .nsaname a i s
  | stdComparison a b o s sel v v' ho => exact .stdComparison a b o sel s v' ho
  | nsaComparison a b o s i nsa v v' ho => exact .nsaComparison a b o i s v' ho

theorem LeafNormalized.ref_lt (h : LeafNormalized nsAtts n n') (hi : n'.nsaRef? = some i) :
    i < nsAtts.length := by
  cases h with
  | nsaname a s k nsa hsel hk hname =>
    cases hi
    exact (List.getElem?_eq_some_iff.mp hk).1
  | nsaComparison a b o s k nsa v v' ho hsel hk hname hv =>
    cases hi
    exact (List.getElem?_eq_some_iff.mp hk).1
  | _ => cases hi

/-! ## Normalizing a leaf -/

/-- What one step of normalization does to the list: entries are kept, and
it grows only for a leaf that refers to it. -/
structure ListStep (nsAtts nsAtts' : List NonStdAtt) (leaves : List PNode) : Prop where
  positionIndexed : PositionIndexed nsAtts'
  keeps : Extends nsAtts nsAtts'
  grows : nsAtts' = nsAtts ∨ ∃ n ∈ leaves, n.nsaRef?.isSome

variable {purpose : Purpose}

/-- A name is that of a standard attribute, or is registered. -/
theorem makeAttnameNode_calls (h : makeAttnameNode purpose a s nsAtts = .ok (n, nsAtts')) :
    (∃ sel, stdSelector s = some sel ∧ n = .attname a sel s ∧ nsAtts' = nsAtts) ∨
      (stdSelector s = none ∧ n = .nsaname a (registerNonStdAtt s nsAtts).1 s ∧
        nsAtts' = (registerNonStdAtt s nsAtts).2) := by
  unfold makeAttnameNode at h
  split at h
  · next sel hsel =>
    split at h
    · exact absurd h not_semanticError
    · cases h
      exact .inl ⟨sel, hsel, rfl, rfl⟩
  · next hsel =>
    split at h
    · dsimp only at h
      cases h
      exact .inr ⟨hsel, rfl, rfl⟩
    · exact absurd h not_semanticError

theorem makeAttnameNode_ok (hpos : PositionIndexed nsAtts)
    (h : makeAttnameNode purpose a s nsAtts = .ok (n, nsAtts')) :
    LeafNormalized nsAtts' (.name a s) n ∧ ListStep nsAtts nsAtts' [n] := by
  rcases makeAttnameNode_calls h with ⟨sel, hsel, rfl, rfl⟩ | ⟨hsel, rfl, rfl⟩
  · exact ⟨.attname a s sel hsel, hpos, .refl _, .inl rfl⟩
  · obtain ⟨hpos', hext, nsa, hi, hname⟩ := registerNonStdAtt_spec s hpos
    exact ⟨.nsaname a s _ nsa hsel hi hname, hpos', hext, .inr ⟨_, List.mem_singleton_self _, rfl⟩⟩

theorem normalizeComparisonWithNonStdAtt_ok (hpos : PositionIndexed nsAtts) (hr : ParsedVal r)
    (h : normalizeComparisonWithNonStdAtt sys i attName op r nsAtts = .ok (r', nsAtts')) :
    ((r.isVal = true ∧ r'.isVal = true) ∨ ((∃ c n, r = .string c n) ∧ r'.isText = true)) ∧
      PositionIndexed nsAtts' ∧ Extends nsAtts nsAtts' := by
  cases hr with
  | val a m v =>
    obtain ⟨r₁, h₁, h₂⟩ := except_bind_eq_ok h
    cases h₂
    exact ⟨.inl (normalizeIntegerAtt_ok h₁), modify_numeric_spec i hpos⟩
  | string a s =>
    obtain ⟨r₁, h₁, h₂⟩ := except_bind_eq_ok h
    cases h₂
    exact ⟨.inr ⟨⟨a, s, rfl⟩, normalizeStringOrRegex_ok h₁⟩, hpos, .refl _⟩
  | name a s =>
    obtain ⟨r₁, h₁, h₂⟩ := except_bind_eq_ok h
    exact absurd h₁ not_semanticError

theorem normalizeStdComparison_hostContains
    (h : normalizeStdComparison sys .host attName .contains (.name a s) = .ok r') :
    r' = .name a s := by
  cases h
  rfl

theorem normalizeComparison_ok (hpos : PositionIndexed nsAtts) (ho : o.isComparison = true)
    (hv : ParsedVal v)
    (h : normalizeComparison sys purpose a o (.name b s) v nsAtts = .ok (n, nsAtts')) :
    LeafNormalized nsAtts' (.op a o (.name b s) v) n ∧ ListStep nsAtts nsAtts' [n] := by
  obtain ⟨⟨left, nsAtts₁⟩, h₁, h₂⟩ := except_bind_eq_ok h
  obtain ⟨hleft, hstep⟩ := makeAttnameNode_ok hpos h₁
  cases hleft with
  | attname _ _ sel hsel =>
    have hsame : nsAtts₁ = nsAtts := by
      rcases hstep.grows with heq | ⟨m, hm, href⟩
      · exact heq
      · rw [List.mem_singleton.mp hm] at href
        cases href
    obtain ⟨v', h₃, h₄⟩ := except_bind_eq_ok h₂
    cases h₄
    refine ⟨.stdComparison a b o s sel v v' ho hsel (normalizeStdComparison_ok hv h₃) ?_,
      hstep.positionIndexed, hstep.keeps, .inl hsame⟩
    rintro rfl rfl ⟨c, n, rfl⟩
    exact normalizeStdComparison_hostContains h₃
  | nsaname _ _ i nsa hsel hi hname =>
    obtain ⟨⟨v', nsAtts₂⟩, h₃, h₄⟩ := except_bind_eq_ok h₂
    cases h₄
    obtain ⟨hv', hpos', hext⟩ :=
      normalizeComparisonWithNonStdAtt_ok hstep.positionIndexed hv h₃
    obtain ⟨nsa', hi', hname'⟩ := hext i nsa hi
    exact ⟨.nsaComparison a b o s i nsa' v v' ho hsel hi' (hname'.trans hname) hv',
      hpos', hstep.keeps.trans hext, .inr ⟨_, List.mem_singleton_self _, rfl⟩⟩

theorem evlQNormalizeTree_comparison {o : Op} (ho : o.isComparison) (a b : Nat) (s : String) (v : PNode) :
    evlQNormalizeTree sys purpose (.op a o (.name b s) v) nsAtts =
      normalizeComparison sys purpose a o (.name b s) v nsAtts := by
  cases o <;> first | rfl | cases ho

theorem evlQNormalizeTree_leaf (ht : ParsedLeaf t) (hpos : PositionIndexed nsAtts)
    (h : evlQNormalizeTree sys purpose t nsAtts = .ok (n, nsAtts')) :
    LeafNormalized nsAtts' t n ∧ ListStep nsAtts nsAtts' [n] := by
  cases ht with
  | name a s => exact makeAttnameNode_ok hpos h
  | comparison a b o s v ho hv =>
    rw [evlQNormalizeTree_comparison ho] at h
    exact normalizeComparison_ok hpos ho hv h

/-! ## Normalizing a tree -/

theorem evlQNormalizeTree_junct {j : Junctor} {a : Nat} {l r : PNode}
    (h : evlQNormalizeTree sys purpose (.op a (.ofJunctor j) l r) nsAtts = .ok (q, nsAtts')) :
    ∃ l' nsAtts₁ r', evlQNormalizeTree sys purpose l nsAtts = .ok (l', nsAtts₁) ∧
      evlQNormalizeTree sys purpose r nsAtts₁ = .ok (r', nsAtts') ∧ q = .op a (.ofJunctor j) l' r' := by
  replace h : (evlQNormalizeTree sys purpose l nsAtts >>= fun left =>
      evlQNormalizeTree sys purpose r left.2 >>= fun right =>
        .ok (.op a (.ofJunctor j) left.1 right.1, right.2)) = .ok (q, nsAtts') := by
    cases j <;> exact h
  obtain ⟨⟨l', nsAtts₁⟩, h₁, h⟩ := except_bind_eq_ok h
  obtain ⟨⟨r', nsAtts₂⟩, h₂, h₃⟩ := except_bind_eq_ok h
  cases h₃
  exact ⟨l', nsAtts₁, r', h₁, h₂, rfl⟩

theorem evlQNormalizeTree_leaves (ht : Parsed t) (hpos : PositionIndexed nsAtts)
    (h : evlQNormalizeTree sys purpose t nsAtts = .ok (q, nsAtts')) :
    Normalized q ∧ List.Forall₂ (LeafNormalized nsAtts') t.leaves q.leaves ∧
      ListStep nsAtts nsAtts' q.leaves := by
  induction ht generalizing nsAtts q nsAtts' with
  | leaf t ht =>
    obtain ⟨hleaf, hstep⟩ := evlQNormalizeTree_leaf ht hpos h
    have hn := hleaf.normalizedLeaf
    rw [leaves_of_parsedLeaf ht, leaves_of_normalizedLeaf hn]
    exact ⟨.leaf q hn, .cons hleaf .nil, hstep⟩
  | not a e he ih =>
    obtain ⟨⟨e', nsAtts₁⟩, h₁, h₂⟩ := except_bind_eq_ok h
    cases h₂
    obtain ⟨hn, hall, hstep⟩ := ih hpos h₁
    rw [leaves_not, leaves_not]
    exact ⟨.not a e' hn, hall, hstep⟩
  | junct j a l r hl hr ihl ihr =>
    obtain ⟨l', nsAtts₁, r', h₁, h₂, rfl⟩ := evlQNormalizeTree_junct h
    obtain ⟨hnl, halll, hstepl⟩ := ihl hpos h₁
    obtain ⟨hnr, hallr, hstepr⟩ := ihr hstepl.positionIndexed h₂
    rw [leaves_junct, leaves_junct]
    refine ⟨.junct j a l' r' hnl hnr,
      List.rel_append (halll.imp fun _ _ => .mono hstepr.keeps) hallr,
      hstepr.positionIndexed, hstepl.keeps.trans hstepr.keeps, ?_⟩
    rcases hstepr.grows with rfl | ⟨n, hn, href⟩
    · rcases hstepl.grows with rfl | ⟨n, hn, href⟩
      · exact .inl rfl
      · exact .inr ⟨n, List.mem_append_left _ hn, href⟩
    · exact .inr ⟨n, List.mem_append_right _ hn, href⟩

theorem positionIndexed_nil : PositionIndexed [] := by
  intro i nsa h
  simp at h

/-- The list that normalization registers is the one optimization and
evaluation rely on. -/
theorem evlQNormalizeTree_registered (ht : Parsed t)
    (h : evlQNormalizeTree sys purpose t [] = .ok (q, nsAtts)) (hne : nsAtts ≠ []) :
    Registered nsAtts q := by
  obtain ⟨hn, hall, hstep⟩ := evlQNormalizeTree_leaves ht positionIndexed_nil h
  refine ⟨hn, hstep.positionIndexed, ?_, hstep.grows.resolve_left hne⟩
  intro n hmem i hi
  obtain ⟨m, -, hm⟩ := exists_left_of_mem hall hmem
  exact hm.ref_lt hi

/-! ## Where evaluation aborts -/

def HostContainsName : PNode → Prop
  | .op _ .contains (.name _ s) (.name _ _) => s = "host"
  | _ => False

/-- A comparison of a non-standard attribute with a string, where the
record has the attribute but its text cannot be had in
`EVL_ATTRSTR_MAXLEN` bytes. `resolve` says which attribute the record has
under a name; without it there is no template. -/
def UnprintableAtt (resolve : Option (String → Option Attribute)) : PNode → Prop
  | .op _ _ (.name _ s) (.string _ _) =>
    stdSelector s = none ∧ ∃ f att err, resolve = some f ∧ f s = some att ∧
      att.attExists = true ∧ evlattGetstring att evlAttrstrMaxlen = .error err
  | _ => False

/-- The array `tmplAtts` for a record whose names resolve this way. -/
def tmplAttsFor (resolve : Option (String → Option Attribute)) (nsAtts : List NonStdAtt) :
    TmplAtts :=
  resolve.map fun f => nsAtts.map fun nsa => f nsa.nsaName

theorem stdSelector_host (h : stdSelector s = some .host) : s = "host" := by
  have htable : ∀ nv ∈ evlAttributes, nv.1 ≠ .host := by decide
  unfold stdSelector at h
  split at h
  · next sel hsel =>
    cases h
    rw [evlGetValueByName, Option.map_eq_some_iff] at hsel
    obtain ⟨nv, hfind, hnv⟩ := hsel
    exact absurd hnv (htable nv (List.mem_of_find?_eq_some hfind))
  · split at h
    · cases h
    · split at h
      · cases h
      · split at h
        · next hs => exact hs
        · cases h

theorem nsaAttr_tmplAttsFor (hpos : PositionIndexed nsAtts)
    (resolve : Option (String → Option Attribute)) {nsa : NonStdAtt} (hi : nsAtts[i]? = some nsa) :
    nsaAttr nsAtts (tmplAttsFor resolve nsAtts) i = some (resolve.bind fun f => f nsa.nsaName) := by
  cases resolve with
  | none => rfl
  | some f => exact nsaAttr_map hpos _ hi

/-- A comparison with a standard attribute aborts exactly on
`host contains NAME`. -/
theorem stdComparison_isSome_iff (inp : EvalInput) (hsel : stdSelector s = some sel)
    (hv : Comparable sel v' ∨ (sel = .host ∧ o = .contains ∧ (∃ c n, v = .name c n) ∧ v' = v))
    (hhost : sel = .host → o = .contains → (∃ c n, v = .name c n) → v' = v) :
    (evaluateStdComparison inp o sel v').isSome ↔ ¬ HostContainsName (.op a o (.name b s) v) := by
  constructor
  · intro hsome hbad
    cases v with
    | name c m =>
      cases o with
      | contains =>
        have hs : s = "host" := hbad
        subst hs
        have hsel' : sel = .host := Option.some.inj (hsel.symm.trans (by decide))
        rw [hhost hsel' rfl ⟨c, m, rfl⟩] at hsome
        cases hsome
      | _ => exact hbad
    | _ => cases o <;> exact hbad
  · intro hgood
    rcases hv with hc | ⟨rfl, rfl, ⟨c, m, rfl⟩, -⟩
    · exact evaluateStdComparison_isSome inp o hc
    · exact absurd (stdSelector_host hsel) hgood

/-- Compared with a string, an attribute the record has must be
printable. -/
theorem compareResolvedAtt_isSome_iff (sys : System) (resolve : Option (String → Option Attribute))
    {c : Nat} {m : String} (hsel : stdSelector s = none) (htext : v'.isText = true) :
    (match resolve.bind fun f => f s with
      | none => some false
      | some att => if att.attExists then compareExistingAtt sys o att v' else some false).isSome
      ↔ ¬ UnprintableAtt resolve (.op a o (.name b s) (.string c m)) := by
  cases resolve with
  | none => simp [UnprintableAtt]
  | some f =>
    simp only [Option.bind_some, UnprintableAtt, hsel, true_and, Option.some.injEq]
    cases hf : f s with
    | none => simp [hf]
    | some att =>
      by_cases hex : att.attExists = true
      · simp only [hex, if_true, compareExistingAtt_text sys o att htext]
        constructor
        · rintro hall ⟨f', att', err, rfl, hf', -, herr⟩
          rw [hf] at hf'
          cases hf'
          exact hall err herr
        · intro hno err herr
          exact hno ⟨f, att, err, rfl, hf, hex, herr⟩
      · simp only [hex, Bool.false_eq_true, if_false, Option.isSome_some, true_iff]
        rintro ⟨f', att', err, rfl, hf', hex', -⟩
        rw [hf] at hf'
        cases hf'
        exact hex hex'

/-- A normalized leaf aborts exactly if it comes from one of the two
kinds. -/
theorem LeafNormalized.isSome_iff (h : LeafNormalized nsAtts n n') (hpos : PositionIndexed nsAtts)
    (inp : EvalInput) (resolve : Option (String → Option Attribute)) :
    (evaluateTree inp nsAtts (tmplAttsFor resolve nsAtts) n').isSome ↔
      ¬ HostContainsName n ∧ ¬ UnprintableAtt resolve n := by
  cases h with
  | attname a s sel hsel => simp [evaluateTree, HostContainsName, UnprintableAtt]
  | nsaname a s i nsa hsel hi hname =>
    rw [evaluateTree_nsaname, nsaAttr_tmplAttsFor hpos resolve hi]
    simp [HostContainsName, UnprintableAtt]
  | stdComparison a b o s sel v v' ho hsel hv hhost =>
    have hprint : ¬ UnprintableAtt resolve (.op a o (.name b s) v) := by
      intro hu
      cases v with
      | string c m => simp [UnprintableAtt, hsel] at hu
      | _ => exact hu
    rw [evaluateTree_stdComparison ho]
    simp only [hprint, not_false_eq_true, and_true]
    exact stdComparison_isSome_iff inp hsel hv hhost
  | nsaComparison a b o s i nsa v v' ho hsel hi hname hv =>
    rw [evaluateTree_nsaComparison ho, nsaAttr_tmplAttsFor hpos resolve hi, hname, Option.bind_some]
    rcases hv with ⟨hval, hval'⟩ | ⟨⟨c, m, rfl⟩, htext⟩
    · obtain ⟨c, isLong, w, rfl⟩ : ∃ c isLong w, v = .val c isLong w := by
        cases v with
        | val c isLong w => exact ⟨c, isLong, w, rfl⟩
        | _ => cases hval
      have hnhost : ¬ HostContainsName (.op a o (.name b s) (.val c isLong w)) := by
        cases o <;> exact id
      simp only [hnhost, UnprintableAtt, not_false_eq_true, and_self, iff_true]
      split
      · rfl
      · next att _ =>
        split
        · exact compareExistingAtt_val inp.sys o att hval'
        · rfl
    · have hnhost : ¬ HostContainsName (.op a o (.name b s) (.string c m)) := by
        cases o <;> exact id
      simp only [hnhost, not_false_eq_true, true_and]
      exact compareResolvedAtt_isSome_iff inp.sys resolve hsel htext

theorem forall₂_forall_iff {α β : Type} {R : α → β → Prop} {P : β → Prop} {Q : α → Prop}
    {l : List α} {l' : List β} (h : List.Forall₂ R l l') (hpq : ∀ a b, R a b → (P b ↔ Q a)) :
    (∀ b ∈ l', P b) ↔ ∀ a ∈ l, Q a := by
  induction h with
  | nil => simp
  | cons hab _ ih => simp [ih, hpq _ _ hab]

/-- For an accepted query and any record, every comparison and the whole
tree evaluate without a failed assertion if and only if the query has no
`host contains NAME` and no comparison of a string with an attribute of
the record that does not fit the evaluator's buffer. -/
theorem normalized_evaluates_iff {sys : System} {purpose : Purpose} {t q : PNode}
    {nsAtts : List NonStdAtt} (ht : Parsed t)
    (h : evlQNormalizeTree sys purpose t [] = .ok (q, nsAtts)) (inp : EvalInput)
    (resolve : Option (String → Option Attribute)) :
    ((∀ n ∈ q.leaves, (evaluateTree inp nsAtts (tmplAttsFor resolve nsAtts) n).isSome) ∧
        (evaluateTree inp nsAtts (tmplAttsFor resolve nsAtts) q).isSome) ↔
      ∀ n ∈ t.leaves, ¬ HostContainsName n ∧ ¬ UnprintableAtt resolve n := by
  obtain ⟨hn, hall, hstep⟩ := evlQNormalizeTree_leaves ht positionIndexed_nil h
  have hleaves := forall₂_forall_iff hall fun n n' hl =>
    hl.isSome_iff hstep.positionIndexed inp resolve
  constructor
  · rintro ⟨hsome, -⟩
    exact hleaves.mp hsome
  · intro hgood
    have hsome := hleaves.mpr hgood
    exact ⟨hsome, evaluateTree_isSome hn hsome⟩

/-- `host contains "web"`, with a string, is evaluated. -/
theorem normalized_evaluates_iff_hostString : ∃ q nsAtts,
      evlQNormalizeTree .bare ⟨false, false⟩
        (.op 0 .contains (.name 1 "host") (.string 2 "web")) [] = .ok (q, nsAtts) ∧
      (evaluateTree (recordWithId 1) nsAtts none q).isSome := by
  have hparsed : Parsed (.op 0 .contains (.name 1 "host") (.string 2 "web")) :=
    .leaf _ (.comparison 0 1 .contains "host" _ rfl (.string 2 "web"))
  have hnorm : evlQNormalizeTree .bare ⟨false, false⟩
      (.op 0 .contains (.name 1 "host") (.string 2 "web")) []
      = .ok (.op 0 .contains (.attname 1 .host "host") (.string 2 "web"), []) := rfl
  refine ⟨_, _, hnorm, ?_⟩
  refine ((normalized_evaluates_iff hparsed hnorm (recordWithId 1) none).mpr ?_).2
  intro n hn
  rw [leaves_of_parsedLeaf (.comparison 0 1 .contains "host" _ rfl (.string 2 "web")),
    List.mem_singleton] at hn
  subst hn
  refine ⟨id, ?_⟩
  rintro ⟨-, f, att, err, hf, -⟩
  cases hf

/-- `host contains web`, with a bare name, is accepted, and evaluating it
fails an assertion on every record. -/
theorem hostContainsName_aborts : Parsed (.op 0 .contains (.name 1 "host") (.name 2 "web")) ∧
      ∃ q nsAtts,
        evlQNormalizeTree .bare ⟨false, false⟩
          (.op 0 .contains (.name 1 "host") (.name 2 "web")) [] = .ok (q, nsAtts) ∧
        evaluateTree (recordWithId 1) nsAtts none q = none :=
  ⟨.leaf _ (.comparison 0 1 .contains "host" _ rfl (.name 2 "web")), _, _, rfl, rfl⟩

end Evlog.Query
