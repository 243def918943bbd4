/-
Evlog.Evlactiond.IdentTheorems — when identities keep records apart.

An identity is made where the names, the values and all of it fit, and
where everything behind the first value is a string already (`Fits`). It
is then the texts of the values with underscores between
(`getAnyIdentFromLog_ok_iff`). Two records with different values come to
one identity just when their texts are cut otherwise out of it, or when
all texts are the same and only the first value is not, which then is a
number in one of them (`Confused`).
-/
import Evlog.Evlactiond.Ident
import Evlog.Lib.Rows

namespace Evlog.Evlactiond

open Evlog.Lib Evlog.Posix Evlog.Query

/-! ## Copies -/

section Copies

variable {size isize : Nat} {overrun : Undefined} {s v buf : CString} {att : IdentAtt}

theorem strcpy_ok_iff : strcpy size overrun s = .ok v ↔ s.bytes.length < size ∧ v = s := by
  unfold strcpy
  split
  · next h => simp [h, eq_comm]
  · next h => simp [h]

theorem bind_ok_iff {ε α β : Type} {x : Except ε α} {f : α → Except ε β} {b : β} :
    x >>= f = .ok b ↔ ∃ a, x = .ok a ∧ f a = .ok b := by
  cases x <;> simp [bind, Except.bind]

theorem strcpy_bind_ok_iff {β : Type} {f : CString → Except Undefined β} {b : β} :
    strcpy size overrun s >>= f = .ok b ↔ s.bytes.length < size ∧ f s = .ok b := by
  simp only [bind_ok_iff, strcpy_ok_iff]
  constructor
  · rintro ⟨v, ⟨hlen, rfl⟩, h⟩
    exact ⟨hlen, h⟩
  · rintro ⟨hlen, h⟩
    exact ⟨s, ⟨hlen, rfl⟩, h⟩

theorem map_ok_iff {ε α β : Type} {x : Except ε α} {f : α → β} {b : β} :
    f <$> x = .ok b ↔ ∃ a, x = .ok a ∧ b = f a := by
  cases x <;> simp [Functor.map, Except.map, eq_comm]

def IdentAtt.text (att : IdentAtt) : CString :=
  match att.baseType with
  | .string =>
    match att.value with
    | .string s => s
    | _ => ⟨[], CString.noNul_nil⟩
  | .int | .long => printedInt (evlGetLongAttVal att).toInt32
  | _ => unsuportType

/-- The text can be had: a string is there and fits into `att_value`;
what is not a string comes first. -/
def IdentAtt.Legible (append : Bool) (att : IdentAtt) : Prop :=
  if att.baseType = .string then ∃ s, att.value = .string s ∧ s.bytes.length < attValueSize
  else append = false

theorem evlGetStringAttVal_ok_iff : evlGetStringAttVal att = .ok s ↔ att.value = .string s := by
  unfold evlGetStringAttVal
  split
  · next h => simp [h]
  · next h => simpa using h s

theorem IdentAtt.text_of_string (hty : att.baseType = .string) (hv : att.value = .string s) :
    att.text = s := by
  simp [IdentAtt.text, hty, hv]

theorem attValue_ok_iff : attValue att = .ok v ↔ att.Legible false ∧ v = att.text := by
  by_cases hty : att.baseType = .string
  · simp only [attValue, hty, IdentAtt.Legible, if_true, bind_ok_iff, evlGetStringAttVal_ok_iff, strcpy_ok_iff]
    constructor
    · rintro ⟨s, hs, hlen, rfl⟩
      exact ⟨⟨v, hs, hlen⟩, (IdentAtt.text_of_string hty hs).symm⟩
    · rintro ⟨⟨s, hs, hlen⟩, rfl⟩
      exact ⟨s, hs, hlen, IdentAtt.text_of_string hty hs⟩
  · have hleg : att.Legible false := by simp [IdentAtt.Legible, hty]
    have hval : attValue att = .ok att.text := by
      unfold attValue IdentAtt.text
      split <;> simp_all
    rw [hval]
    simp [hleg, eq_comm]

/-- Behind the first value only a string is legible, and it is what is
appended. -/
theorem legible_true_iff :
    att.Legible true ↔ att.Legible false ∧ evlGetStringAttVal att = .ok att.text := by
  rw [evlGetStringAttVal_ok_iff]
  by_cases hty : att.baseType = .string
  · simp only [IdentAtt.Legible, hty, if_true]
    constructor
    · rintro ⟨s, hs, hlen⟩
      exact ⟨⟨s, hs, hlen⟩, by rw [IdentAtt.text_of_string hty hs, hs]⟩
    · exact fun h => h.1
  · have hne : ∀ s, att.value ≠ .string s := by
      intro s hs
      have htyped := att.typed
      rw [hs] at htyped
      exact hty htyped
    simp [IdentAtt.Legible, hty, hne]

def appendText (buf text : CString) : CString := (buf.append ⟨[underscore], noNul_underscore⟩).append text

@[simp] theorem appendText_bytes (buf text : CString) :
    (appendText buf text).bytes = buf.bytes ++ underscore :: text.bytes := by
  simp [appendText]

theorem appends_ok_iff {x : Except Undefined CString} : (do
      let buf ← strcat isize buf ⟨[underscore], noNul_underscore⟩
      strcat isize buf (← x)) = .ok v ↔
      ∃ text, x = .ok text ∧ (appendText buf text).bytes.length < isize ∧ v = appendText buf text := by
  simp only [bind_ok_iff, strcat, strcpy_ok_iff]
  constructor
  · rintro ⟨-, ⟨-, rfl⟩, text, hx, hlen, rfl⟩
    exact ⟨text, hx, hlen, rfl⟩
  · rintro ⟨text, hx, hlen, rfl⟩
    refine ⟨_, ⟨?_, rfl⟩, text, hx, hlen, rfl⟩
    simp only [appendText_bytes, CString.append_bytes, List.length_append, List.length_cons,
      List.length_nil] at hlen ⊢
    omega

theorem buildIdentString_first_ok_iff : buildIdentString att false buf isize = .ok v ↔
      att.Legible false ∧ att.text.bytes.length < isize ∧ v = att.text := by
  simp only [buildIdentString, bind_ok_iff, attValue_ok_iff, Bool.false_eq_true, if_false, strcpy_ok_iff]
  constructor
  · rintro ⟨-, ⟨hleg, rfl⟩, hlen, rfl⟩
    exact ⟨hleg, hlen, rfl⟩
  · rintro ⟨hleg, hlen, rfl⟩
    exact ⟨_, ⟨hleg, rfl⟩, hlen, rfl⟩

theorem buildIdentString_append_ok_iff : buildIdentString att true buf isize = .ok v ↔
      att.Legible true ∧ (appendText buf att.text).bytes.length < isize ∧ v = appendText buf att.text := by
  unfold buildIdentString
  rw [bind_ok_iff]
  simp only [if_true, appends_ok_iff, attValue_ok_iff]
  constructor
  · rintro ⟨-, ⟨hleg, -⟩, text, hx, hlen, rfl⟩
    have hstr := evlGetStringAttVal_ok_iff.1 hx
    have hty : att.baseType = .string := by
      have htyped := att.typed
      rwa [hstr] at htyped
    obtain rfl := IdentAtt.text_of_string hty hstr
    exact ⟨legible_true_iff.2 ⟨hleg, hx⟩, hlen, rfl⟩
  · rintro ⟨hleg, hlen, rfl⟩
    obtain ⟨hfirst, hx⟩ := legible_true_iff.1 hleg
    exact ⟨_, ⟨hfirst, rfl⟩, _, hx, hlen, rfl⟩

end Copies

/-! ## Names -/

def HostNames.Readable (H : HostNames) (r : PopulatedRecord) : Prop :=
  H.addrIsInt = true ∧ (r.nodeId &&& 0x0000FFFF = 0 ∨ r.loadsHosts = false)

def PopulatedRecord.has (r : PopulatedRecord) (name : CString) : Bool :=
  name = hostWord || (r.getAtt name).isSome

def PopulatedRecord.present (r : PopulatedRecord) (names : List CString) : List CString :=
  names.takeWhile r.has

section Names

variable (H : HostNames) (r : PopulatedRecord)

def HostNames.text (name : CString) : CString :=
  if name = hostWord then H.hostName r else ((r.getAtt name).map IdentAtt.text).getD ⟨[], CString.noNul_nil⟩

def HostNames.Legible (append : Bool) (name : CString) : Prop :=
  if name = hostWord then H.Readable r else ∀ att, r.getAtt name = some att → att.Legible append

theorem evlGetHostNameEx_ok_iff {v : CString} :
    H.evlGetHostNameEx r = .ok v ↔ H.Readable r ∧ v = H.hostName r := by
  have hok : (Except.ok (H.hostName r) : Except Undefined CString) = .ok v ↔ v = H.hostName r := by
    rw [Except.ok.injEq, eq_comm]
  unfold HostNames.evlGetHostNameEx HostNames.Readable
  generalize r.nodeId &&& 0x0000FFFF = node
  by_cases hnode : node = 0
  · cases H.addrIsInt <;> simp [hnode, hok]
  · cases H.addrIsInt <;> cases r.loadsHosts <;> simp [hnode, hok]

variable {isize : Nat} {tok ident : CString} {res : Option CString}

/-- `out` is what becomes of the text. -/
theorem withName_ok_iff {append : Bool} (out : CString → CString) {host : Except Undefined CString}
    {build : IdentAtt → Except Undefined CString}
    (hhost : ∀ v, host = .ok v ↔
      H.Readable r ∧ (out (H.hostName r)).bytes.length < isize ∧ v = out (H.hostName r))
    (hbuild : ∀ att v, build att = .ok v ↔
      att.Legible append ∧ (out att.text).bytes.length < isize ∧ v = out att.text) :
    withName r tok host build = .ok res ↔
      tok.bytes.length < attnameSize ∧
        (r.has tok = false ∧ res = none ∨
          r.has tok = true ∧ H.Legible r append tok ∧ (out (H.text r tok)).bytes.length < isize ∧
            res = some (out (H.text r tok))) := by
  rw [withName, strcpy_bind_ok_iff]
  refine and_congr_right fun _ => ?_
  unfold PopulatedRecord.has HostNames.Legible HostNames.text
  by_cases hword : tok = hostWord
  · simp only [if_pos hword, decide_eq_true hword, map_ok_iff, hhost]
    simp [and_assoc]
  · simp only [if_neg hword, decide_eq_false hword, Bool.false_or]
    cases hatt : r.getAtt tok with
    | none => simp [pure, Except.pure, eq_comm]
    | some att => simp [map_ok_iff, hbuild, and_assoc]

theorem startIdent_ok_iff : startIdent H r isize tok = .ok res ↔
      tok.bytes.length < attnameSize ∧
        (r.has tok = false ∧ res = none ∨
          r.has tok = true ∧ H.Legible r false tok ∧ (H.text r tok).bytes.length < isize ∧
            res = some (H.text r tok)) := by
  refine withName_ok_iff H r id (fun v => ?_) fun att v => buildIdentString_first_ok_iff
  simp [bind_ok_iff, evlGetHostNameEx_ok_iff, strcpy_ok_iff, and_assoc]

theorem appendIdent_ok_iff : appendIdent H r isize ident tok = .ok res ↔
      tok.bytes.length < attnameSize ∧
        (r.has tok = false ∧ res = none ∨
          r.has tok = true ∧ H.Legible r true tok ∧
            (appendText ident (H.text r tok)).bytes.length < isize ∧
            res = some (appendText ident (H.text r tok))) := by
  refine withName_ok_iff H r (appendText ident) (fun v => ?_) fun att v => buildIdentString_append_ok_iff
  rw [appends_ok_iff]
  simp [evlGetHostNameEx_ok_iff, and_assoc]

/-! ## The whole list -/

def HostNames.texts (names : List CString) : List (List UInt8) := names.map fun name => (H.text r name).bytes

def HostNames.appendTexts (ident : CString) (names : List CString) : CString :=
  names.foldl (fun ident name => appendText ident (H.text r name)) ident

theorem appendTexts_bytes (ident : CString) (names : List CString) :
    (H.appendTexts r ident names).bytes = [underscore].intercalate (ident.bytes :: H.texts r names) := by
  induction names generalizing ident with
  | nil => simp [HostNames.appendTexts, HostNames.texts]
  | cons name names ih =>
    have hnext := ih (appendText ident (H.text r name))
    rw [appendText_bytes, intercalate_append_cons] at hnext
    simp only [HostNames.texts, List.map_cons]
    rw [intercalate_cons (List.cons_ne_nil _ _)]
    exact hnext

theorem length_le_appendTexts (names : List CString) :
    ident.bytes.length ≤ (H.appendTexts r ident names).bytes.length := by
  rw [appendTexts_bytes, length_intercalate_cons]
  exact Nat.le_add_right _ _

/-- The loop takes the names there are, and needs room for their texts. -/
theorem appendIdents_ok_iff {names : List CString} (hroom : ident.bytes.length < isize) :
    appendIdents H r isize names ident = .ok res ↔
      (∀ name ∈ names.take ((r.present names).length + 1), name.bytes.length < attnameSize) ∧
        (∀ name ∈ r.present names, H.Legible r true name) ∧
        (H.appendTexts r ident (r.present names)).bytes.length < isize ∧
        res = if r.present names = names then some (H.appendTexts r ident names) else none := by
  induction names generalizing ident with
  | nil => simp [appendIdents, PopulatedRecord.present, HostNames.appendTexts, hroom, eq_comm]
  | cons tok names ih =>
    simp only [appendIdents, bind_ok_iff, appendIdent_ok_iff]
    cases hhas : r.has tok with
    | false =>
      have hpresent : r.present (tok :: names) = [] := by simp [PopulatedRecord.present, hhas]
      rw [hpresent]
      constructor
      · rintro ⟨step, ⟨hlen, ⟨-, rfl⟩ | ⟨h, -⟩⟩, hrest⟩
        · refine ⟨by simpa using hlen, by simp, hroom, ?_⟩
          rw [if_neg (List.cons_ne_nil _ _).symm]
          exact (Except.ok.inj hrest).symm
        · cases h
      · rintro ⟨hlen, -, -, rfl⟩
        rw [if_neg (List.cons_ne_nil _ _).symm]
        exact ⟨none, ⟨by simpa using hlen, .inl ⟨rfl, rfl⟩⟩, rfl⟩
    | true =>
      have hpresent : r.present (tok :: names) = tok :: r.present names := by
        simp [PopulatedRecord.present, hhas]
      have hwhole : (tok :: r.present names = tok :: names) ↔ r.present names = names := by simp
      rw [hpresent]
      simp only [List.length_cons, List.take_succ_cons, List.forall_mem_cons, hwhole]
      constructor
      · rintro ⟨step, ⟨hlen, ⟨h, -⟩ | ⟨-, hleg, hfit, rfl⟩⟩, hrest⟩
        · cases h
        · obtain ⟨hlens, hlegs, hfits, rfl⟩ := (ih hfit).1 hrest
          exact ⟨⟨hlen, hlens⟩, ⟨hleg, hlegs⟩, hfits, rfl⟩
      · rintro ⟨⟨hlen, hlens⟩, ⟨hleg, hlegs⟩, hfits, rfl⟩
        have hfit : (appendText ident (H.text r tok)).bytes.length < isize :=
          Nat.lt_of_le_of_lt (length_le_appendTexts H r _) hfits
        exact ⟨_, ⟨hlen, .inr ⟨trivial, hleg, hfit, rfl⟩⟩, (ih hfit).2 ⟨hlens, hlegs, hfits, rfl⟩⟩

/-- The identity of a record that has a value for every name. -/
def HostNames.identOf (names : List CString) : Option CString :=
  match names with
  | [] => none
  | name :: names => some (H.appendTexts r (H.text r name) names)

/-- Names, values and identity have the room they need, and only the first
value is not a string. What counts are the names up to the first that the
record has no value for. -/
structure HostNames.Fits (isize : Nat) (names : List CString) : Prop where
  names_fit : ∀ name ∈ names.take ((r.present names).length + 1), name.bytes.length < attnameSize
  first : ∀ name ∈ (r.present names).head?, H.Legible r false name
  later : ∀ name ∈ (r.present names).tail, H.Legible r true name
  ident_fits : r.present names ≠ [] →
    ([underscore].intercalate (H.texts r (r.present names))).length < isize

/-- What `getAnyIdentFromLog` returns, and when C says so. -/
theorem getAnyIdentFromLog_ok_iff {anyStr : CString} :
    getAnyIdentFromLog H (some r) anyStr isize = .ok res ↔
      H.Fits r isize (CString.tokens [comma] anyStr) ∧
        res = if r.present (CString.tokens [comma] anyStr) = CString.tokens [comma] anyStr then
            H.identOf r (CString.tokens [comma] anyStr)
          else none := by
  unfold getAnyIdentFromLog
  cases CString.tokens [comma] anyStr with
  | nil =>
    have hfits : H.Fits r isize [] := by
      constructor <;> simp [PopulatedRecord.present]
    simp [hfits, PopulatedRecord.present, HostNames.identOf, eq_comm]
  | cons tok names =>
    simp only [bind_ok_iff, startIdent_ok_iff]
    cases hhas : r.has tok with
    | false =>
      have hpresent : r.present (tok :: names) = [] := by simp [PopulatedRecord.present, hhas]
      rw [hpresent, if_neg (List.cons_ne_nil _ _).symm]
      constructor
      · rintro ⟨step, ⟨hlen, ⟨-, rfl⟩ | ⟨h, -⟩⟩, hrest⟩
        · refine ⟨?_, (Except.ok.inj hrest).symm⟩
          constructor <;> simp [hpresent, hlen]
        · cases h
      · rintro ⟨hfits, rfl⟩
        refine ⟨none, ⟨hfits.names_fit tok ?_, .inl ⟨rfl, rfl⟩⟩, rfl⟩
        simp [hpresent]
    | true =>
      have hpresent : r.present (tok :: names) = tok :: r.present names := by
        simp [PopulatedRecord.present, hhas]
      have hwhole : (tok :: r.present names = tok :: names) ↔ r.present names = names := by simp
      have hbytes : (H.appendTexts r (H.text r tok) (r.present names)).bytes
          = [underscore].intercalate (H.texts r (tok :: r.present names)) :=
        appendTexts_bytes H r _ _
      simp only [hpresent, hwhole]
      constructor
      · rintro ⟨step, ⟨hlen, ⟨h, -⟩ | ⟨-, hleg, hfit, rfl⟩⟩, hrest⟩
        · cases h
        · obtain ⟨hlens, hlegs, hfits, rfl⟩ := (appendIdents_ok_iff H r hfit).1 hrest
          rw [hbytes] at hfits
          refine ⟨⟨?_, ?_, ?_, ?_⟩, rfl⟩
          · simpa [hpresent] using ⟨hlen, hlens⟩
          · simpa [hpresent] using hleg
          · simpa [hpresent] using hlegs
          · simpa [hpresent] using hfits
      · rintro ⟨hfits, rfl⟩
        obtain ⟨hlens, hfirst, hlater, hident⟩ := hfits
        rw [hpresent] at hlens hfirst hlater hident
        have hroom := hident (List.cons_ne_nil _ _)
        rw [← hbytes] at hroom
        have hfit : (H.text r tok).bytes.length < isize :=
          Nat.lt_of_le_of_lt (length_le_appendTexts H r _) hroom
        simp only [List.length_cons, List.take_succ_cons, List.forall_mem_cons] at hlens
        exact ⟨_, ⟨hlens.1, .inr ⟨trivial, hfirst tok rfl, hfit, rfl⟩⟩,
          (appendIdents_ok_iff H r hfit).2 ⟨hlens.2, hlater, hroom, rfl⟩⟩

end Names

/-! ## Numbers -/

theorem underscore_not_mem_decimal (n : Nat) : underscore ∉ CString.decimal n := by
  intro h
  exact absurd (CString.isDigit_of_mem_decimal h) (by decide)

theorem underscore_not_mem_printedInt (n : Int32) : underscore ∉ (printedInt n).bytes := by
  have hminus : underscore ≠ 45 := by decide
  have hdigits := underscore_not_mem_decimal n.toInt.natAbs
  unfold printedInt
  split <;> simp [CString.printed, hminus, hdigits]

/-! ## Two records -/

/-- A record whose attributes are strings, ints and longs. -/
structure SupportedRecord extends PopulatedRecord where
  supported : ∀ name att, getAtt name = some att →
    att.baseType = .string ∨ att.baseType = .int ∨ att.baseType = .long

instance : Coe SupportedRecord PopulatedRecord := ⟨SupportedRecord.toPopulatedRecord⟩

def IdentAtt.val (att : IdentAtt) : Option Value :=
  match att.value with
  | .stale _ => none
  | value => some value

def HostNames.valueOf (H : HostNames) (r : PopulatedRecord) (name : CString) : Option Value :=
  if name = hostWord then some (.string (H.hostName r)) else (r.getAtt name).bind IdentAtt.val

/-- The two runs stay within their arrays, and the records have the same
values for all names if their identities are the same. -/
structure HostNames.Separates (H : HostNames) (r r' : PopulatedRecord) (anyStr : CString) (isize : Nat) :
    Prop where
  within : ∃ res, getAnyIdentFromLog H (some r) anyStr isize = .ok res
  within' : ∃ res, getAnyIdentFromLog H (some r') anyStr isize = .ok res
  agree : ∀ ident, getAnyIdentFromLog H (some r) anyStr isize = .ok (some ident) →
    getAnyIdentFromLog H (some r') anyStr isize = .ok (some ident) →
    ∀ name ∈ CString.tokens [comma] anyStr, H.valueOf r name = H.valueOf r' name

/-- Both records have a value for every name. Their texts make up the same
string in different ways, or they are the same although the first value
is not. -/
structure HostNames.Confused (H : HostNames) (r r' : PopulatedRecord) (names : List CString) : Prop where
  all : r.present names = names
  all' : r'.present names = names
  same : Cut underscore (H.texts r names) (H.texts r' names) ∨
    (H.texts r names = H.texts r' names ∧ ∃ name ∈ names.head?, H.valueOf r name ≠ H.valueOf r' name)

section TwoRecords

variable {H : HostNames} {r r' : PopulatedRecord} {names : List CString} {name : CString} {isize : Nat}

theorem has_of_present (hall : r.present names = names) (hname : name ∈ names) : r.has name = true :=
  List.takeWhile_eq_self_iff.1 hall name hname

theorem valueOf_of_legible (hhas : r.has name = true) (hleg : H.Legible r true name) :
    H.valueOf r name = some (.string (H.text r name)) := by
  unfold HostNames.valueOf HostNames.text
  by_cases hword : name = hostWord
  · rw [if_pos hword, if_pos hword]
  · rw [if_neg hword, if_neg hword]
    simp only [PopulatedRecord.has, hword, decide_false, Bool.false_or] at hhas
    obtain ⟨att, hatt⟩ := Option.isSome_iff_exists.1 hhas
    simp only [HostNames.Legible, hword, if_false] at hleg
    have hvalue := evlGetStringAttVal_ok_iff.1 (legible_true_iff.1 (hleg att hatt)).2
    simp [hatt, IdentAtt.val, hvalue]

/-- The text of an attribute is that of its value, or a number that was
left there. -/
theorem IdentAtt.text_of_val {att att' : IdentAtt} (hleg : att.Legible false) (hleg' : att'.Legible false)
    (hty : att.baseType = .string ∨ att.baseType = .int ∨ att.baseType = .long)
    (hty' : att'.baseType = .string ∨ att'.baseType = .int ∨ att'.baseType = .long)
    (hval : att.val = att'.val) :
    att.text = att'.text ∨ (underscore ∉ att.text.bytes ∧ underscore ∉ att'.text.bytes) := by
  have hprinted : ∀ a : IdentAtt, a.baseType = .int ∨ a.baseType = .long →
      a.text = printedInt (evlGetLongAttVal a).toInt32 := by
    rintro a (h | h) <;> simp [IdentAtt.text, h]
  have hstring : ∀ a : IdentAtt, a.Legible false → a.baseType = .string →
      a.val = some (.string a.text) := by
    intro a hleg hty
    obtain ⟨s, hs, -⟩ := (if_pos hty).mp hleg
    simp [IdentAtt.val, hs, IdentAtt.text_of_string hty hs]
  have hnumber : ∀ a : IdentAtt, a.baseType = .int ∨ a.baseType = .long → ∀ s, a.val ≠ some (.string s) := by
    intro a h s hs
    have htyped := a.typed
    unfold IdentAtt.val at hs
    split at hs
    · cases hs
    · rw [Option.some.inj hs] at htyped
      rcases h with h | h <;> rw [h] at htyped <;> cases htyped
  rcases hty with hty | hty <;> rcases hty' with hty' | hty'
  · rw [hstring att hleg hty, hstring att' hleg' hty'] at hval
    exact .inl (Value.string.inj (Option.some.inj hval))
  · rw [hstring att hleg hty] at hval
    exact absurd hval.symm (hnumber att' hty' _)
  · rw [hstring att' hleg' hty'] at hval
    exact absurd hval (hnumber att hty _)
  · rw [hprinted att hty, hprinted att' hty']
    exact .inr ⟨underscore_not_mem_printedInt _, underscore_not_mem_printedInt _⟩

theorem text_of_valueOf {r r' : SupportedRecord} (hhas : r.has name = true) (hhas' : r'.has name = true)
    (hleg : H.Legible r false name) (hleg' : H.Legible r' false name)
    (hval : H.valueOf r name = H.valueOf r' name) :
    H.text r name = H.text r' name ∨
      (underscore ∉ (H.text r name).bytes ∧ underscore ∉ (H.text r' name).bytes) := by
  unfold HostNames.valueOf at hval
  unfold HostNames.text
  by_cases hword : name = hostWord
  · rw [if_pos hword, if_pos hword] at hval ⊢
    exact .inl (Value.string.inj (Option.some.inj hval))
  · rw [if_neg hword, if_neg hword] at hval ⊢
    simp only [PopulatedRecord.has, hword, decide_false, Bool.false_or] at hhas hhas'
    simp only [HostNames.Legible, hword, if_false] at hleg hleg'
    obtain ⟨att, hatt⟩ := Option.isSome_iff_exists.1 hhas
    obtain ⟨att', hatt'⟩ := Option.isSome_iff_exists.1 hhas'
    simp only [hatt, hatt', Option.bind_some, Option.map_some, Option.getD_some] at hval ⊢
    exact IdentAtt.text_of_val (hleg att hatt) (hleg' att' hatt') (r.supported _ _ hatt)
      (r'.supported _ _ hatt') hval

/-- Texts that are cut otherwise are texts of different values. -/
theorem values_ne_of_cut {r r' : SupportedRecord} (hfits : H.Fits r isize names) (hfits' : H.Fits r' isize names)
    (hall : r.present names = names) (hall' : r'.present names = names)
    (hcut : Cut underscore (H.texts r names) (H.texts r' names)) :
    ∃ name ∈ names, H.valueOf r name ≠ H.valueOf r' name := by
  cases names with
  | nil => exact absurd rfl hcut.ne_nil.1
  | cons name names =>
    by_contra hsame
    push Not at hsame
    have hmem : ∀ n ∈ name :: names, r.has n = true ∧ r'.has n = true := fun n hn =>
      ⟨has_of_present hall hn, has_of_present hall' hn⟩
    have hfirst := text_of_valueOf (hmem name List.mem_cons_self).1 (hmem name List.mem_cons_self).2
      (hfits.first name (by rw [hall]; rfl)) (hfits'.first name (by rw [hall']; rfl))
      (hsame name List.mem_cons_self)
    have hrest : Cut underscore (H.texts r names) (H.texts r' names) :=
      hcut.of_cons (hfirst.imp (congrArg _) id)
    refine hrest.ne (List.map_congr_left fun n hn => ?_)
    have hn' := List.mem_cons_of_mem name hn
    have hval := hsame n hn'
    rw [valueOf_of_legible (hmem n hn').1 (hfits.later n (by rw [hall]; exact hn)),
      valueOf_of_legible (hmem n hn').2 (hfits'.later n (by rw [hall']; exact hn))] at hval
    rw [Value.string.inj (Option.some.inj hval)]

/-- Equal texts are texts of equal values, but for the first. -/
theorem values_eq_of_texts (hfits : H.Fits r isize names) (hfits' : H.Fits r' isize names)
    (hall : r.present names = names) (hall' : r'.present names = names)
    (htexts : H.texts r names = H.texts r' names)
    (hfirst : ∀ name ∈ names.head?, H.valueOf r name = H.valueOf r' name) :
    ∀ name ∈ names, H.valueOf r name = H.valueOf r' name := by
  intro n hn
  cases names with
  | nil => cases hn
  | cons name names =>
    rcases List.mem_cons.1 hn with rfl | hlater
    · exact hfirst n rfl
    · have htext := List.map_inj_left.1 htexts n hn
      rw [valueOf_of_legible (has_of_present hall hn) (hfits.later n (by rw [hall]; exact hlater)),
        valueOf_of_legible (has_of_present hall' hn) (hfits'.later n (by rw [hall']; exact hlater)),
        CString.ext htext]

variable {ident anyStr : CString}

/-- The identity of a record that has them all is made of the texts. -/
theorem identOf_eq_some_iff : H.identOf r names = some ident ↔
      names ≠ [] ∧ ident.bytes = [underscore].intercalate (H.texts r names) := by
  cases names with
  | nil => simp [HostNames.identOf]
  | cons name names =>
    have hbytes := appendTexts_bytes H r (H.text r name) names
    simp only [HostNames.identOf, Option.some.injEq, ne_eq, reduceCtorEq, not_false_eq_true, true_and]
    constructor
    · rintro rfl
      exact hbytes
    · intro h
      exact CString.ext (hbytes.trans h.symm)

theorem getAnyIdentFromLog_some_iff :
    getAnyIdentFromLog H (some r) anyStr isize = .ok (some ident) ↔
      H.Fits r isize (CString.tokens [comma] anyStr) ∧
        r.present (CString.tokens [comma] anyStr) = CString.tokens [comma] anyStr ∧
        CString.tokens [comma] anyStr ≠ [] ∧
        ident.bytes = [underscore].intercalate (H.texts r (CString.tokens [comma] anyStr)) := by
  rw [getAnyIdentFromLog_ok_iff, ← identOf_eq_some_iff]
  split
  · next hall => simp [hall, eq_comm]
  · next hall => simp [hall]

end TwoRecords

/-- The identities of two records keep them apart, and are within their
arrays, if and only if all fits for both and the two are not confused. -/
theorem identities_separate_iff (H : HostNames) (r r' : SupportedRecord) (anyStr : CString) (isize : Nat) :
    H.Separates r r' anyStr isize ↔
      H.Fits r isize (CString.tokens [comma] anyStr) ∧ H.Fits r' isize (CString.tokens [comma] anyStr) ∧
        ¬ H.Confused r r' (CString.tokens [comma] anyStr) := by
  constructor
  · rintro ⟨⟨res, hret⟩, ⟨res', hret'⟩, hagree⟩
    have hfits := ((getAnyIdentFromLog_ok_iff H r).1 hret).1
    have hfits' := ((getAnyIdentFromLog_ok_iff H r').1 hret').1
    refine ⟨hfits, hfits', ?_⟩
    rintro ⟨hall, hall', hsame⟩
    have hne : CString.tokens [comma] anyStr ≠ [] := by
      intro hnil
      rw [hnil] at hsame
      rcases hsame with hcut | ⟨-, name, hname, -⟩
      · exact hcut.ne_nil.1 rfl
      · cases hname
    have hwritten : [underscore].intercalate (H.texts r (CString.tokens [comma] anyStr))
        = [underscore].intercalate (H.texts r' (CString.tokens [comma] anyStr)) :=
      hsame.elim Cut.intercalate_eq fun h => congrArg _ h.1
    obtain ⟨ident, hident⟩ : ∃ ident : CString,
        ident.bytes = [underscore].intercalate (H.texts r (CString.tokens [comma] anyStr)) := by
      cases hnames : CString.tokens [comma] anyStr with
      | nil => exact absurd hnames hne
      | cons name names => exact ⟨_, appendTexts_bytes H r _ names⟩
    have hvalues := hagree ident (getAnyIdentFromLog_some_iff.2 ⟨hfits, hall, hne, hident⟩)
      (getAnyIdentFromLog_some_iff.2 ⟨hfits', hall', hne, hident.trans hwritten⟩)
    rcases hsame with hcut | ⟨-, name, hname, hdiff⟩
    · obtain ⟨name, hname, hdiff⟩ := values_ne_of_cut hfits hfits' hall hall' hcut
      exact hdiff (hvalues name hname)
    · exact hdiff (hvalues name (List.mem_of_mem_head? hname))
  · rintro ⟨hfits, hfits', hconf⟩
    refine ⟨⟨_, (getAnyIdentFromLog_ok_iff H r).2 ⟨hfits, rfl⟩⟩,
      ⟨_, (getAnyIdentFromLog_ok_iff H r').2 ⟨hfits', rfl⟩⟩, ?_⟩
    intro ident hret hret'
    obtain ⟨-, hall, -, hbytes⟩ := getAnyIdentFromLog_some_iff.1 hret
    obtain ⟨-, hall', -, hbytes'⟩ := getAnyIdentFromLog_some_iff.1 hret'
    have hlen : (H.texts r (CString.tokens [comma] anyStr)).length
        = (H.texts r' (CString.tokens [comma] anyStr)).length := by simp [HostNames.texts]
    rcases (intercalate_eq_iff hlen).1 (hbytes.symm.trans hbytes') with htexts | hcut
    · refine values_eq_of_texts hfits hfits' hall hall' htexts ?_
      intro name hname
      by_contra hdiff
      exact hconf ⟨hall, hall', .inr ⟨htexts, name, hname, hdiff⟩⟩
    · exact absurd ⟨hall, hall', .inl hcut⟩ hconf

def stringAtt (s : CString) : IdentAtt := ⟨.string, .string s, rfl⟩

/-- A record with the two attributes `a` and `b`, both strings. -/
def recordWith (a b : CString) : SupportedRecord where
  entry :=
    { logMagic := 0xfeef0007, logRecid := 0, logSize := .ofNat (a.bytes.length + b.bytes.length + 2)
      logFormat := posixLogBinary, logEventType := 1, logFacility := 8, logSeverity := 6, logUid := 0, logGid := 0
      logPid := 1, logPgrp := 1, logTimeSec := 0, logTimeNsec := 0, logFlags := 0, logThread := 0
      logProcessor := 0 }
  getAtt name :=
    if name.bytes = [97] then some (stringAtt a)
    else if name.bytes = [98] then some (stringAtt b)
    else none
  loadsHosts := false
  supported name att h := by
    split at h
    · exact .inl (Option.some.inj h ▸ rfl)
    · split at h
      · exact .inl (Option.some.inj h ▸ rfl)
      · cases h

/-- The values "x_y" and "z" make the identity that "x" and "y_z" make. -/
theorem underscores_confused :
    ¬ HostNames.Separates ⟨.bare, true⟩ (recordWith ⟨[120, 95, 121], by decide⟩ ⟨[122], by decide⟩)
      (recordWith ⟨[120], by decide⟩ ⟨[121, 95, 122], by decide⟩) ⟨[97, 44, 98], by decide⟩ 256 := by
  intro h
  have hvalues := h.agree ⟨[120, 95, 121, 95, 122], by decide⟩ rfl rfl ⟨[97], by decide⟩ (by decide)
  exact absurd hvalues (by decide)

end Evlog.Evlactiond
