/-
Evlog.Evlogd.ConfigTheorems — when evlogd gets through a reconfiguration.

`updateConfvalues` does not tell a read that gets fewer bytes than it asks
for from one that gets all, lets in a string that is one byte too long, and
does not look at the numbers. `WellFed` is about what comes over the socket,
field by field: the fields of a setting that is taken over come whole and in
range, until there is a number that ends the loop or a length that is refused.
`updateConfvalues_safe_iff` says that this is all it takes, and that
nothing less does.
-/
import Evlog.Evlogd.Config

namespace Evlog.Evlogd.Config

open Evlog.Lib

set_option maxRecDepth 20000

/-! ## The condition -/

/-- What is on the way and what a field is read over: the bytes of the
variables, the settings a new one is compared with, and whether the number and
the last expression came whole. -/
@[ext] structure Feed where
  ctype : List UInt8
  value : List UInt8
  cbuf : List UInt8
  typeRead : Bool
  screenRead : Bool
  size : Int
  discarding : Bool
  stream : ByteStream

namespace Feed

variable (f : Feed)

def number : Int := intOf f.ctype

/-- The second field of a setting, over the bytes of the one before, whether it
came whole, and what follows. -/
def valueField : List UInt8 × Bool × ByteStream := readInto f.value 4 f.stream

def amount : Int := intOf f.valueField.1

def stringField : List UInt8 × Bool × ByteStream :=
  readInto f.cbuf f.amount.toNat f.valueField.2.2

def string : List UInt8 := f.stringField.1.set f.amount.toNat 0

def numberWhole : Bool := f.typeRead && f.valueField.2.1

def stringWhole : Bool := f.numberWhole && f.stringField.2.1

/-- The text turns the discarding on or off. -/
def Switched : Prop := switches (cstr f.string) f.discarding

/-- A length that `updateConfvalues` refuses. -/
def Refused : Prop := disDups ≤ f.number ∧ (f.amount < 0 ∨ maxEvlLine < f.amount)

/-- The fields of a setting that is taken over came whole and are in range. A
number without a setting, a size that is set already and a text that switches
nothing can be anything. -/
structure FieldsOk : Prop where
  limit : f.number = disCount ∨ f.number = disInterval → f.numberWhole ∧ 0 ≤ f.amount
  size : f.number = disSize → f.size ≠ f.amount →
    f.numberWhole ∧ 0 ≤ f.amount ∧ f.amount ≤ maxDupArraySize
  length : disDups ≤ f.number → f.amount < maxEvlLine
  dups : f.number = disDups → f.Switched → f.stringWhole

/-- Behind a number: a lookback size of 0 stands for the default. -/
def afterNumber : Feed :=
  let newSize := f.number = disSize ∧ f.size ≠ f.amount
  { f with
    value := if newSize ∧ f.amount = 0 then leBytes 4 defaultDupArraySize.toNat else f.valueField.1
    size := if newSize then if f.amount = 0 then defaultDupArraySize else f.amount else f.size
    stream := f.valueField.2.2 }

def afterString : Feed :=
  { f with
    value := f.valueField.1
    cbuf := f.string
    screenRead := if f.number = disDups then f.screenRead else f.stringWhole
    discarding := if f.number = disDups ∧ switches (cstr f.string) f.discarding then !f.discarding
      else f.discarding
    stream := f.stringField.2.2 }

def readType : Feed :=
  let (ctype, typeRead, stream) := readInto f.ctype 4 f.stream
  { f with ctype := ctype, typeRead := typeRead, stream := stream }

/-- Behind a setting, with the next number. -/
def after : Feed := (if disDups ≤ f.number then f.afterString else f.afterNumber).readType

end Feed

/-- There is a number above those of the settings, and the last expression
before it came whole, or a length that is refused; and the fields of the
settings before are all right. -/
inductive WellFed : Feed → Prop
  | ended {f : Feed} (h : eventScreen < f.number) (hscreen : f.screenRead) : WellFed f
  | refused {f : Feed} (h : f.number ≤ eventScreen) (hrefused : f.Refused) : WellFed f
  | setting {f : Feed} (h : f.number ≤ eventScreen) (hlength : ¬ f.Refused) (hfields : f.FieldsOk)
      (hrest : WellFed f.after) : WellFed f

/-- What comes over the socket, before the first number is read. -/
def feed (stack : Stack) (conf : Conf) (stream : ByteStream) : Feed :=
  Feed.readType
    { ctype := stack.ctype, value := stack.value, cbuf := stack.cbuf, typeRead := false
      screenRead := true, size := conf.dupArraySize, discarding := conf.disDupRecs
      stream := stream }

/-! ## What is claimed -/

/-- The setting was received completely, and is positive or a size of the
lookback buffer. -/
structure Applied.Safe (a : Applied) : Prop where
  complete : a.complete
  count : a.ctype = disCount → 0 < a.conf.dupCount
  interval : a.ctype = disInterval → 0 < a.conf.dupInterval
  size : a.ctype = disSize → 1 ≤ a.conf.dupArraySize ∧ a.conf.dupArraySize ≤ maxDupArraySize

/-- `updateConfvalues` has returned, and has taken over no screen that did not
come whole. -/
def Result.Returned (r : Result) : Prop :=
  ∃ ret conf screen, r = .returned ret conf screen ∧ ∀ a ∈ screen, a.Safe

structure Conf.InRange (conf : Conf) : Prop where
  count : 0 < conf.dupCount
  interval : 0 < conf.dupInterval
  size : 1 ≤ conf.dupArraySize ∧ conf.dupArraySize ≤ maxDupArraySize

/-! ## One turn -/

/-- What the loop has of the feed. -/
def Loop.feed (l : Loop) : Feed where
  ctype := l.ctype
  value := l.value
  cbuf := l.cbuf
  typeRead := l.typeRead
  screenRead := !l.qexpDefined || l.screenRead
  size := l.conf.dupArraySize
  discarding := l.conf.disDupRecs
  stream := l.stream

theorem feed_start (stack : Stack) (conf : Conf) (stream : ByteStream) :
    (start stack conf stream).feed = feed stack conf stream := rfl

section Turn

variable {queryCreate : List UInt8 → Bool} {l : Loop}

theorem body_ended (h : eventScreen < l.feed.number) :
    body queryCreate l = .stop (finish queryCreate l) := if_pos h

theorem finish_returned_iff (queryCreate : List UInt8 → Bool) (l : Loop) :
    (finish queryCreate l).Returned ↔ l.feed.screenRead := by
  have hsafe : ∀ {complete : Bool} {conf : Conf}, Applied.Safe ⟨eventScreen, complete, conf⟩ ↔ complete :=
    ⟨fun h => h.complete, fun h => ⟨h, nofun, nofun, nofun⟩⟩
  cases hdefined : l.qexpDefined with
  | false =>
    simp [finish, Loop.feed, Result.Returned, hdefined]
  | true =>
    simp [finish, Loop.feed, Result.Returned, hdefined, hsafe]

theorem body_string (h : l.feed.number ≤ eventScreen) (hstring : disDups ≤ l.feed.number) :
    body queryCreate l =
      stringTurn { l with value := l.feed.valueField.1, stream := l.feed.valueField.2.2 }
        l.feed.valueField.2.1 := by
  have h' : ¬ eventScreen < intOf l.ctype := not_lt.2 h
  rw [body, if_neg h']
  exact if_pos hstring

theorem body_refused (h : l.feed.number ≤ eventScreen) (hrefused : l.feed.Refused) :
    body queryCreate l = .stop (.returned (-1) l.conf none) := by
  rw [body_string h hrefused.1]
  exact if_pos hrefused.2

theorem applyNumber_discarding (ctype value : Int) (conf : Conf) :
    (applyNumber ctype value conf).1.disDupRecs = conf.disDupRecs := by
  unfold applyNumber
  split_ifs <;> rfl

theorem applyNumber_size (ctype value : Int) (conf : Conf) :
    (applyNumber ctype value conf).1.dupArraySize = if ctype = disSize ∧ conf.dupArraySize ≠ value
      then if value = 0 then defaultDupArraySize else value
      else conf.dupArraySize := by
  have hdistinct : disSize ≠ disCount ∧ disSize ≠ disInterval := by decide
  unfold applyNumber
  split_ifs with hcount hset hzero hset hinterval hset hzero hset <;> grind [reallocBuffer]

theorem applyNumber_value (ctype value : Int) (conf : Conf) :
    (applyNumber ctype value conf).2 =
      if (ctype = disSize ∧ conf.dupArraySize ≠ value) ∧ value = 0 then defaultDupArraySize
      else value := by
  have hdistinct : disSize ≠ disCount ∧ disSize ≠ disInterval := by decide
  unfold applyNumber
  split_ifs <;> grind

/-- What is read is read into the same memory. -/
theorem feed_readType (l : Loop) : l.readType.feed = l.feed.readType := rfl

/-- The memory behind a setting with a number. -/
theorem feed_afterNumber (l : Loop) :
    Loop.feed { l with
        value := if (applyNumber l.feed.number l.feed.amount l.conf).2 = l.feed.amount
          then l.feed.valueField.1
          else leBytes 4 (applyNumber l.feed.number l.feed.amount l.conf).2.toNat
        conf := (applyNumber l.feed.number l.feed.amount l.conf).1
        stream := l.feed.valueField.2.2 } = l.feed.afterNumber := by
  have hdefault : defaultDupArraySize ≠ 0 := by decide
  refine Feed.ext rfl ?_ rfl rfl rfl (applyNumber_size ..) (applyNumber_discarding ..) rfl
  show (if (applyNumber l.feed.number l.feed.amount l.conf).2 = l.feed.amount then _ else _) = _
  rw [applyNumber_value]
  by_cases hzero : (l.feed.number = disSize ∧ l.conf.dupArraySize ≠ l.feed.amount) ∧ l.feed.amount = 0
  · rw [if_pos hzero, if_neg (by rw [hzero.2]; exact hdefault)]
    exact (if_pos hzero).symm
  · rw [if_neg hzero, if_pos rfl]
    exact (if_neg hzero).symm

/-- The turn for a limit or a size leaves it in range exactly when the number
that came is. -/
theorem applyNumber_safe (ctype value : Int) (conf : Conf) :
    ((ctype = disCount → 0 < (applyNumber ctype value conf).1.dupCount) ↔ (ctype = disCount → 0 ≤ value)) ∧
    ((ctype = disInterval → 0 < (applyNumber ctype value conf).1.dupInterval) ↔
      (ctype = disInterval → 0 ≤ value)) ∧
    (ctype = disSize → conf.dupArraySize ≠ value →
      ((1 ≤ (applyNumber ctype value conf).1.dupArraySize ∧
        (applyNumber ctype value conf).1.dupArraySize ≤ maxDupArraySize) ↔
      (0 ≤ value ∧ value ≤ maxDupArraySize))) := by
  refine ⟨?_, ?_, ?_⟩
  · refine forall_congr' fun h => ?_
    rw [applyNumber, if_pos h]
    simp only [maxDupCount]
    split
    · omega
    · omega
  · refine forall_congr' fun h => ?_
    rw [applyNumber, if_neg (by rw [h]; decide), if_pos h]
    simp only [maxDupInterval]
    split
    · omega
    · omega
  · intro h hne
    rw [applyNumber_size, if_pos ⟨h, hne⟩]
    simp only [maxDupArraySize, defaultDupArraySize]
    split
    · omega
    · omega

theorem mem_report {ctype : Int} {taken complete : Bool} {conf : Conf} {a : Applied} :
    a ∈ report ctype taken complete conf ↔ taken = true ∧ a = ⟨ctype, complete, conf⟩ := by
  unfold report
  split_ifs with h
  · simp [h]
  · simp [h]

theorem takesNumber_iff (ctype value : Int) (conf : Conf) : takesNumber ctype value conf = true ↔
    (ctype = disCount ∨ ctype = disInterval) ∨ (ctype = disSize ∧ conf.dupArraySize ≠ value) := by
  simp only [takesNumber, decide_eq_true_eq, or_assoc]

/-- What a turn with a number reports is safe exactly when its fields are all
right. -/
theorem report_number_safe (hnumber : l.feed.number < disDups) :
    (∀ a ∈ report l.feed.number (takesNumber l.feed.number l.feed.amount l.conf) l.feed.numberWhole
        (applyNumber l.feed.number l.feed.amount l.conf).1, a.Safe) ↔ l.feed.FieldsOk := by
  obtain ⟨hcount, hinterval, hsize⟩ := applyNumber_safe l.feed.number l.feed.amount l.conf
  constructor
  · intro hsafe
    have hreported := fun htaken => hsafe _ (mem_report.2 ⟨(takesNumber_iff ..).2 htaken, rfl⟩)
    refine ⟨?_, ?_, fun h => absurd hnumber (not_lt.2 h), fun h => absurd h (ne_of_lt hnumber)⟩
    · intro hlimit
      have hs := hreported (.inl hlimit)
      refine ⟨hs.complete, ?_⟩
      rcases hlimit with h | h
      · exact hcount.1 hs.count h
      · exact hinterval.1 hs.interval h
    · intro h hne
      have hs := hreported (.inr ⟨h, hne⟩)
      exact ⟨hs.complete, (hsize h hne).1 (hs.size h)⟩
  · intro hfields a ha
    obtain ⟨htaken, rfl⟩ := mem_report.1 ha
    rcases (takesNumber_iff ..).1 htaken with hlimit | ⟨h, hne⟩
    · have hnot : l.feed.number ≠ disSize := by
        simp only [disCount, disInterval, disSize] at *
        omega
      exact ⟨(hfields.limit hlimit).1, hcount.2 fun _ => (hfields.limit hlimit).2,
        hinterval.2 fun _ => (hfields.limit hlimit).2, fun h => absurd h hnot⟩
    · obtain ⟨hwhole, hrange⟩ := hfields.size h hne
      refine ⟨hwhole, fun h' => ?_, fun h' => ?_, fun _ => (hsize h hne).2 hrange⟩
      · exact absurd (h.symm.trans h') (by decide)
      · exact absurd (h.symm.trans h') (by decide)

theorem applyNumber_inRange {ctype value : Int} {complete : Bool} {conf : Conf} (h : conf.InRange)
    (hsafe : ∀ a ∈ report ctype (takesNumber ctype value conf) complete
      (applyNumber ctype value conf).1, a.Safe) : (applyNumber ctype value conf).1.InRange := by
  have hreported := fun htaken => hsafe _ (mem_report.2 ⟨(takesNumber_iff ..).2 htaken, rfl⟩)
  by_cases hcount : ctype = disCount
  · have hs := (hreported (.inl (.inl hcount))).count hcount
    rw [applyNumber, if_pos hcount] at hs ⊢
    exact ⟨hs, h.interval, h.size⟩
  by_cases hinterval : ctype = disInterval
  · have hs := (hreported (.inl (.inr hinterval))).interval hinterval
    rw [applyNumber, if_neg hcount, if_pos hinterval] at hs ⊢
    exact ⟨h.count, hs, h.size⟩
  by_cases hset : ctype = disSize ∧ conf.dupArraySize ≠ value
  · have hs := (hreported (.inr hset)).size hset.1
    rw [applyNumber, if_neg hcount, if_neg hinterval, if_pos hset] at hs ⊢
    exact ⟨h.count, h.interval, hs⟩
  · rw [applyNumber, if_neg hcount, if_neg hinterval, if_neg hset]
    exact h

/-- A turn for a setting with a number, or for no setting. -/
theorem body_number (queryCreate : List UInt8 → Bool) (h : l.feed.number ≤ eventScreen)
    (hnumber : l.feed.number < disDups) :
    ∃ l' reported, body queryCreate l = .next l' reported ∧ l'.feed = l.feed.after ∧
      ((∀ a ∈ reported, a.Safe) ↔ l.feed.FieldsOk) ∧
      ((∀ a ∈ reported, a.Safe) → l.conf.InRange → l'.conf.InRange) := by
  have h' : ¬ eventScreen < intOf l.ctype := not_lt.2 h
  have hnumber' : ¬ disDups ≤ intOf l.ctype := not_le.2 hnumber
  rw [body, if_neg h']
  refine ⟨_, _, if_neg hnumber', ?_, report_number_safe hnumber,
    fun hsafe hrange => applyNumber_inRange hrange hsafe⟩
  rw [Feed.after, if_neg (not_le.2 hnumber), ← feed_afterNumber]
  rfl

/-- A string that was cut at a place of the array is shorter than it. -/
theorem cstr_set_length (bs : List UInt8) (n : Nat) : (cstr (bs.set n 0)).length ≤ n := by
  induction bs generalizing n with
  | nil => simp [cstr]
  | cons b bs ih =>
    cases n with
    | zero => simp [cstr]
    | succ n =>
      rw [List.set_cons_succ, cstr, List.takeWhile_cons]
      split
      · exact Nat.succ_le_succ (ih n)
      · simp

theorem switches_iff (text : List UInt8) (disDupRecs : Bool) : switches text disDupRecs = true ↔
    (disDupRecs = false ∧ text = on) ∨ (disDupRecs = true ∧ text = off) := decide_eq_true_iff

theorem applyDups_inRange {cbuf : List UInt8} {conf : Conf} (h : conf.InRange) :
    (applyDups cbuf conf).InRange := by
  unfold applyDups
  split_ifs <;> exact ⟨h.count, h.interval, h.size⟩

theorem applyDups_discarding (cbuf : List UInt8) (conf : Conf) : (applyDups cbuf conf).disDupRecs =
    if switches (cstr cbuf) conf.disDupRecs then !conf.disDupRecs else conf.disDupRecs := by
  unfold applyDups
  simp only [switches_iff]
  split_ifs <;> grind

theorem applyDups_size (cbuf : List UInt8) (conf : Conf) :
    (applyDups cbuf conf).dupArraySize = conf.dupArraySize := by
  unfold applyDups
  split_ifs <;> rfl

/-- A turn for a setting with a string that fits. -/
theorem body_string_fits (queryCreate : List UInt8 → Bool) (h : l.feed.number ≤ eventScreen)
    (hstring : disDups ≤ l.feed.number) (hrefused : ¬ l.feed.Refused)
    (hfits : l.feed.amount < maxEvlLine) :
    ∃ l' reported, body queryCreate l = .next l' reported ∧ l'.feed = l.feed.after ∧
      ((∀ a ∈ reported, a.Safe) ↔ (l.feed.number = disDups → l.feed.Switched → l.feed.stringWhole)) ∧
      (l.conf.InRange → l'.conf.InRange) := by
  have hlength : ¬ (intOf l.feed.valueField.1 < 0 ∨ maxEvlLine < intOf l.feed.valueField.1) :=
    fun hor => hrefused ⟨hstring, hor⟩
  rw [body_string h hstring, stringTurn, Feed.after, if_pos hstring]
  simp only [if_neg hlength, if_neg (not_le.2 (show intOf l.feed.valueField.1 < maxEvlLine from hfits))]
  by_cases hdups : l.feed.number = disDups
  · refine ⟨_, _, if_pos hdups, ?_, ?_, fun hrange => applyDups_inRange hrange⟩
    · rw [feed_readType]
      refine congrArg Feed.readType (Feed.ext rfl rfl rfl rfl ?_ ?_ ?_ rfl)
      · simp only [Feed.afterString, if_pos hdups]
        rfl
      · exact applyDups_size ..
      · simp only [Feed.afterString, hdups, true_and]
        exact applyDups_discarding ..
    · constructor
      · exact fun hsafe _ hswitched => (hsafe _ (mem_report.2 ⟨hswitched, rfl⟩)).complete
      · intro hwhole a ha
        obtain ⟨hswitched, rfl⟩ := mem_report.1 ha
        have hother : intOf l.ctype ≠ disCount ∧ intOf l.ctype ≠ disInterval ∧ intOf l.ctype ≠ disSize := by
          rw [show intOf l.ctype = disDups from hdups]
          decide
        exact ⟨hwhole hdups hswitched, fun h => absurd h hother.1, fun h => absurd h hother.2.1,
          fun h => absurd h hother.2.2⟩
  · have hcstr := cstr_set_length l.feed.stringField.1 l.feed.amount.toNat
    have hshort : ¬ maxEvlLine ≤ (cstr l.feed.string).length := by
      have hnonneg : 0 ≤ l.feed.amount := not_lt.1 fun hneg => hlength (.inl hneg)
      rw [Feed.string]
      omega
    refine ⟨_, _, (if_neg hdups).trans (if_neg hshort), ?_, ?_, fun hrange => hrange⟩
    · rw [feed_readType]
      refine congrArg Feed.readType (Feed.ext rfl rfl rfl rfl ?_ rfl ?_ rfl)
      · simp only [Feed.afterString, if_neg hdups]
        rfl
      · simp only [Feed.afterString, hdups, false_and, if_false]
        rfl
    · exact ⟨fun _ h => absurd h hdups, fun _ => nofun⟩

theorem body_string_overrun (h : l.feed.number ≤ eventScreen) (hstring : disDups ≤ l.feed.number)
    (hrefused : ¬ l.feed.Refused) (hlong : ¬ l.feed.amount < maxEvlLine) :
    body queryCreate l = .stop .overrun := by
  have hlength : ¬ (l.feed.amount < 0 ∨ maxEvlLine < l.feed.amount) := fun hor => hrefused ⟨hstring, hor⟩
  rw [body_string h hstring, stringTurn]
  simp only [show intOf l.feed.valueField.1 = l.feed.amount from rfl, if_neg hlength,
    if_pos (not_lt.1 hlong)]

/-- A turn behind which the loop goes on. -/
theorem body_next (queryCreate : List UInt8 → Bool) (h : l.feed.number ≤ eventScreen)
    (hrefused : ¬ l.feed.Refused) (hfits : disDups ≤ l.feed.number → l.feed.amount < maxEvlLine) :
    ∃ l' reported, body queryCreate l = .next l' reported ∧ l'.feed = l.feed.after ∧
      ((∀ a ∈ reported, a.Safe) ↔ l.feed.FieldsOk) ∧
      ((∀ a ∈ reported, a.Safe) → l.conf.InRange → l'.conf.InRange) := by
  by_cases hstring : disDups ≤ l.feed.number
  · obtain ⟨l', reported, hbody, hfeed, hsafe, hrange⟩ :=
      body_string_fits queryCreate h hstring hrefused (hfits hstring)
    refine ⟨l', reported, hbody, hfeed, hsafe.trans ⟨fun hdups => ?_, fun hfields => hfields.dups⟩,
      fun _ => hrange⟩
    have hother : ¬ (l.feed.number = disCount ∨ l.feed.number = disInterval) ∧
        l.feed.number ≠ disSize := by
      simp only [disCount, disInterval, disSize, disDups] at *
      omega
    exact ⟨fun h => absurd h hother.1, fun h => absurd h hother.2, hfits, hdups⟩
  · exact body_number queryCreate h (not_le.1 hstring)

/-- A turn behind which the loop does not go on has ended it or written behind
an array. -/
theorem body_stop {r : Result} (h : l.feed.number ≤ eventScreen) (hrefused : ¬ l.feed.Refused)
    (hbody : body queryCreate l = .stop r) : r = .overrun := by
  by_cases hfits : disDups ≤ l.feed.number → l.feed.amount < maxEvlLine
  · obtain ⟨l', reported, hnext, -⟩ := body_next queryCreate h hrefused hfits
    rw [hnext] at hbody
    cases hbody
  · obtain ⟨hstring, hlong⟩ := Classical.not_imp.1 hfits
    rw [body_string_overrun h hstring hrefused hlong] at hbody
    exact (Turn.stop.inj hbody).symm

/-- A turn behind which the loop goes on is one for a setting with a string
that fits, if with any. -/
theorem of_body_next {l' : Loop} {reported : List Applied}
    (hbody : body queryCreate l = .next l' reported) : l.feed.number ≤ eventScreen ∧
      ¬ l.feed.Refused ∧ (disDups ≤ l.feed.number → l.feed.amount < maxEvlLine) := by
  have h : l.feed.number ≤ eventScreen := by
    by_contra hended
    rw [body_ended (not_le.1 hended)] at hbody
    cases hbody
  have hrefused : ¬ l.feed.Refused := by
    intro hrefused
    rw [body_refused h hrefused] at hbody
    cases hbody
  refine ⟨h, hrefused, fun hstring => ?_⟩
  by_contra hlong
  rw [body_string_overrun h hstring hrefused hlong] at hbody
  cases hbody

end Turn

/-! ## The loop -/

variable {queryCreate : List UInt8 → Bool}

theorem wellFed_of_ends {l : Loop} (h : Ends (body queryCreate) Result.Returned Applied.Safe l) :
    WellFed l.feed := by
  induction h with
  | @stop l r hbody hr =>
    by_cases hended : eventScreen < l.feed.number
    · rw [body_ended hended] at hbody
      rw [← Turn.stop.inj hbody] at hr
      exact .ended hended ((finish_returned_iff queryCreate l).1 hr)
    · by_cases hrefused : l.feed.Refused
      · exact .refused (not_lt.1 hended) hrefused
      · rw [body_stop (not_lt.1 hended) hrefused hbody] at hr
        obtain ⟨_, _, _, hr, -⟩ := hr
        cases hr
  | @next l l' reported hbody hsafe _ ih =>
    obtain ⟨h, hrefused, hfits⟩ := of_body_next hbody
    obtain ⟨l'', reported', hbody', hfeed, hfields, -⟩ := body_next queryCreate h hrefused hfits
    rw [hbody] at hbody'
    cases hbody'
    exact .setting h hrefused (hfields.1 hsafe) (hfeed ▸ ih)

theorem ends_of_wellFed {f : Feed} (h : WellFed f) {l : Loop} (hl : l.feed = f) :
    Ends (body queryCreate) Result.Returned Applied.Safe l := by
  induction h generalizing l with
  | ended h hscreen =>
    subst hl
    exact .stop (body_ended h) ((finish_returned_iff queryCreate l).2 hscreen)
  | refused h hrefused =>
    subst hl
    exact .stop (body_refused h hrefused) ⟨_, _, _, rfl, nofun⟩
  | setting h hlength hfields _ ih =>
    subst hl
    obtain ⟨l', reported, hbody, hfeed, hsafe, -⟩ := body_next queryCreate h hlength hfields.length
    exact .next hbody (hsafe.2 hfields) (ih hfeed)

/-! ## The settings stay in range -/

theorem createQuery_inRange (queryCreate : List UInt8 → Bool) (qexp : List UInt8) {conf : Conf}
    (h : conf.InRange) : (createQuery queryCreate qexp conf).1.InRange := by
  unfold createQuery
  dsimp only
  split_ifs <;> exact ⟨h.count, h.interval, h.size⟩

theorem finish_inRange {l : Loop} (h : l.conf.InRange) {ret : Int} {conf : Conf}
    {screen : Option Applied} (hfinish : finish queryCreate l = .returned ret conf screen) :
    conf.InRange := by
  unfold finish at hfinish
  split at hfinish
  · cases hfinish
    exact createQuery_inRange queryCreate l.queryExp h
  · cases hfinish
    exact h

theorem body_next_inRange (l l' : Loop) (reported : List Applied)
    (hbody : body queryCreate l = .next l' reported) (hsafe : ∀ a ∈ reported, a.Safe)
    (h : l.conf.InRange) : l'.conf.InRange := by
  obtain ⟨hle, hrefused, hfits⟩ := of_body_next hbody
  obtain ⟨l'', reported', hbody', -, -, hrange⟩ := body_next queryCreate hle hrefused hfits
  rw [hbody] at hbody'
  cases hbody'
  exact hrange hsafe h

theorem body_stop_inRange (l : Loop) (r : Result) (hbody : body queryCreate l = .stop r)
    (h : l.conf.InRange) : ∀ ret conf screen, r = .returned ret conf screen → conf.InRange := by
  rintro ret conf screen rfl
  by_cases hended : eventScreen < l.feed.number
  · rw [body_ended hended] at hbody
    exact finish_inRange h (Turn.stop.inj hbody)
  · by_cases hrefused : l.feed.Refused
    · rw [body_refused (not_lt.1 hended) hrefused] at hbody
      cases hbody
      exact h
    · cases body_stop (not_lt.1 hended) hrefused hbody

/-! ## The result -/

/-- `updateConfvalues` returns without having written behind an array, has
taken over only settings that were received completely and are in range, and
leaves the settings in range if they were, exactly when what comes over the
socket is well fed. -/
theorem updateConfvalues_safe_iff (queryCreate : List UInt8 → Bool) (stack : Stack) (conf : Conf)
    (stream : ByteStream) :
    (∃ fuel ret conf' screen applied,
      updateConfvalues queryCreate fuel stack conf stream = some (.returned ret conf' screen, applied) ∧
      (∀ a ∈ applied ++ screen.toList, a.Safe) ∧ (conf.InRange → conf'.InRange)) ↔
    WellFed (feed stack conf stream) := by
  rw [← feed_start]
  constructor
  · rintro ⟨fuel, ret, conf', screen, applied, hloop, hsafe, -⟩
    obtain ⟨happlied, hscreen⟩ := List.forall_mem_append.1 hsafe
    refine wellFed_of_ends (exists_whileLoop_iff.1 ⟨fuel, _, applied, hloop, ?_, happlied⟩)
    exact ⟨ret, conf', screen, rfl, fun a ha => hscreen a (Option.mem_toList.2 ha)⟩
  · intro h
    have hends : Ends (body queryCreate) Result.Returned Applied.Safe _ := ends_of_wellFed h rfl
    obtain ⟨fuel, r, applied, hloop, ⟨ret, conf', screen, rfl, hscreen⟩, hsafe⟩ :=
      exists_whileLoop_iff.2 hends
    refine ⟨fuel, ret, conf', screen, applied, hloop, List.forall_mem_append.2 ⟨hsafe, ?_⟩, fun h => ?_⟩
    · exact fun a ha => hscreen a (Option.mem_toList.1 ha)
    · exact whileLoop_invariant body_next_inRange body_stop_inRange hloop hsafe h ret conf' screen rfl

/-- A peer that sends a count of 7 and is gone: the loop sees the count again
and again. -/
def countStuck : Loop where
  ctype := leBytes 4 0
  value := leBytes 4 7
  cbuf := []
  typeRead := false
  queryExp := []
  qexpDefined := false
  screenRead := false
  conf := { defaultConf with dupCount := 7 }
  stream := []

theorem count_never_returns :
    ¬ ∃ fuel r, updateConfvalues (fun _ => true) fuel ⟨leBytes 4 0, leBytes 4 0, [], []⟩ defaultConf
      [leBytes 4 0, leBytes 4 7] = some r := by
  have hstuck : body (fun _ => true) countStuck =
      .next countStuck [⟨0, false, { defaultConf with dupCount := 7 }⟩] := by decide
  have hloop : ∀ fuel, whileLoop (body fun _ => true) fuel countStuck = none := by
    intro fuel
    induction fuel with
    | zero => rfl
    | succ fuel ih =>
      rw [whileLoop_next hstuck, ih]
      rfl
  have hfirst : body (fun _ => true)
      (start ⟨leBytes 4 0, leBytes 4 0, [], []⟩ defaultConf [leBytes 4 0, leBytes 4 7]) =
      .next countStuck [⟨0, true, { defaultConf with dupCount := 7 }⟩] := by decide
  rintro ⟨fuel, r, hreturns⟩
  cases fuel with
  | zero => cases hreturns
  | succ fuel =>
    rw [updateConfvalues, whileLoop_next hfirst, hloop fuel] at hreturns
    cases hreturns

end Evlog.Evlogd.Config
