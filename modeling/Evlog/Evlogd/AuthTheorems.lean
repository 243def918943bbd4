/-
Evlog.Evlogd.AuthTheorems — the password of a client in pieces.

`authenticate` is called each time something has come from a client that is
not authenticated. It first collects the four bytes of a length and then as
many bytes as they say, in a buffer of `MAX_RMT_AUTHDATA` bytes. Between two
calls the bytes collected are `Pending`, and one call on such bytes either
takes more of the stream or decides as the whole stream says
(`authenticate_more`, `authenticate_authenticated`, `authenticate_failed`). So
the pieces make no difference: the client is authenticated if and only if the
stream begins with the password (`Grants`). In a run of evlogrmtd a client that
is authenticated has said such a beginning (`allKnown_step`).
-/
import Evlog.Evlogd.NetHeader
import Evlog.Evlogd.RemoteLoopTheorems
import Evlog.Lib.Words

namespace Evlog.Evlogd.Rmt

open Evlog.Lib Evlog.Posix Evlog.Evlogd.Socket

/-! ## What is meant -/

def pwlen (bytes : List UInt8) : Nat := ByteOrder.big.nat (bytes.take intSize)

/-- The bytes begin with a length and the password, padded to that length
with anything behind a NUL. -/
structure Grants (passwd : Option (List UInt8)) (bytes : List UInt8) (n : Nat) : Prop where
  whole : intSize + n ≤ bytes.length
  field : pwlen bytes = n
  pos : 1 ≤ n
  room : (intSize + n : Int) < maxRmtAuthdata.toInt - 1
  password : passwd = some (((bytes.drop intSize).take n).takeWhile (· ≠ 0))

/-! ## The calls of one connection -/

/-- What `read` stores in a call. -/
def authRead (authdata : List UInt8) (s : ByteStream) : List UInt8 :=
  match authWanted authdata with
  | none => []
  | some (n, _) => (s.read n).1

def authRest (authdata : List UInt8) (s : ByteStream) : ByteStream :=
  match authWanted authdata with
  | none => s
  | some (n, _) => (s.read n).2

/-- The stores of a call into `authdata`, each with its offset and its size:
what `read` may store, and the NUL at `clnt_password[pwlen]`. -/
def authStores (authdata : List UInt8) (s : ByteStream) : List (Nat × Nat) :=
  match authWanted authdata with
  | none => []
  | some (n, total) =>
    (authdata.length, n) ::
      if (s.read n).1 = [] ∨ total < 0 ∨ ((authdata ++ (s.read n).1).length : Int) < total.toInt then []
      else [(total.toNatClampNeg, 1)]

/-- After some calls. -/
structure AuthRun where
  result : AuthResult
  stores : List (Nat × Nat)
  rest : ByteStream

/-- Up to `k` calls, as long as more has to come. -/
def authCalls (passwd : Option (List UInt8)) : Nat → Client → ByteStream → AuthRun
  | 0, ci, s => ⟨.more ci.authdata, [], s⟩
  | k + 1, ci, s =>
    let rest := authRest ci.authdata s
    let stores := authStores ci.authdata s
    match authenticate passwd ci s with
    | .more authdata =>
      let r := authCalls passwd k { ci with authdata } rest
      { r with stores := stores ++ r.stores }
    | result => ⟨result, stores, rest⟩

/-! ## One call -/

/-- What is in `authdata` between two calls. -/
def Pending (authdata : List UInt8) : Prop :=
  authdata.length ≤ intSize ∨
    (intSize + pwlen authdata < 127 ∧ authdata.length < intSize + pwlen authdata)

variable {authdata bytes : List UInt8}

theorem authWanted_short (h : authdata.length < intSize) :
    authWanted authdata = some (intSize - authdata.length, -1) := if_pos h

/-- Once there is a length: no length gets through that is too long, or is
negative, or wraps around. -/
theorem authWanted_long (h : intSize ≤ authdata.length) : authWanted authdata =
      if intSize + pwlen authdata < 127 ∧ authdata.length ≤ intSize + pwlen authdata then
        some (intSize + pwlen authdata - authdata.length, Int32.ofNat (intSize + pwlen authdata))
      else none := by
  have hlen : (authdata.take intSize).length = 4 := by simp [intSize] at h ⊢; omega
  have hpwlen : _ = pwlen authdata := Net.toNat_ntohl_leNat hlen
  unfold authWanted
  rw [if_neg (Nat.not_lt.2 h)]
  dsimp only
  generalize ntohl (.ofNat (leNat (authdata.take intSize))) = pwlen at hpwlen ⊢
  rw [← hpwlen]
  have hlt := pwlen.toNat_lt
  have htotal : (UInt32.ofNat intSize + pwlen).toInt32.toInt =
      if (intSize + pwlen.toNat) % 2 ^ 32 < 2 ^ 31 then (((intSize + pwlen.toNat) % 2 ^ 32 : Nat) : Int)
      else (((intSize + pwlen.toNat) % 2 ^ 32 : Nat) : Int) - 2 ^ 32 := by
    rw [toInt_toInt32, UInt32.toNat_add]
    rfl
  have hmax : (maxRmtAuthdata - 1).toInt = 127 := by decide
  generalize hint : intSize = k at h htotal ⊢
  obtain rfl : k = 4 := hint.symm
  by_cases hfits : 4 + pwlen.toNat < 127 ∧ authdata.length ≤ 4 + pwlen.toNat
  · rw [if_pos (by omega), Nat.mod_eq_of_lt (by omega)] at htotal
    have hword : (UInt32.ofNat 4 + pwlen).toInt32 = Int32.ofNat (4 + pwlen.toNat) := by
      rw [← Int32.toInt_inj, htotal, Int32.toInt_ofNat_of_lt (by omega)]
    have hclamp : (Int32.ofNat (4 + pwlen.toNat)).toNatClampNeg = 4 + pwlen.toNat :=
      Int32.toNatClampNeg_ofNat_of_lt (by omega)
    rw [if_pos hfits, if_neg, hword, hclamp]
    rw [Int32.le_iff_toInt_le, hmax]
    omega
  · rw [if_neg hfits, if_pos]
    rw [Int32.le_iff_toInt_le, hmax]
    split at htotal <;> omega

variable {passwd : Option (List UInt8)} {ci : Client} {s : ByteStream}

theorem authenticate_short (h : ci.authdata.length < intSize) : authenticate passwd ci s =
      if authRead ci.authdata s = [] then .failed else .more (ci.authdata ++ authRead ci.authdata s) := by
  unfold authenticate authRead
  rw [authWanted_short h]
  dsimp only
  rw [if_pos (show (-1 : Int32) < 0 ∨ _ from .inl (by decide))]

theorem authenticate_long (h : intSize ≤ ci.authdata.length) : authenticate passwd ci s =
      if intSize + pwlen ci.authdata < 127 ∧ ci.authdata.length ≤ intSize + pwlen ci.authdata ∧
          authRead ci.authdata s ≠ [] then
        if (ci.authdata ++ authRead ci.authdata s).length < intSize + pwlen ci.authdata then
          .more (ci.authdata ++ authRead ci.authdata s)
        else if passwd = some (((ci.authdata ++ authRead ci.authdata s).drop intSize).takeWhile (· ≠ 0))
          then .authenticated else .failed
      else .failed := by
  unfold authenticate authRead
  rw [authWanted_long h]
  by_cases hfits : intSize + pwlen ci.authdata < 127 ∧ ci.authdata.length ≤ intSize + pwlen ci.authdata
  · have htotal : (Int32.ofNat (intSize + pwlen ci.authdata)).toInt = (intSize + pwlen ci.authdata : Nat) :=
      Int32.toInt_ofNat_of_lt (by omega)
    have hnonneg : ¬Int32.ofNat (intSize + pwlen ci.authdata) < 0 := by
      rw [Int32.lt_iff_toInt_lt, htotal, show (0 : Int32).toInt = 0 from rfl]
      omega
    rw [if_pos hfits]
    dsimp only
    rw [htotal]
    simp only [hnonneg, false_or, Nat.cast_lt, hfits.1, hfits.2, true_and, ne_eq, ite_not]
  · rw [if_neg hfits, if_neg fun hall => hfits ⟨hall.1, hall.2.1⟩]

theorem authRead_append (authdata : List UInt8) (s : ByteStream) :
    authRead authdata s ++ (authRest authdata s).flatten = s.flatten := by
  unfold authRead authRest
  cases authWanted authdata with
  | none => rfl
  | some wanted => exact s.read_append wanted.1

theorem pwlen_append (h : intSize ≤ authdata.length) (more : List UInt8) :
    pwlen (authdata ++ more) = pwlen authdata := by
  unfold pwlen
  rw [List.take_append_of_le_length h]

theorem authRead_length_le (authdata : List UInt8) (s : ByteStream) :
    (authdata.length < intSize → (authdata ++ authRead authdata s).length ≤ intSize) ∧
      (intSize ≤ authdata.length → authdata.length ≤ intSize + pwlen authdata →
        (authdata ++ authRead authdata s).length ≤ intSize + pwlen authdata) := by
  unfold authRead
  rw [List.length_append]
  constructor
  · intro h
    rw [authWanted_short h]
    have hread := s.read_length_le (intSize - authdata.length)
    dsimp only
    omega
  · intro h hle
    rw [authWanted_long h]
    have hread := s.read_length_le (intSize + pwlen authdata - authdata.length)
    split
    · simpa using hle
    · next n total heq =>
      split at heq
      · cases heq
        omega
      · cases heq

/-- More is taken, and the bytes are as before a call again. -/
theorem authenticate_more (h : authenticate passwd ci s = .more authdata) :
    authdata = ci.authdata ++ authRead ci.authdata s ∧ authRead ci.authdata s ≠ [] ∧ Pending authdata := by
  rcases Nat.lt_or_ge ci.authdata.length intSize with hshort | hlong
  · rw [authenticate_short hshort] at h
    split at h
    · cases h
    · next hread =>
      cases h
      exact ⟨rfl, hread, .inl ((authRead_length_le _ s).1 hshort)⟩
  · rw [authenticate_long hlong] at h
    split at h
    · next hfits =>
      split at h
      · next hpart =>
        cases h
        refine ⟨rfl, hfits.2.2, .inr ?_⟩
        rw [pwlen_append hlong]
        exact ⟨hfits.1, hpart⟩
      · split at h <;> cases h
    · cases h

/-- The client is authenticated by what it has been heard to say. -/
theorem authenticate_authenticated
    (h : authenticate passwd ci s = .authenticated) :
    ∃ n, Grants passwd (ci.authdata ++ authRead ci.authdata s) n ∧
      (ci.authdata ++ authRead ci.authdata s).length = intSize + n := by
  rcases Nat.lt_or_ge ci.authdata.length intSize with hshort | hlong
  · rw [authenticate_short hshort] at h
    split at h <;> cases h
  · rw [authenticate_long hlong] at h
    split at h
    · next hfits =>
      split at h
      · cases h
      · next hwhole =>
        split at h
        · next hpasswd =>
          obtain ⟨hroom, hle, hread⟩ := hfits
          have hlen := (authRead_length_le ci.authdata s).2 hlong hle
          have hpos := List.length_pos_iff.2 hread
          have heq : (ci.authdata ++ authRead ci.authdata s).length = intSize + pwlen ci.authdata := by omega
          refine ⟨pwlen ci.authdata, ⟨heq.ge, pwlen_append hlong _, ?_, ?_, ?_⟩, heq⟩
          · rw [List.length_append] at heq
            omega
          · rw [show maxRmtAuthdata.toInt = 128 from rfl]
            omega
          · rw [List.take_of_length_le (by rw [List.length_drop]; omega)]
            exact hpasswd
        · cases h
    · cases h

theorem Grants.eq_pwlen {n : Nat} (h : Grants passwd bytes n) : n = pwlen bytes :=
  h.field.symm

/-- The client is rejected where what it is going to say is not the password. -/
theorem authenticate_failed (hp : Pending ci.authdata) (hne : ∀ p ∈ s, p ≠ [])
    (h : authenticate passwd ci s = .failed) (n : Nat) : ¬Grants passwd (ci.authdata ++ s.flatten) n := by
  intro hgrants
  obtain ⟨hwhole, -, hpos, hroom, hpasswd⟩ := id hgrants
  rw [show maxRmtAuthdata.toInt = 128 from rfl] at hroom
  -- There is something to be read as long as not all has come.
  have hread : ∀ k total, authWanted ci.authdata = some (k, total) → 0 < k →
      ci.authdata.length < intSize + n → authRead ci.authdata s ≠ [] := by
    intro k total hwanted hk hlt
    unfold authRead
    rw [hwanted]
    refine ByteStream.read_ne_nil ?_ hne hk
    rintro rfl
    simp at hwhole
    omega
  rcases Nat.lt_or_ge ci.authdata.length intSize with hshort | hlong
  · rw [authenticate_short hshort, if_neg] at h
    · cases h
    · exact hread _ _ (authWanted_short hshort) (by omega) (by omega)
  · have hn : n = pwlen ci.authdata := hgrants.eq_pwlen.trans (pwlen_append hlong _)
    have hlt : ci.authdata.length < intSize + n := by
      rcases hp with hle | ⟨-, hlt⟩
      · omega
      · exact hn ▸ hlt
    have hdata := hread _ _ ((authWanted_long hlong).trans (if_pos ⟨by omega, by omega⟩)) (by omega) hlt
    rw [authenticate_long hlong, if_pos ⟨by omega, by omega, hdata⟩] at h
    split at h
    · cases h
    · next hall =>
      have hlen := (authRead_length_le ci.authdata s).2 hlong (by omega)
      have htake : (ci.authdata ++ authRead ci.authdata s).drop intSize
          = ((ci.authdata ++ s.flatten).drop intSize).take n := by
        rw [← authRead_append ci.authdata s, ← List.append_assoc]
        generalize ci.authdata ++ authRead ci.authdata s = heard at hall hlen ⊢
        have hheard : (heard.drop intSize).length = n := by
          rw [List.length_drop]
          omega
        rw [List.drop_append_of_le_length (by omega), List.take_append_of_le_length hheard.ge,
          List.take_of_length_le hheard.le]
      rw [htake, if_pos hpasswd] at h
      cases h

theorem authRest_pieces (hne : ∀ p ∈ s, p ≠ []) (authdata : List UInt8) :
    ∀ p ∈ authRest authdata s, p ≠ [] := by
  unfold authRest
  split
  · exact hne
  · exact ByteStream.read_pieces hne _

/-- What is stored is stored in `authdata`. -/
theorem authStores_inside (authdata : List UInt8) (s : ByteStream) :
    ∀ st ∈ authStores authdata s, st.1 + st.2 ≤ maxRmtAuthdata.toNatClampNeg := by
  rw [show maxRmtAuthdata.toNatClampNeg = 128 from rfl]
  rcases Nat.lt_or_ge authdata.length intSize with hshort | hlong
  · unfold authStores
    rw [authWanted_short hshort]
    simp only [show (-1 : Int32) < 0 from by decide, true_or, or_true, if_true,
      List.mem_singleton, forall_eq]
    simp only [intSize] at hshort ⊢
    omega
  · unfold authStores
    rw [authWanted_long hlong]
    split
    · simp
    · next n total heq =>
      split at heq
      · next hfits =>
        cases heq
        have hclamp : (Int32.ofNat (intSize + pwlen authdata)).toNatClampNeg = intSize + pwlen authdata :=
          Int32.toNatClampNeg_ofNat_of_lt (by omega)
        intro st hst
        rcases List.mem_cons.1 hst with rfl | hst
        · simp only
          omega
        · split at hst
          · cases hst
          · obtain rfl := List.mem_singleton.1 hst
            simp only [hclamp]
            omega
      · cases heq

/-! ## All the calls -/

/-- What the calls have decided, and what they have read. -/
structure AuthRun.Sound (r : AuthRun) (passwd : Option (List UInt8)) (bytes : List UInt8) : Prop where
  authenticated : r.result = .authenticated →
    ∃ n, Grants passwd bytes n ∧ r.rest.flatten = bytes.drop (intSize + n)
  failed : r.result = .failed → ∀ n, ¬Grants passwd bytes n
  stores : ∀ st ∈ r.stores, st.1 + st.2 ≤ maxRmtAuthdata.toNatClampNeg

theorem grants_append {n : Nat} (h : Grants passwd bytes n) (more : List UInt8) :
    Grants passwd (bytes ++ more) n := by
  have hwhole := h.whole
  refine ⟨?_, ?_, h.pos, h.room, ?_⟩
  · rw [List.length_append]
    omega
  · rw [pwlen_append (by omega)]
    exact h.field
  · rw [List.drop_append_of_le_length (by omega),
      List.take_append_of_le_length (by rw [List.length_drop]; omega)]
    exact h.password

/-- However many calls there have been, the decision is that of the bytes;
and there is one before the stream is used up. -/
theorem authCalls_sound (passwd : Option (List UInt8)) (k : Nat) (ci : Client) (s : ByteStream)
    (hp : Pending ci.authdata) (hne : ∀ p ∈ s, p ≠ []) :
    (authCalls passwd k ci s).Sound passwd (ci.authdata ++ s.flatten) ∧
      (s.flatten.length < k → ∀ authdata, (authCalls passwd k ci s).result ≠ .more authdata) := by
  induction k generalizing ci s with
  | zero =>
    refine ⟨⟨?_, ?_, ?_⟩, ?_⟩
    · intro h
      cases h
    · intro h
      cases h
    · simp [authCalls]
    · intro h
      omega
  | succ k ih =>
    have hstores := authStores_inside ci.authdata s
    have hbytes := authRead_append ci.authdata s
    unfold authCalls
    cases hresult : authenticate passwd ci s with
    | more authdata =>
      obtain ⟨rfl, hread, hpending⟩ := authenticate_more hresult
      have hrest := ih { ci with authdata := ci.authdata ++ authRead ci.authdata s }
        (authRest ci.authdata s) hpending (authRest_pieces hne _)
      have hall : ci.authdata ++ authRead ci.authdata s ++ (authRest ci.authdata s).flatten
          = ci.authdata ++ s.flatten := by rw [List.append_assoc, hbytes]
      rw [hall] at hrest
      obtain ⟨hsound, hdecided⟩ := hrest
      refine ⟨⟨hsound.authenticated, hsound.failed, ?_⟩, ?_⟩
      · intro st hst
        rcases List.mem_append.1 hst with hst | hst
        · exact hstores st hst
        · exact hsound.stores st hst
      · intro hk
        have hlen := congrArg List.length hbytes
        have hpos := List.length_pos_iff.2 hread
        rw [List.length_append] at hlen
        exact hdecided (by omega)
    | authenticated =>
      obtain ⟨n, hgrants, hlen⟩ := authenticate_authenticated hresult
      have happ := grants_append hgrants (authRest ci.authdata s).flatten
      rw [List.append_assoc, hbytes] at happ
      refine ⟨⟨fun _ => ⟨n, happ, ?_⟩, fun h => (by cases h), hstores⟩, fun _ _ h => (by cases h)⟩
      rw [← hbytes, ← List.append_assoc, ← hlen, List.drop_left]
    | failed =>
      refine ⟨⟨fun h => (by cases h), fun _ => ?_, hstores⟩, fun _ _ h => (by cases h)⟩
      exact authenticate_failed hp hne hresult

/-! ## In the loop -/

namespace Loop

/-- What `authenticate` has read from the client in each slot, and the
password it was last compared with. -/
abbrev Heard := Nat → List UInt8 × Option (List UInt8)

def Ready (s : Loop) (i : Nat) (ci : Client) : Prop :=
  (i : Int) ≤ s.maxci ∧ ci.taken = true ∧ ci.sd ∈ s.allSds

instance (s : Loop) (i : Nat) (ci : Client) : Decidable (s.Ready i ci) :=
  inferInstanceAs (Decidable (_ ∧ _))

def hear (s : Loop) (h : Heard) : Action → Heard
  | .accept _ _ =>
    match s.clients.findIdx? fun cl => cl.sd == clientSlotAvailable with
    | some idx => Function.update h idx ([], none)
    | none => h
  | .client i stream passwd _ =>
    match s.clients[i]? with
    | some ci =>
      if s.Ready i ci ∧ ci.authenticated = false then
        Function.update h i ((h i).1 ++ authRead ci.authdata stream, passwd)
      else h
    | none => h
  | _ => h

/-- The record that `clientReady` hands on for the client in the slot. -/
def forwardsFrom (s : Loop) (i : Nat) : Action → Option (PosixLogEntry × List UInt8)
  | .client j stream _ evlogd =>
    match s.clients[j]? with
    | some ci =>
      if j = i ∧ s.Ready i ci ∧ ci.authenticated = true then
        (s.clientTrace ci evlogd stream).forwarded
      else none
    | none => none
  | _ => none

def heardStep (sh : Loop × Heard) (a : Action) : Loop × Heard := (step sh.1 a, sh.1.hear sh.2 a)

/-- The client has said the password, and nothing else yet. -/
def Said (said : List UInt8 × Option (List UInt8)) : Prop :=
  ∃ n, Grants said.2 said.1 n ∧ said.1.length = intSize + n

/-- Who is authenticated has said the password; of the others all that they
have said is in `authdata`. -/
def Known (said : List UInt8 × Option (List UInt8)) (cl : Client) : Prop :=
  if cl.authenticated = true then Said said else said.1 = cl.authdata ∧ Pending cl.authdata

def AllKnown (sh : Loop × Heard) : Prop :=
  ∀ i cl, sh.1.clients[i]? = some cl → cl.taken = true → Known (sh.2 i) cl

variable {s : Loop} {h : Heard}

theorem finishWrite_clients (s : Loop) (evlogd : EvlogdPeer) (t : ForwardTrace) :
    (s.finishWrite evlogd t).clients = s.clients := by
  unfold finishWrite errExit
  split <;> rfl

theorem AllKnown.of_clients {s' : Loop} (hs : AllKnown (s, h)) (hclients : s'.clients = s.clients) :
    AllKnown (s', h) := by
  intro i cl hcl
  dsimp only at hcl
  rw [hclients] at hcl
  exact hs i cl hcl

theorem AllKnown.close {i : Nat} {h' : Heard} (hs : AllKnown (s, h)) (hh : ∀ j, j ≠ i → h' j = h j) :
    AllKnown (s.closeClientSocket i ci, h') := by
  intro j cl hcl htaken
  rw [closeClientSocket_eq] at hcl
  obtain ⟨hji, hold⟩ := clientsWithout_taken hcl htaken
  show Known (h' j) cl
  rw [hh j hji]
  exact hs j cl hold htaken

theorem AllKnown.set {s' : Loop} {i : Nat} {new : Client} {said : List UInt8 × Option (List UInt8)}
    (hs : AllKnown (s, h)) (hclients : s'.clients = s.clients.set i new) (hnew : Known said new) :
    AllKnown (s', Function.update h i said) := by
  intro j cl hcl htaken
  dsimp only at hcl ⊢
  rw [hclients, List.getElem?_set] at hcl
  split at hcl
  · next hij =>
    subst hij
    split at hcl
    · cases hcl
      rw [Function.update_self]
      exact hnew
    · cases hcl
  · next hij =>
    rw [Function.update_of_ne (Ne.symm hij)]
    exact hs j cl hcl htaken

theorem allKnown_accept (hs : AllKnown (s, h)) (newsd : Int) (addr : Option UInt32) :
    AllKnown (heardStep (s, h) (.accept newsd addr)) := by
  -- A free slot has no client that anything would have to be known of.
  have hfree : AllKnown (s, s.hear h (.accept newsd addr)) := by
    intro j cl hcl htaken
    unfold hear
    dsimp only at hcl ⊢
    cases hidx : s.clients.findIdx? fun cl => cl.sd == clientSlotAvailable with
    | none => exact hs j cl hcl htaken
    | some idx =>
      have hne : j ≠ idx := by
        rintro rfl
        obtain ⟨hlt, hsd, -⟩ := List.findIdx?_eq_some_iff_getElem.1 hidx
        rw [List.getElem?_eq_getElem hlt] at hcl
        cases hcl
        simp [Client.taken] at htaken
        simp [htaken] at hsd
      dsimp only
      rw [Function.update_of_ne hne]
      exact hs j cl hcl htaken
  show AllKnown (step s (.accept newsd addr), s.hear h (.accept newsd addr))
  simp only [step]
  split
  · unfold accept
    split
    · exact hfree
    · split
      · exact hfree
      · split
        · exact hfree
        · next nodeId hlook =>
          unfold hear
          dsimp only
          cases hidx : s.clients.findIdx? fun cl => cl.sd == clientSlotAvailable with
          | none => exact hs.of_clients rfl
          | some idx =>
            refine hs.set rfl ?_
            exact ⟨rfl, .inl (Nat.zero_le _)⟩
  · exact hfree

theorem allKnown_client (hs : AllKnown (s, h)) (i : Nat) (stream : ByteStream)
    (passwd : Option (List UInt8)) (evlogd : EvlogdPeer) :
    AllKnown (heardStep (s, h) (.client i stream passwd evlogd)) := by
  show AllKnown (step s (.client i stream passwd evlogd), s.hear h (.client i stream passwd evlogd))
  unfold hear
  simp only [step]
  cases hcl : s.clients[i]? with
  | none => exact hs
  | some ci =>
    dsimp only
    by_cases hready : s.Ready i ci
    · rw [if_pos (show _ ∧ _ ∧ _ from hready)]
      simp only [hready, true_and]
      unfold clientReady
      by_cases hauth : ci.authenticated = true
      · rw [if_pos hauth, if_neg (show ¬ci.authenticated = false by simp [hauth])]
        dsimp only
        split
        · exact hs.close fun _ _ => rfl
        · exact hs.of_clients (finishWrite_clients _ _ _)
      · have hknown := hs i ci hcl hready.2.1
        rw [Known, if_neg hauth] at hknown
        obtain ⟨hsaid, -⟩ := hknown
        dsimp only at hsaid
        rw [if_neg hauth, if_pos (by simpa using hauth), hsaid]
        cases hresult : authenticate passwd ci stream with
        | more authdata =>
          obtain ⟨rfl, -, hpending⟩ := authenticate_more hresult
          refine hs.set rfl ?_
          rw [Known, if_neg hauth]
          exact ⟨rfl, hpending⟩
        | authenticated =>
          refine hs.set rfl ?_
          exact authenticate_authenticated hresult
        | failed => exact hs.close fun j hj => Function.update_of_ne hj _ _
    · rw [if_neg (show ¬(_ ∧ _ ∧ _) from hready), if_neg fun hall => hready hall.1]
      exact hs

theorem allKnown_step (sh : Loop × Heard) (a : Action) (hs : AllKnown sh) :
    AllKnown (heardStep sh a) := by
  obtain ⟨s, h⟩ := sh
  cases a with
  | reinit hostArray => exact hs.of_clients rfl
  | validate i =>
    show AllKnown (step s (.validate i), h)
    simp only [step]
    split
    · split
      · exact hs.close fun _ _ => rfl
      · exact hs
    · exact hs
  | reconnect sd =>
    cases sd with
    | none => exact hs
    | some sd =>
      show AllKnown (step s (.reconnect (some sd)), h)
      simp only [step]
      split
      · exact hs.of_clients rfl
      · exact hs
  | accept newsd addr => exact allKnown_accept hs newsd addr
  | udp addr datagram evlogd =>
    show AllKnown (step s (.udp addr datagram evlogd), h)
    simp only [step]
    split
    · exact hs.of_clients (finishWrite_clients _ _ _)
    · exact hs
  | client i stream passwd evlogd => exact allKnown_client hs i stream passwd evlogd
  | evlogdGone =>
    show AllKnown (step s .evlogdGone, h)
    simp only [step]
    split
    · exact hs.of_clients rfl
    · exact hs

theorem allKnown_start (su : Setup) : AllKnown (start su, fun _ => ([], none)) := by
  intro i cl hcl htaken
  obtain rfl := List.eq_of_mem_replicate (List.mem_of_getElem? hcl)
  simp [Client.taken] at htaken

/-- In every run of evlogrmtd, the record of a client is forwarded only after
the client has said the password. -/
theorem forwarded_said (su : Setup) (as : List Action) :
    Meets heardStep (fun sh a => ∀ i record, sh.1.forwardsFrom i a = some record → Said (sh.2 i))
      (start su, fun _ => ([], none)) as := by
  refine meets_of_invariant allKnown_step ?_ (allKnown_start su) as
  intro sh a hknown i record hrecord
  cases a with
  | client j stream passwd evlogd =>
    simp only [forwardsFrom] at hrecord
    split at hrecord
    · next ci hcl =>
      split at hrecord
      · next hforwards =>
        obtain ⟨rfl, hready, hauth⟩ := hforwards
        have hsaid := hknown j ci hcl hready.2.1
        rw [Known, if_pos hauth] at hsaid
        exact hsaid
      · cases hrecord
    · cases hrecord
  | reinit hostArray => cases hrecord
  | validate j => cases hrecord
  | reconnect sd => cases hrecord
  | accept newsd addr => cases hrecord
  | udp addr datagram evlogd => cases hrecord
  | evlogdGone => cases hrecord

end Loop

end Evlog.Evlogd.Rmt
