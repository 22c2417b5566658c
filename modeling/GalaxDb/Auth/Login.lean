import GalaxDb.Auth.PasswordHolders
import GalaxDb.Server.Messages

/-!
# What a failed login shows

The server answers the first message of a login with a challenge only if the role has a
password. Two catalogs that differ in that one role alone are told apart by every login that
gets as far as looking the role up.
-/

namespace GalaxDb.Auth

open Bytes Sql.AuthStore Option

/-- The verifier of a role; a stored one has keys of the right size. -/
def verifierFor (store : Sql.Store) (name : Bytes) : Option Verifier :=
  (getRole store name).bind fun r =>
    r.verifier.bind fun v =>
      if h : v.storedKey.length = 32 ∧ v.serverKey.length = 32 then some ⟨v, h⟩ else none

def isSuperuser (store : Sql.Store) (name : Bytes) : Bool :=
  ((getRole store name).map Sql.RoleRecord.isSuperuser).getD false

variable {v : Sql.ScramVerifier} {r : Sql.RoleRecord} {bytes : Bytes}

theorem keys_of_fromBytes (h : Sql.ScramVerifier.fromBytes bytes = some v) :
    v.storedKey.length = 32 ∧ v.serverKey.length = 32 := by
  unfold Sql.ScramVerifier.fromBytes at h
  simp only at h
  split_ifs at h with size
  cases h
  simp only [List.length_take, List.length_drop]
  omega

theorem keys_of_role (h : Sql.RoleRecord.fromBytes bytes = some r) (there : r.verifier = some v) :
    v.storedKey.length = 32 ∧ v.serverKey.length = 32 := by
  unfold Sql.RoleRecord.fromBytes at h
  split_ifs at h with short
  simp only at h
  split at h
  · cases h
  · split_ifs at h with flag
    · cases h
      cases there
    · obtain ⟨v', stored, rfl⟩ := map_eq_some_iff.mp h
      cases there
      exact keys_of_fromBytes stored

/-- No stored verifier is left out. -/
theorem verifierFor_of_getRole {store : Sql.Store} {name : Bytes}
    (h : getRole store name = some r) :
    (verifierFor store name).map Subtype.val = r.verifier := by
  rw [verifierFor, h, bind_some]
  cases there : r.verifier with
  | none => rfl
  | some v =>
    obtain ⟨bytes, _, stored⟩ := bind_eq_some_iff.mp h
    rw [bind_some, dif_pos (keys_of_role stored there)]
    rfl

inductive ServerMessage where
  | authSasl (mechanisms : List Bytes)
  | saslContinue (data : Bytes)
  | saslFinal (data : Bytes)
  | errorResponse (error : Server.ErrorInfo)
  deriving DecidableEq

def ServerMessage.isChallenge : ServerMessage → Bool
  | .saslContinue _ => true
  | _ => false

/-- `read_i32` and `i32::from_be_bytes`; a negative number is above all bounds. -/
def ofBe (b : Bytes) : Nat := ofLe b.reverse

/-- A message of the given type and a length in the range, which counts itself. -/
def readMessage (tag : UInt8) (low : Nat) : Bytes → Option (Bytes × Bytes)
  | [] => none
  | t :: rest =>
    if t ≠ tag ∨ rest.length < 4 then none
    else
      let len := ofBe (rest.take 4)
      let body := rest.drop 4
      if len < low ∨ 1000000 < len then none
      else if body.length < len - 4 then none
      else some (body.take (len - 4), body.drop (len - 4))

/-- Mechanism and first response. A negative length stands for no response. -/
def splitInitialResponse (buf : Bytes) : Option (Bytes × Bytes) :=
  match buf.dropWhile (· ≠ 0) with
  | [] => none
  | _ :: rest =>
    if rest.length < 4 then none
    else
      let respLen := ofBe (rest.take 4)
      if 2 ^ 31 ≤ respLen then some (buf.takeWhile (· ≠ 0), [])
      else if (rest.drop 4).length < respLen then none
      else some (buf.takeWhile (· ≠ 0), (rest.drop 4).take respLen)

def readSaslInitialResponse (input : Bytes) : Option ((Bytes × Bytes) × Bytes) :=
  (readMessage 112 5 input).bind fun m => (splitInitialResponse m.1).map fun r => (r, m.2)

def readSaslResponse (input : Bytes) : Option (Bytes × Bytes) := readMessage 112 4 input

section Login

structure AuthPolicy where
  enabled : Bool
  trustedLocalUser : Bytes

inductive AuthOutcome where
  | session (role : Role)
  | rejected
  | io
  deriving DecidableEq

/-- What the server has sent, and how the login ended. -/
structure Login where
  messages : List ServerMessage
  outcome : AuthOutcome
  deriving DecidableEq

/-- The detail is not sent. -/
def rejectAuth (_detail : Bytes) : ServerMessage :=
  .errorResponse ⟨ascii "28P01", ascii "password authentication failed"⟩

def mechanisms : List Bytes := [ascii "SCRAM-SHA-256"]

variable (C : Crypto) (E : Base64) (policy : AuthPolicy)

def authenticator (store : Sql.Store) : ScramAuthenticator :=
  ⟨C, E, verifierFor store, isSuperuser store⟩

/-- The second round, after the challenge was sent. -/
def finishLogin (store : Sql.Store) (random : Bytes) (state : AuthState) (sent : List ServerMessage)
    (input : Bytes) : Login :=
  match readSaslResponse input with
  | none => ⟨sent, .io⟩
  | some (clientFinal, _) =>
    match ((authenticator C E store).step random state clientFinal).2 with
    | .success role finalMessage => ⟨sent ++ (finalMessage.map .saslFinal).toList, .session role⟩
    | .fail _ => ⟨sent ++ [rejectAuth (ascii "authentication failed")], .rejected⟩
    | .continue_ _ => ⟨sent ++ [rejectAuth (ascii "unexpected extra SASL round")], .rejected⟩

/-- The authentication phase of a connection, over all that the client sends. -/
def authenticate (store : Sql.Store) (random : Bytes) (userParam : Option Bytes) (input : Bytes) :
    Login :=
  if ¬ policy.enabled then ⟨[], .session ⟨policy.trustedLocalUser, true⟩⟩
  else
    let sent := [.authSasl mechanisms]
    match readSaslInitialResponse input with
    | none => ⟨sent, .io⟩
    | some ((mechanism, initialResponse), rest) =>
      if mechanism ∉ mechanisms then
        ⟨sent ++ [rejectAuth (ascii "unsupported SASL mechanism '" ++ mechanism ++ ascii "'")],
          .rejected⟩
      else
        let first := (authenticator C E store).step random (begin_ userParam) initialResponse
        match first.2 with
        | .continue_ serverFirst =>
          finishLogin C E store random first.1 (sent ++ [.saslContinue serverFirst]) rest
        | .fail _ => ⟨sent ++ [rejectAuth (ascii "authentication failed")], .rejected⟩
        | .success _ _ =>
          ⟨sent ++ [rejectAuth (ascii "unexpected SASL success in round 1")], .rejected⟩

end Login

/-- The same message, up to the nonce of the server and the salt of a challenge. -/
inductive Alike : ServerMessage → ServerMessage → Prop
  | same (m : ServerMessage) : Alike m m
  | challenge (clientNonce nonce nonce' salt salt' iterations : Bytes) : Alike
        (.saslContinue
          (ascii "r=" ++ clientNonce ++ nonce ++ ascii ",s=" ++ salt ++ ascii ",i=" ++ iterations))
        (.saslContinue (ascii "r=" ++ clientNonce ++ nonce' ++ ascii ",s=" ++ salt' ++
          ascii ",i=" ++ iterations))

/-- A role is missing, or is there, or is there without its password. -/
def OneOf (record : Sql.RoleRecord) (found : Option Sql.RoleRecord) : Prop :=
  found = none ∨ found = some record ∨ found = some { record with verifier := none }

/-- Two catalogs differ only in whether the role exists, or has a password. -/
structure DifferIn (role : Bytes) (store store' : Sql.Store) : Prop where
  others : ∀ name, name ≠ role → getRole store name = getRole store' name
  here : ∃ record, OneOf record (getRole store role) ∧ OneOf record (getRole store' role)

/-- The client's first message selects SCRAM and is read, with the role as the one claimed. -/
def LooksUp (role : Bytes) (userParam : Option Bytes) (input : Bytes) : Prop :=
  ∃ initialResponse rest user clientNonce bare,
    readSaslInitialResponse input = some ((ascii "SCRAM-SHA-256", initialResponse), rest) ∧
      isUtf8 initialResponse = true ∧
      parseClientFirst initialResponse = .ok (user, clientNonce, bare) ∧
        claimedRole userParam user = role

/-- The role is the only one that the client logs in as. -/
def LoginAs (role : Bytes) (userParam : Option Bytes) (input : Bytes) : Prop :=
  ∀ other, LooksUp other userParam input → other = role

section Attempts

variable {C : Crypto} {E : Base64} {policy : AuthPolicy} {store store' : Sql.Store}
  {random random' : Bytes} {userParam : Option Bytes} {input role : Bytes}

def rejection : ServerMessage := rejectAuth (ascii "authentication failed")

/-- What a login is answered that never gets to the catalog does not depend on it. -/
theorem authenticate_of_not_looksUp (enabled : policy.enabled = true)
    (none_ : ∀ role, ¬ LooksUp role userParam input) :
    authenticate C E policy store random userParam input =
      authenticate C E policy store' random' userParam input := by
  unfold authenticate
  rw [if_neg (not_not_intro enabled), if_neg (not_not_intro enabled)]
  split
  · rfl
  · rename_i mechanism initialResponse rest read
    by_cases unknown : mechanism ∉ mechanisms
    · rw [if_pos unknown, if_pos unknown]
    have scram : mechanism = ascii "SCRAM-SHA-256" := by
      simpa [mechanisms] using unknown
    have first : ∀ store random,
        (authenticator C E store).step random (begin_ userParam) initialResponse =
        (authenticator C E store).firstRound random (begin_ userParam) initialResponse :=
      fun _ _ => if_pos rfl
    rw [first, first]
    unfold ScramAuthenticator.firstRound
    by_cases valid : isUtf8 initialResponse = true
    · rw [if_neg (not_not_intro valid), if_neg (not_not_intro valid)]
      cases parsed : parseClientFirst initialResponse with
      | error e => rfl
      | ok parts =>
        obtain ⟨user, clientNonce, bare⟩ := parts
        exact absurd
          ⟨initialResponse, rest, user, clientNonce, bare, scram ▸ read, valid, parsed, rfl⟩
          (none_ (claimedRole userParam user))
    · rw [if_pos valid, if_pos valid]

/-- A role without a password is rejected at once; otherwise a challenge comes first. -/
theorem authenticate_of_looksUp (enabled : policy.enabled = true)
    (looks : LooksUp role userParam input) :
    ∃ (clientNonce : Bytes) (state : Bytes → Verifier → AuthState) (rest : Bytes),
      ∀ (store : Sql.Store) (random : Bytes),
      authenticate C E policy store random userParam input = match verifierFor store role with
        | none => ⟨[.authSasl mechanisms, rejection], .rejected⟩
        | some v =>
          finishLogin C E store random (state random v)
            [.authSasl mechanisms, .saslContinue (challenge E random clientNonce v)] rest := by
  obtain ⟨initialResponse, rest, user, clientNonce, bare, read, valid, parsed, rfl⟩ := looks
  refine ⟨clientNonce, fun random v => ⟨savedContext (claimedRole userParam user) bare
    (challenge E random clientNonce v), userParam⟩, rest, ?_⟩
  intro store random
  have first : (authenticator C E store).step random (begin_ userParam) initialResponse =
      (authenticator C E store).firstRound random (begin_ userParam) initialResponse := if_pos rfl
  unfold authenticate
  rw [if_neg (not_not_intro enabled)]
  simp only [read, mechanisms, List.mem_singleton, not_true_eq_false, if_false, first]
  cases known : verifierFor store (claimedRole userParam user) with
  | some v =>
    have answer :
        (authenticator C E store).firstRound random (begin_ userParam) initialResponse = _ :=
      firstRound_continue_iff.mpr ⟨valid, user, clientNonce, bare, v, parsed, known, rfl, rfl⟩
    rw [answer]
    rfl
  | none =>
    have answer : (authenticator C E store).firstRound random (begin_ userParam) initialResponse =
        (begin_ userParam, .fail .unknownRole) := by
      unfold ScramAuthenticator.firstRound
      rw [if_neg (not_not_intro valid), parsed]
      simp only [begin_, authenticator, known]
    rw [answer]
    rfl

/-- What follows a challenge if the login fails. -/
theorem finishLogin_messages {state : AuthState} {sent : List ServerMessage}
    (failed : ∀ role, (finishLogin C E store random state sent input).outcome ≠ .session role) :
    (finishLogin C E store random state sent input).messages =
      sent ++ ((readSaslResponse input).map fun _ => rejection).toList := by
  unfold finishLogin at failed ⊢
  cases response : readSaslResponse input with
  | none => simp
  | some read =>
    rw [response] at failed
    simp only at failed ⊢
    cases answer : ((authenticator C E store).step random state read.1).2 with
    | success role final =>
      rw [answer] at failed
      exact absurd rfl (failed role)
    | fail e => rfl
    | continue_ reply => rfl

theorem OneOf.eq_of_verifier {record r r' : Sql.RoleRecord} (h : OneOf record (some r))
    (h' : OneOf record (some r')) (some_ : r.verifier.isSome = true)
    (some_' : r'.verifier.isSome = true) :
    r = r' := by
  have whole : ∀ r, OneOf record (some r) → r.verifier.isSome = true → r = record := by
    rintro r (h | h | h) some_
    · cases h
    · exact some.inj h
    · rw [some.inj h] at some_
      cases some_
  rw [whole r h some_, whole r' h' some_']

/-- A password that both catalogs have is the same. -/
theorem DifferIn.same_verifier (differ : DifferIn role store store') {v v' : Verifier}
    (known : verifierFor store role = some v) (known' : verifierFor store' role = some v') :
      v = v' := by
  obtain ⟨record, one, one'⟩ := differ.here
  obtain ⟨r, found, _⟩ := bind_eq_some_iff.mp known
  obtain ⟨r', found', _⟩ := bind_eq_some_iff.mp known'
  have stored := verifierFor_of_getRole found
  have stored' := verifierFor_of_getRole found'
  rw [known] at stored
  rw [known'] at stored'
  rw [found] at one
  rw [found'] at one'
  have same := one.eq_of_verifier one' (by rw [← stored]; rfl) (by rw [← stored']; rfl)
  rw [same, ← stored'] at stored
  exact Subtype.ext (some.inj stored)

theorem alike_challenge (clientNonce : Bytes) (v : Verifier) :
    Alike (.saslContinue (challenge E random clientNonce v))
      (.saslContinue (challenge E random' clientNonce v)) := by
  exact .challenge clientNonce _ _ _ _ _

/-- A challenge is not like an error. -/
theorem Alike.isChallenge_eq {m m' : ServerMessage} (h : Alike m m') :
    m.isChallenge = m'.isChallenge := by
  cases h with
  | same => rfl
  | challenge => rfl

theorem alike_self (ms : List ServerMessage) : List.Forall₂ Alike ms ms :=
  List.forall₂_same.mpr fun m _ => .same m

/-- A failed login shows nothing of the role if it does not get to the catalog, or if both
catalogs have a password for the role or neither; and otherwise it does. -/
theorem failed_logins_alike_iff (C : Crypto) (E : Base64) (policy : AuthPolicy) {role : Bytes}
    {store store' : Sql.Store} (differ : DifferIn role store store') (random random' : Bytes)
    {userParam : Option Bytes} {input : Bytes} (as_ : LoginAs role userParam input)
    (failed : ∀ r, (authenticate C E policy store random userParam input).outcome ≠ .session r)
    (failed' : ∀ r, (authenticate C E policy store' random' userParam input).outcome ≠ .session r) :
    List.Forall₂ Alike (authenticate C E policy store random userParam input).messages
        (authenticate C E policy store' random' userParam input).messages ↔
      (LooksUp role userParam input →
        (verifierFor store role).isSome = (verifierFor store' role).isSome) := by
  have enabled : policy.enabled = true := by
    by_contra disabled
    apply failed ⟨policy.trustedLocalUser, true⟩
    rw [authenticate, if_pos disabled]
  by_cases looks : LooksUp role userParam input
  · obtain ⟨clientNonce, state, rest, answer⟩ :=
      authenticate_of_looksUp (C := C) (E := E) enabled looks
    rw [answer] at failed failed' ⊢
    rw [answer]
    simp only [looks, true_imp_iff]
    cases known : verifierFor store role with
    | none =>
      cases known' : verifierFor store' role with
      | none => exact iff_of_true (alike_self _) rfl
      | some v' =>
        rw [known'] at failed'
        rw [finishLogin_messages failed']
        refine iff_of_false ?_ nofun
        intro alike
        cases alike with
        | cons _ later =>
          cases later with
          | cons error _ => cases error.isChallenge_eq
    | some v =>
      rw [known] at failed
      simp only [finishLogin_messages failed]
      cases known' : verifierFor store' role with
      | none =>
        refine iff_of_false ?_ nofun
        intro alike
        cases alike with
        | cons _ later =>
          cases later with
          | cons error _ => cases error.isChallenge_eq
      | some v' =>
        rw [known'] at failed'
        simp only [finishLogin_messages failed']
        rw [differ.same_verifier known known']
        exact iff_of_true
          (.cons (.same _) (.cons (alike_challenge clientNonce v') (alike_self _))) rfl
  · have never : ∀ other, ¬ LooksUp other userParam input := fun other there =>
      looks (as_ other there ▸ there)
    have same : authenticate C E policy store random userParam _ =
        authenticate C E policy store' random' userParam _ :=
      authenticate_of_not_looksUp enabled never
    rw [same]
    exact iff_of_true (alike_self _) fun there => absurd there looks

end Attempts

/-- A role table with one role, and one without any. -/
def bobOnly : Sql.Store :=
  (∅ : Sql.Store).insert (roleKey (ascii "bob"))
    (Sql.RoleRecord.toBytes ⟨ascii "bob", false, some aliceVerifier.val⟩)

def saslInitial (mechanism response : Bytes) : Bytes :=
  let body := mechanism ++ 0 :: ((toLe 4 response.length).reverse ++ response)
  112 :: ((toLe 4 (body.length + 4)).reverse ++ body)

def someHashes : Crypto := ⟨fun _ _ => .zeros, fun _ => .zeros, fun _ _ _ => .zeros⟩

def scramRequired : AuthPolicy := ⟨true, ascii "galaxdb"⟩

theorem differIn_bobOnly : DifferIn (ascii "bob") bobOnly ∅ := by
  constructor
  · intro name other
    have key : roleKey (ascii "bob") ≠ roleKey name := fun same =>
      other (List.append_cancel_left same).symm
    simp [getRole, bobOnly, key]
  · exact ⟨⟨ascii "bob", false, some aliceVerifier.val⟩, Or.inr (Or.inl (by decide +kernel)),
      Or.inl (by decide +kernel)⟩

/-- With a user in the startup message the client logs in as that user only. -/
theorem loginAs_user {user : Bytes} (some_ : user ≠ []) (input : Bytes) :
    LoginAs user (some user) input := by
  rintro other ⟨_, _, scramUser, _, _, _, _, _, rfl⟩
  exact if_neg some_

/-- A login with a mechanism that the server does not have. -/
def plainLogin : Bytes := saslInitial (ascii "PLAIN") (ascii "secret")

theorem alike_plainLogin : List.Forall₂ Alike
      (authenticate someHashes standardBase64 scramRequired bobOnly sampleRandom
        (some (ascii "bob"))
        plainLogin).messages
      (authenticate someHashes standardBase64 scramRequired ∅ sampleRandom (some (ascii "bob"))
        plainLogin).messages := by
  have rejected : ∀ store, (authenticate someHashes standardBase64 scramRequired store sampleRandom
      (some (ascii "bob")) plainLogin).outcome = .rejected := fun store => rfl
  apply (failed_logins_alike_iff someHashes standardBase64 scramRequired differIn_bobOnly
    sampleRandom
    sampleRandom (loginAs_user (by decide) plainLogin)
    (fun r => by rw [rejected]; nofun) (fun r => by nofun)).mpr
  rintro ⟨initialResponse, rest, _, _, _, read, _⟩
  have mechanism : (readSaslInitialResponse plainLogin).map (fun m => m.1.1) =
      some (ascii "PLAIN") := by
    decide +kernel
  rw [read] at mechanism
  have same : ascii "SCRAM-SHA-256" = ascii "PLAIN" := some.inj mechanism
  exact absurd same (by decide)

/-- The first message of any client. -/
def scramLogin : Bytes := saslInitial (ascii "SCRAM-SHA-256") (ascii "n,,n=,r=abc")

/-- A client that sends no more than its first message learns whether the role exists. -/
theorem failed_login_tells_role :
    DifferIn (ascii "bob") bobOnly ∅ ∧ LoginAs (ascii "bob") (some (ascii "bob")) scramLogin ∧
      (authenticate someHashes standardBase64 scramRequired bobOnly sampleRandom
        (some (ascii "bob"))
        scramLogin).outcome = .io ∧
      (authenticate someHashes standardBase64 scramRequired ∅ sampleRandom (some (ascii "bob"))
        scramLogin).outcome = .rejected ∧
      ¬ List.Forall₂ Alike
        (authenticate someHashes standardBase64 scramRequired bobOnly sampleRandom
          (some (ascii "bob"))
          scramLogin).messages
        (authenticate someHashes standardBase64 scramRequired ∅ sampleRandom (some (ascii "bob"))
          scramLogin).messages := by
  refine ⟨differIn_bobOnly, loginAs_user (by decide) _, by decide +kernel, by decide +kernel, ?_⟩
  intro alike
  have kinds :
      List.Forall₂ (fun m m' => ServerMessage.isChallenge m = ServerMessage.isChallenge m') _ _ :=
    alike.imp fun _ _ h => h.isChallenge_eq
  revert kinds
  decide +kernel

end GalaxDb.Auth
