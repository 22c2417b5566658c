import GalaxDb.Auth.ScramText
import GalaxDb.Lib.Base64
import Mathlib.Data.List.TakeWhile

/-!
# Who is let in

The authenticator lets in those who know the password, over the messages as they were sent,
as long as no line break is in the role name or in the first message, and the last message
has no attributes but its own three. It rebuilds both messages from what it read of them.
-/

namespace GalaxDb.Auth

open Bytes Base64Text List

section Exchange

variable (E : Base64) (lookup : Bytes → Option Verifier) (roleHint : Option Bytes)
  (random clientFirst clientFinal : Bytes)

def authMessage (clientFirstBare serverFirst withoutProof : Bytes) : Bytes :=
  clientFirstBare ++ 44 :: serverFirst ++ 44 :: withoutProof

/-- What is kept between the rounds. -/
def savedContext (username clientFirstBare serverFirst : Bytes) : Bytes :=
  username ++ 10 :: clientFirstBare ++ 10 :: serverFirst

/-- The challenge to a client that sent the nonce. -/
def challenge (clientNonce : Bytes) (v : Verifier) : Bytes :=
  serverFirstMessage E (clientNonce ++ generateNonce E random) v

/-- Both messages are read, and a proof is checked: with the verifier of a role, over a
message. -/
inductive ChecksProof : Bytes → Verifier → Bytes → Digest → Prop
  | intro {user clientNonce bare username bare' serverFirst' nonce withoutProof : Bytes}
      {v0 v : Verifier} {proof : Digest} (valid : isUtf8 clientFirst = true)
      (first : parseClientFirst clientFirst = .ok (user, clientNonce, bare))
      (known : lookup (claimedRole roleHint user) = some v0)
      (parts : splitn 3 (savedContext (claimedRole roleHint user) bare
        (challenge E random clientNonce v0)) = [username, bare', serverFirst'])
      (role : lookup username = some v) (valid' : isUtf8 clientFinal = true)
      (final : parseClientFinal E clientFinal = .ok (nonce, proof, withoutProof))
      (echoed : nonce = expectedNonce serverFirst') :
      ChecksProof username v (authMessage bare' serverFirst' withoutProof) proof

end Exchange

section Rounds

variable {E : Base64} {lookup : Bytes → Option Verifier} {superuser : Bytes → Bool} {C : Crypto}
  {roleHint : Option Bytes} {random clientFirst clientFinal : Bytes}

/-- The context has three lines at least, and the last takes the rest. -/
theorem splitn_savedContext (username bare serverFirst : Bytes) : ∃ username' bare' serverFirst',
      splitn 3 (savedContext username bare serverFirst) = [username', bare', serverFirst'] := by
  obtain ⟨line, rest, e, plain⟩ := exists_cut
    (show 10 ∈ savedContext username bare serverFirst by simp [savedContext])
  have more : 10 ∈ rest := by
    have count := congrArg (List.count 10) e
    have none_ : line.count 10 = 0 := count_eq_zero.mpr plain
    simp only [savedContext, count_append, count_cons_self, none_] at count
    apply count_pos_iff.mp
    omega
  obtain ⟨line', rest', e', plain'⟩ := exists_cut more
  refine ⟨line, line', rest', ?_⟩
  rw [e, splitn_cut 1 plain, e', splitn_cut 0 plain']
  rfl

theorem not_mem_splitn_head {n : Nat} {s line : Bytes} {rest : List Bytes}
    (h : splitn (n + 2) s = line :: rest) : 10 ∉ line := by
  by_cases there : 10 ∈ s
  · obtain ⟨first, later, rfl, plain⟩ := exists_cut there
    rw [splitn_cut n plain] at h
    cases h
    exact plain
  · have all : s.dropWhile (· ≠ 10) = [] := by
      refine dropWhile_eq_nil_iff.mpr fun b here => ?_
      exact decide_eq_true fun e => there (e ▸ here)
    rw [splitn, all] at h
    cases h
    exact there

theorem verifyAndServerFinal_eq_ok {v : Verifier} {auth serverFinal : Bytes} {proof : Digest} :
    verifyAndServerFinal C E v auth proof = .ok serverFinal ↔
      (C.sha256 (xor proof.val (C.hmacSha256 v.val.storedKey auth).val)).val = v.val.storedKey ∧
        serverFinal = ascii "v=" ++ E.encode (C.hmacSha256 v.val.serverKey auth).val := by
  simp only [verifyAndServerFinal]
  split_ifs with holds
  · simp [holds, eq_comm]
  · simp [holds]

variable {A : ScramAuthenticator} {role : Role} {final : Option Bytes}

variable {state : AuthState}

/-- A client is challenged if its message is read and the role has a verifier. -/
theorem firstRound_continue_iff {reply : Bytes} :
    A.firstRound random (begin_ roleHint) clientFirst = (state, .continue_ reply) ↔
      isUtf8 clientFirst = true ∧ ∃ user clientNonce bare v,
        parseClientFirst clientFirst = .ok (user, clientNonce, bare) ∧
          A.verifierLookup (claimedRole roleHint user) = some v ∧
          reply = challenge A.base64 random clientNonce v ∧
          state = ⟨savedContext (claimedRole roleHint user) bare reply, roleHint⟩ := by
  unfold ScramAuthenticator.firstRound
  cases isUtf8 clientFirst with
  | false => simp
  | true =>
    cases parseClientFirst clientFirst with
    | error e => simp
    | ok read =>
      obtain ⟨user, clientNonce, bare⟩ := read
      simp only [begin_, not_true_eq_false, if_false, Except.ok.injEq, Prod.mk.injEq, true_and]
      cases known : A.verifierLookup (claimedRole roleHint user) with
      | none =>
        constructor
        · intro h
          simp at h
        · rintro ⟨_, _, _, v, ⟨rfl, _⟩, known', _⟩
          rw [known] at known'
          cases known'
      | some v =>
        simp only [Prod.mk.injEq, AuthStep.continue_.injEq]
        constructor
        · rintro ⟨rfl, rfl⟩
          exact ⟨user, clientNonce, bare, v, ⟨rfl, rfl, rfl⟩, known, rfl, rfl⟩
        · rintro ⟨_, _, _, v', ⟨rfl, rfl, rfl⟩, known', rfl, rfl⟩
          rw [known] at known'
          cases known'
          exact ⟨rfl, rfl⟩

theorem firstRound_ne_success :
    (A.firstRound random state clientFirst).2 ≠ .success role final := by
  unfold ScramAuthenticator.firstRound
  split
  · nofun
  · split
    · nofun
    · simp only
      split <;> nofun

theorem secondRound_success_iff {saved username bare serverFirst : Bytes}
    (parts : splitn 3 saved = [username, bare, serverFirst]) :
    A.secondRound saved clientFinal = .success role final ↔
      ∃ v proof withoutProof serverFinal, A.verifierLookup username = some v ∧
        isUtf8 clientFinal = true ∧
        parseClientFinal A.base64 clientFinal =
          .ok (expectedNonce serverFirst, proof, withoutProof) ∧
        verifyAndServerFinal A.crypto A.base64 v (authMessage bare serverFirst withoutProof) proof =
          .ok serverFinal ∧
        role = ⟨username, A.superuserLookup username⟩ ∧ final = some serverFinal := by
  unfold ScramAuthenticator.secondRound
  simp only [parts, getElem?_cons_zero, getElem?_cons_succ, Option.getD_some]
  cases A.verifierLookup username with
  | none => simp
  | some v =>
    cases isUtf8 clientFinal with
    | false => simp
    | true =>
      cases parseClientFinal A.base64 clientFinal with
      | error e => simp
      | ok read =>
        obtain ⟨nonce, proof, withoutProof⟩ := read
        simp only [not_true_eq_false, if_false, Except.ok.injEq, Prod.mk.injEq, Option.some.injEq,
          true_and]
        by_cases echoed : nonce = expectedNonce serverFirst
        · rw [if_neg (not_not_intro echoed)]
          cases verified : verifyAndServerFinal A.crypto A.base64 v
              (authMessage bare serverFirst withoutProof) proof with
          | error e =>
            rw [authMessage] at verified
            simp only [verified]
            constructor
            · intro h
              cases h
            · rintro ⟨v', proof', withoutProof', serverFinal, rfl, ⟨_, rfl, rfl⟩, holds, _⟩
              rw [authMessage, verified] at holds
              cases holds
          | ok serverFinal =>
            have verified_ := verified
            rw [authMessage] at verified_
            simp only [verified_, AuthStep.success.injEq]
            constructor
            · rintro ⟨rfl, rfl⟩
              exact ⟨v, proof, withoutProof, serverFinal, rfl, ⟨echoed, rfl, rfl⟩, verified,
                rfl, rfl⟩
            · rintro ⟨v', proof', withoutProof', serverFinal', rfl, ⟨_, rfl, rfl⟩, holds, rfl, rfl⟩
              rw [verified] at holds
              cases holds
              exact ⟨rfl, rfl⟩
        · simp [echoed]

/-- An exchange succeeds exactly if a proof is checked and holds. -/
theorem exchange_success_iff :
    A.exchange roleHint random clientFirst clientFinal = .success role final ↔
      ∃ username v auth proof serverFinal,
        ChecksProof A.base64 A.verifierLookup roleHint random clientFirst clientFinal username
          v auth
            proof ∧
          verifyAndServerFinal A.crypto A.base64 v auth proof = .ok serverFinal ∧
          role = ⟨username, A.superuserLookup username⟩ ∧ final = some serverFinal := by
  have first : A.step random (begin_ roleHint) clientFirst =
      A.firstRound random (begin_ roleHint) clientFirst := if_pos rfl
  have second : ∀ username bare serverFirst,
      A.step random ⟨savedContext username bare serverFirst, roleHint⟩ clientFinal =
        (⟨savedContext username bare serverFirst, roleHint⟩,
          A.secondRound (savedContext username bare serverFirst) clientFinal) :=
    fun _ _ _ => if_neg (by simp [savedContext])
  rw [ScramAuthenticator.exchange, first]
  constructor
  · intro h
    cases answer : A.firstRound random (begin_ roleHint) clientFirst with
    | mk state reply =>
      rw [answer] at h
      cases reply with
      | continue_ reply =>
        obtain ⟨valid, user, clientNonce, bare, v0, read, known, rfl, rfl⟩ :=
          firstRound_continue_iff.mp answer
        obtain ⟨username, bare', serverFirst', parts⟩ := splitn_savedContext
          (claimedRole roleHint user) bare (challenge A.base64 random clientNonce v0)
        simp only [second] at h
        obtain ⟨v, proof, withoutProof, serverFinal, role_, valid', final_, holds, rfl, rfl⟩ :=
          (secondRound_success_iff parts).mp h
        exact ⟨username, v, _, proof, serverFinal,
          .intro valid read known parts role_ valid' final_ rfl, holds, rfl, rfl⟩
      | success role' final' =>
        exact absurd (congrArg Prod.snd answer) firstRound_ne_success
      | fail e => cases h
  · rintro ⟨username, v, auth, proof, serverFinal, checks, holds, rfl, rfl⟩
    obtain ⟨valid, read, known, parts, role_, valid', final_, rfl⟩ := checks
    have answer : A.firstRound random (begin_ roleHint) clientFirst = _ :=
      firstRound_continue_iff.mpr ⟨valid, _, _, _, _, read, known, rfl, rfl⟩
    rw [answer]
    simp only [second]
    exact (secondRound_success_iff parts).mpr
      ⟨v, proof, _, serverFinal, role_, valid', final_, holds, rfl, rfl⟩

end Rounds

section Verifying

variable (E : Base64) (lookup : Bytes → Option Verifier) (superuser : Bytes → Bool)
  (roleHint : Option Bytes) (random clientFirst clientFinal : Bytes)

/-- The client holds the key of the verifier, by its proof over a message. -/
def Verifies (C : Crypto) (v : Verifier) (auth : Bytes) (proof : Digest) : Prop :=
  (C.sha256 (xor proof.val (C.hmacSha256 v.val.storedKey auth).val)).val = v.val.storedKey

/-- What a client computes from its password. -/
def clientProof (C : Crypto) (password salt : Bytes) (iterations : Nat) (auth : Bytes) : Bytes :=
  let clientKey := C.clientKey password salt iterations
  xor clientKey.val (C.hmacSha256 (C.sha256 clientKey.val).val auth).val

/-- A client that may be let in as the role: it claimed the role, its nonce is the one of this
exchange, and its proof holds over the messages as they were sent. -/
structure Justified (C : Crypto) (role : Bytes) : Prop where
  proved : ∃ user clientNonce bare withoutProof proof64 proof rebuilt v,
    parseClientFirst clientFirst = .ok (user, clientNonce, bare) ∧
      role = claimedRole roleHint user ∧
      lookup role = some v ∧
      parseClientFinal E clientFinal = .ok (clientNonce ++ generateNonce E random, proof, rebuilt) ∧
      clientFinal = withoutProof ++ 44 :: (ascii "p=" ++ proof64) ∧ 44 ∉ proof64 ∧
      Verifies C v (authMessage bare (challenge E random clientNonce v) withoutProof) proof

/-- The messages are those of a client that keeps to the grammar, in an exchange for a role
with a verifier. -/
structure Conforms (k : ScramClient) (v : Verifier) (proof : Digest) : Prop where
  first : clientFirst = k.clientFirst
  known : lookup (claimedRole roleHint k.user) = some v
  final : clientFinal = k.clientFinal E (k.nonce ++ generateNonce E random) proof
  valid : isUtf8 clientFirst = true
  valid' : isUtf8 clientFinal = true

/-- The message that both sides have seen. -/
def seenMessage (k : ScramClient) (v : Verifier) : Bytes :=
  authMessage k.firstBare (challenge E random k.nonce v)
    (k.finalWithoutProof E (k.nonce ++ generateNonce E random))

/-- Whoever is let in has shown to know the password, and whoever knows it is let in; for any
hashes. -/
structure AcceptsHolders : Prop where
  sound : ∀ C role final,
    (⟨C, E, lookup, superuser⟩ : ScramAuthenticator).exchange roleHint random clientFirst
      clientFinal =
      .success role final → Justified E lookup roleHint random clientFirst clientFinal C role.id
  complete : ∀ C password k v proof,
    Conforms E lookup roleHint random clientFirst clientFinal k v proof →
      v = fromPasswordWith C password v.val.salt v.val.iterations →
      proof.val = clientProof C password v.val.salt v.val.iterations (seenMessage E random k v) →
      (⟨C, E, lookup, superuser⟩ : ScramAuthenticator).exchange roleHint random clientFirst
        clientFinal =
        .success ⟨claimedRole roleHint k.user, superuser (claimedRole roleHint k.user)⟩
          (some
            (ascii "v=" ++ E.encode (C.hmacSha256 v.val.serverKey (seenMessage E random k v)).val))

/-- The last message has its three attributes and no others. -/
def ThreeAttributes : Prop :=
  ∃ channel nonce proof : Bytes, 44 ∉ channel ∧ 44 ∉ nonce ∧ 44 ∉ proof ∧
    clientFinal = ascii "c=" ++ channel ++ ascii ",r=" ++ nonce ++ 44 :: (ascii "p=" ++ proof)

/-- No line break is in the role name or the first message, and the last message has no
extensions. -/
structure PlainExchange : Prop where
  first : ∀ user clientNonce bare, parseClientFirst clientFirst = .ok (user, clientNonce, bare) →
    10 ∉ claimedRole roleHint user ∧ 10 ∉ bare
  final : ThreeAttributes clientFinal

end Verifying

section Hashes

def Digest.zeros : Digest := ⟨List.replicate 32 0, length_replicate⟩

/-- Another digest. -/
def Digest.flip (d : Digest) : Digest := ⟨d.val.map (255 ^^^ ·), by rw [length_map, d.property]⟩

theorem flip_ne (d : Digest) : d.flip.val ≠ d.val := by
  obtain ⟨b, h⟩ := d
  cases b with
  | nil => cases h
  | cons a b =>
    intro same
    have head : 255 ^^^ a = a := (cons.inj same).1
    have twice : (255 ^^^ a) ^^^ a = a ^^^ a := congrArg (· ^^^ a) head
    rw [UInt8.xor_assoc, UInt8.xor_self, UInt8.xor_zero] at twice
    exact absurd twice (by decide)

theorem xor_flip_ne (d : Digest) : xor d.val d.flip.val ≠ Digest.zeros.val := by
  obtain ⟨b, h⟩ := d
  cases b with
  | nil => cases h
  | cons a b =>
    intro same
    have head : a ^^^ (255 ^^^ a) = 0 := (cons.inj same).1
    rw [UInt8.xor_comm 255 a, ← UInt8.xor_assoc, UInt8.xor_self, UInt8.zero_xor] at head
    exact absurd head (by decide)

theorem xor_self (d : Digest) : xor d.val d.val = Digest.zeros.val := by
  have bytes : ∀ b : Bytes, xor b b = List.replicate b.length 0 := by
    intro b
    induction b with
    | nil => rfl
    | cons a b ih =>
      rw [xor, zipWith_cons_cons, ← xor, ih, UInt8.xor_self]
      rfl
  rw [bytes, d.property]
  rfl

theorem zeros_xor (d : Digest) : xor Digest.zeros.val d.val = d.val := by
  have bytes : ∀ b : Bytes, xor (List.replicate b.length 0) b = b := by
    intro b
    induction b with
    | nil => rfl
    | cons a b ih =>
      rw [length_cons, replicate_succ, xor, zipWith_cons_cons, ← xor, ih, UInt8.zero_xor]
  have whole := bytes d.val
  rwa [d.property] at whole

theorem xor_xor_cancel {a b : Bytes} (size : a.length = b.length) : xor (xor a b) b = a := by
  induction a generalizing b with
  | nil => rfl
  | cons x a ih =>
    cases b with
    | nil => cases size
    | cons y b =>
      have rest := ih (Nat.succ.inj size)
      simp only [xor, zipWith_cons_cons] at rest ⊢
      rw [rest, UInt8.xor_assoc, UInt8.xor_self, UInt8.xor_zero]

/-- Hashes with which the proof holds over one message only. -/
def acceptingOnly (v : Verifier) (auth : Bytes) (proof : Digest) : Crypto where
  hmacSha256 _ msg :=
    if msg = auth then proof
    else if msg = ascii "Server Key" then ⟨v.val.serverKey, v.property.2⟩
    else if msg = ascii "Client Key" then .zeros
    else proof.flip
  sha256 b :=
    if b = Digest.zeros.val then ⟨v.val.storedKey, v.property.1⟩
    else Digest.flip ⟨v.val.storedKey, v.property.1⟩
  saltedPassword _ _ _ := .zeros

variable {v : Verifier} {proof : Digest} {auth : Bytes}

theorem verifies_acceptingOnly_iff {msg : Bytes} (comma : 44 ∈ msg) :
    Verifies (acceptingOnly v auth proof) v msg proof ↔ msg = auth := by
  have server : msg ≠ ascii "Server Key" := by
    rintro rfl
    exact absurd comma (by decide)
  have client : msg ≠ ascii "Client Key" := by
    rintro rfl
    exact absurd comma (by decide)
  constructor
  · intro holds
    by_contra other
    simp only [Verifies, acceptingOnly, if_neg other, if_neg server, if_neg client,
      if_neg (xor_flip_ne proof)] at holds
    exact flip_ne _ holds
  · rintro rfl
    simp only [Verifies, acceptingOnly, if_true, xor_self]

/-- The verifier is that of any password. -/
theorem fromPasswordWith_acceptingOnly (comma : 44 ∈ auth) (password : Bytes) :
    v = fromPasswordWith (acceptingOnly v auth proof) password v.val.salt v.val.iterations := by
  have server : ascii "Server Key" ≠ auth := by
    rintro rfl
    exact absurd comma (by decide)
  have client : ascii "Client Key" ≠ auth := by
    rintro rfl
    exact absurd comma (by decide)
  have other : ascii "Client Key" ≠ ascii "Server Key" := by decide
  simp only [fromPasswordWith, Crypto.clientKey, Crypto.serverKey, acceptingOnly, if_neg server,
    if_neg client, if_neg other, if_true]

theorem clientProof_acceptingOnly (comma : 44 ∈ auth) (password : Bytes) :
    proof.val =
      clientProof (acceptingOnly v auth proof) password v.val.salt v.val.iterations auth := by
  have client : ascii "Client Key" ≠ auth := by
    rintro rfl
    exact absurd comma (by decide)
  have other : ascii "Client Key" ≠ ascii "Server Key" := by decide
  simp only [clientProof, Crypto.clientKey, acceptingOnly, if_neg client, if_neg other, if_true,
    zeros_xor]

/-- Who knows the password has a proof that holds. -/
theorem verifies_clientProof {C : Crypto} {password salt : Bytes} {iterations : Nat}
    (h : proof.val = clientProof C password salt iterations auth) :
    Verifies C (fromPasswordWith C password salt iterations) auth proof := by
  simp only [Verifies, h, clientProof, fromPasswordWith]
  rw [xor_xor_cancel]
  rw [(C.clientKey password salt iterations).property, (C.hmacSha256 _ _).property]

end Hashes

theorem comma_mem_authMessage (bare serverFirst withoutProof : Bytes) :
    44 ∈ authMessage bare serverFirst withoutProof := by
  simp [authMessage]

/-- The message that is checked is the one that was sent only if there is no line break in the
first message. -/
theorem same_of_authMessage {bare serverFirst bare' serverFirst' withoutProof withoutProof' : Bytes}
    (parts : splitn 2 (bare ++ 10 :: serverFirst) = [bare', serverFirst'])
    (same : authMessage bare serverFirst withoutProof =
      authMessage bare' serverFirst' withoutProof') :
    10 ∉ bare ∧ withoutProof = withoutProof' := by
  by_cases there : 10 ∈ bare
  · obtain ⟨line, rest, rfl, plain⟩ := exists_cut there
    rw [append_assoc, cons_append, splitn_cut 0 plain] at parts
    cases parts
    simp only [authMessage, append_assoc, cons_append] at same
    have heads := append_cancel_left same
    cases heads
  · rw [splitn_cut 0 there] at parts
    cases parts
    simp only [authMessage, append_assoc] at same
    exact ⟨there, (cons.inj (append_cancel_left (append_cancel_left same))).2⟩

variable {E : Base64} {random : Bytes}

theorem not_mem_generateNonce : 44 ∉ generateNonce E random := by
  simp only [generateNonce, mem_map, not_exists, not_and]
  intro b _ same
  split_ifs at same with comma
  · exact absurd same (by decide)
  · exact comma same

theorem expectedNonce_challenge {clientNonce : Bytes} (v : Verifier) (plain : 44 ∉ clientNonce) :
    expectedNonce (challenge E random clientNonce v) = clientNonce ++ generateNonce E random := by
  have combined : 44 ∉ clientNonce ++ generateNonce E random := fun there =>
    (mem_append.mp there).elim plain not_mem_generateNonce
  have tail : ascii ",s=" = 44 :: ascii "s=" := rfl
  simp only [expectedNonce, challenge, serverFirstMessage, append_assoc, stripPrefix_append,
    Option.bind_some, fields, tail, cons_append]
  rw [← append_assoc clientNonce, splitOn_append_cons_self_of_not_mem combined]
  rfl

section Holders

variable {E : Base64} {lookup : Bytes → Option Verifier} {superuser : Bytes → Bool}
  {roleHint : Option Bytes} {random clientFirst clientFinal : Bytes}

variable {C : Crypto} {channel username : Bytes}

/-- The context of a role name without a line break is taken apart after the name. -/
theorem parts_of_plain {bare serverFirst username' bare' serverFirst' : Bytes}
    (plain : 10 ∉ username)
    (parts : splitn 3 (savedContext username bare serverFirst) = [username', bare', serverFirst']) :
    username' = username ∧ splitn 2 (bare ++ 10 :: serverFirst) = [bare', serverFirst'] := by
  rw [savedContext, append_assoc, cons_append, splitn_cut 1 plain] at parts
  exact ⟨(cons.inj parts).1.symm, (cons.inj parts).2⟩

variable {k : ScramClient} {proof : Digest} {v : Verifier} {nonce : Bytes}

/-- An exchange that gets to the check of a proof is plain, if it is sound. -/
theorem plain_of_checks
    (h : AcceptsHolders E lookup superuser roleHint random clientFirst clientFinal) {auth : Bytes}
    (checks : ChecksProof E lookup roleHint random clientFirst clientFinal username v auth proof) :
    PlainExchange roleHint clientFirst clientFinal := by
  have holds : Verifies (acceptingOnly v auth proof) v auth proof := by
    obtain ⟨_, _, _, _, _, _, _, _⟩ := checks
    exact (verifies_acceptingOnly_iff (comma_mem_authMessage _ _ _)).mpr rfl
  have accepted :=
    exchange_success_iff (A := ⟨acceptingOnly v auth proof, E, lookup, superuser⟩).mpr
    ⟨username, v, auth, proof, _, checks, verifyAndServerFinal_eq_ok.mpr ⟨holds, rfl⟩, rfl, rfl⟩
  obtain ⟨user, clientNonce, bare, withoutProof, proof64, proof', rebuilt, v', first', claimed,
    role',
    final', sent, plain64, verifies⟩ := (h.sound _ _ _ accepted).proved
  obtain ⟨valid, first, known, parts, role, valid', final, echoed⟩ := checks
  rw [first] at first'
  cases first'
  rw [final] at final'
  cases final'
  simp only at claimed role'
  rw [claimed] at parts role role'
  have name := not_mem_splitn_head parts
  have message := (verifies_acceptingOnly_iff (comma_mem_authMessage _ _ _)).mp
    (Option.some.inj (role'.symm.trans role) ▸ verifies)
  rw [Option.some.inj (known.symm.trans role)] at parts
  obtain ⟨noBreak, same⟩ := same_of_authMessage (parts_of_plain name parts).2 message
  obtain ⟨channel, plainChannel, plainNonce, rfl⟩ := parseClientFinal_ok final
  refine ⟨?_, channel, _, proof64, plainChannel, plainNonce, plain64, same ▸ sent⟩
  intro user' clientNonce' bare' read
  rw [first] at read
  cases read
  exact ⟨name, noBreak⟩

/-- An exchange with a client that keeps to the grammar gets to the check of a proof. -/
theorem checks_of_conforms
    (h : AcceptsHolders E lookup superuser roleHint random clientFirst clientFinal)
    (conforms : Conforms E lookup roleHint random clientFirst clientFinal k v proof) :
    ∃ username v auth proof,
      ChecksProof E lookup roleHint random clientFirst clientFinal username v auth proof := by
  have comma := comma_mem_authMessage k.firstBare (challenge E random k.nonce v)
    (k.finalWithoutProof E (k.nonce ++ generateNonce E random))
  have accepted :=
    h.complete (acceptingOnly v (seenMessage E random k v) proof) [] k v proof conforms
    (fromPasswordWith_acceptingOnly comma []) (clientProof_acceptingOnly comma [])
  obtain ⟨username, v', auth, proof', _, checks, _⟩ := exchange_success_iff.mp accepted
  exact ⟨username, v', auth, proof', checks⟩

theorem fields_three {proof : Bytes} (plainChannel : 44 ∉ channel) (plainNonce : 44 ∉ nonce)
    (plainProof : 44 ∉ proof) :
    fields (ascii "c=" ++ channel ++ ascii ",r=" ++ nonce ++ 44 :: (ascii "p=" ++ proof)) =
      [ascii "c=" ++ channel, ascii "r=" ++ nonce, ascii "p=" ++ proof] := by
  have tail : ascii ",r=" = 44 :: ascii "r=" := rfl
  have channel_ := not_mem_ascii_append "c=" (by decide) plainChannel
  have nonce_ := not_mem_ascii_append "r=" (by decide) plainNonce
  have proof_ := not_mem_ascii_append "p=" (by decide) plainProof
  rw [tail, append_assoc, append_assoc, cons_append, fields,
    splitOn_append_cons_self_of_not_mem channel_, ← append_assoc,
    splitOn_append_cons_self_of_not_mem nonce_, splitOn_eq_singleton proof_]

theorem parseClientFinal_three (inverts : ∀ b, E.decode (E.encode b) = .ok b)
    (noComma : ∀ b, 44 ∉ E.encode b) (plainChannel : 44 ∉ channel) (plainNonce : 44 ∉ nonce)
    (proof : Digest) :
    parseClientFinal E
        (ascii "c=" ++ channel ++ ascii ",r=" ++ nonce ++ 44 ::
          (ascii "p=" ++ E.encode proof.val)) =
      .ok (nonce, proof, ascii "c=" ++ channel ++ ascii ",r=" ++ nonce) := by
  rw [parseClientFinal, fields_three plainChannel plainNonce (noComma _)]
  simp only [foldl_cons, foldl_nil, readClientFinal_channel, readClientFinal_nonce,
    readClientFinal_proof, inverts]
  exact dif_pos proof.property

/-- A last message of three attributes is read as it is. -/
theorem parseClientFinal_of_three {withoutProof : Bytes} (three : ThreeAttributes clientFinal)
    (final : parseClientFinal E clientFinal = .ok (nonce, proof, withoutProof)) :
    ∃ proof64, clientFinal = withoutProof ++ 44 :: (ascii "p=" ++ proof64) ∧ 44 ∉ proof64 := by
  obtain ⟨channel, nonce', proof64, plainChannel, plainNonce, plainProof, rfl⟩ := three
  refine ⟨proof64, ?_, plainProof⟩
  unfold parseClientFinal at final
  rw [fields_three plainChannel plainNonce plainProof] at final
  simp only [foldl_cons, foldl_nil, readClientFinal_channel, readClientFinal_nonce,
    readClientFinal_proof] at final
  split at final
  · cases final
  · split_ifs at final
    cases final
    rfl

theorem sound_of_plain (plain : PlainExchange roleHint clientFirst clientFinal) {role : Role}
    {final : Option Bytes}
    (accepted :
      (⟨C, E, lookup, superuser⟩ : ScramAuthenticator).exchange roleHint random clientFirst
      clientFinal = .success role final) :
    Justified E lookup roleHint random clientFirst clientFinal C role.id := by
  obtain ⟨username, v, auth, proof, serverFinal, checks, holds, rfl, rfl⟩ :=
    exchange_success_iff.mp accepted
  obtain ⟨valid, first, known, parts, role, valid', final, rfl⟩ := checks
  obtain ⟨name, noBreak⟩ := plain.first _ _ _ first
  obtain ⟨rfl, rest⟩ := parts_of_plain name parts
  rw [splitn_cut 0 noBreak] at rest
  cases rest
  rw [expectedNonce_challenge _ (parseClientFirst_ok first)] at final
  cases Option.some.inj (known.symm.trans role)
  obtain ⟨proof64, sent, plain64⟩ := parseClientFinal_of_three plain.final final
  exact ⟨_, _, _, _, proof64, proof, _, _, first, rfl, known, final, sent, plain64,
    (verifyAndServerFinal_eq_ok.mp holds).1⟩

theorem finalExtensions_of_three (noComma : ∀ b, 44 ∉ E.encode b) {combinedNonce : Bytes}
    (plain : 44 ∉ combinedNonce) (three : ThreeAttributes (k.clientFinal E combinedNonce proof)) :
    k.finalExtensions = [] := by
  obtain ⟨channel, nonce, proof64, plainChannel, plainNonce, plainProof, e⟩ := three
  have count := congrArg (fun s => (fields s).length) e
  simp only [k.fields_clientFinal noComma plain, fields_three plainChannel plainNonce plainProof,
    length_append, length_cons, length_map, length_nil] at count
  exact length_eq_zero_iff.mp (by omega)

/-- A client that keeps to the grammar and knows the password is let in, over a plain exchange. -/
theorem complete_of_plain (inverts : ∀ b, E.decode (E.encode b) = .ok b)
    (noComma : ∀ b, 44 ∉ E.encode b) (plain : PlainExchange roleHint clientFirst clientFinal)
    {password : Bytes}
    (conforms : Conforms E lookup roleHint random clientFirst clientFinal k v proof)
    (stored : v = fromPasswordWith C password v.val.salt v.val.iterations) (shown : proof.val =
      clientProof C password v.val.salt v.val.iterations (seenMessage E random k v)) :
    (⟨C, E, lookup, superuser⟩ : ScramAuthenticator).exchange roleHint random clientFirst
      clientFinal =
      .success ⟨claimedRole roleHint k.user, superuser (claimedRole roleHint k.user)⟩
        (some (ascii "v=" ++
          E.encode (C.hmacSha256 v.val.serverKey (seenMessage E random k v)).val)) := by
  obtain ⟨rfl, known, rfl, valid, valid'⟩ := conforms
  have first := parseClientFirst_clientFirst k
  obtain ⟨name, noBreak⟩ := plain.first _ _ _ first
  have combined : 44 ∉ k.nonce ++ generateNonce E random := fun there =>
    (mem_append.mp there).elim k.nonce_plain not_mem_generateNonce
  have final := parseClientFinal_clientFinal inverts noComma k combined proof
  have noExtension := finalExtensions_of_three noComma combined plain.final
  have message : authMessage k.firstBare (challenge E random k.nonce v)
      (k.channelField E ++ ascii ",r=" ++ (k.nonce ++ generateNonce E random)) =
        seenMessage E random k v := by
    rw [seenMessage, ScramClient.finalWithoutProof, noExtension]
    simp [List.intercalate, authMessage, ascii]
  have parts : splitn 3
      (savedContext (claimedRole roleHint k.user) k.firstBare (challenge E random k.nonce v)) =
      [claimedRole roleHint k.user, k.firstBare, challenge E random k.nonce v] := by
    rw [savedContext, append_assoc, cons_append, splitn_cut 1 name, splitn_cut 0 noBreak]
    rfl
  have holds : Verifies C v (seenMessage E random k v) proof := by
    have := verifies_clientProof shown
    rwa [← stored] at this
  apply exchange_success_iff.mpr
  refine ⟨claimedRole roleHint k.user, v, seenMessage E random k v, proof, _, ?_,
    verifyAndServerFinal_eq_ok.mpr ⟨holds, rfl⟩, rfl, rfl⟩
  rw [← message]
  exact .intro valid first known parts known valid' final
    (expectedNonce_challenge v k.nonce_plain).symm

/-- Exactly the holders of the password are let in if every exchange that gets as far as the
check of a proof, or whose client keeps to the grammar, is plain. -/
theorem accepts_holders_iff_plain (E : Base64) (inverts : ∀ b, E.decode (E.encode b) = .ok b)
    (noComma : ∀ b, 44 ∉ E.encode b) (lookup : Bytes → Option Verifier) (superuser : Bytes → Bool)
    (roleHint : Option Bytes) (random clientFirst clientFinal : Bytes) :
    AcceptsHolders E lookup superuser roleHint random clientFirst clientFinal ↔
      ((∃ username v auth proof,
          ChecksProof E lookup roleHint random clientFirst clientFinal username v auth proof) ∨
        (∃ k v proof, Conforms E lookup roleHint random clientFirst clientFinal k v proof) →
          PlainExchange roleHint clientFirst clientFinal) := by
  constructor
  · rintro h (⟨username, v, auth, proof, checks⟩ | ⟨k, v, proof, conforms⟩)
    · exact plain_of_checks h checks
    · obtain ⟨username, v', auth, proof', checks⟩ := checks_of_conforms h conforms
      exact plain_of_checks h checks
  · intro h
    constructor
    · intro C role final accepted
      obtain ⟨username, v, auth, proof, _, checks, _⟩ := exchange_success_iff.mp accepted
      exact sound_of_plain (h (Or.inl ⟨username, v, auth, proof, checks⟩)) accepted
    · intro C password k v proof conforms stored shown
      exact complete_of_plain inverts noComma (h (Or.inr ⟨k, v, proof, conforms⟩)) conforms
        stored shown

end Holders

def standardBase64 : Base64 where
  encode := encode
  decode s :=
    match decode s with
    | some b => .ok b
    | none => .error (ascii "Invalid input")

theorem standardBase64_inverts (b : Bytes) :
    standardBase64.decode (standardBase64.encode b) = .ok b := by
  simp only [standardBase64, decode_encode]

def aliceVerifier : Verifier :=
  ⟨⟨List.replicate 16 5, 4096, List.replicate 32 1, List.replicate 32 2⟩, rfl, rfl⟩

def aliceOnly (role : Bytes) : Option Verifier :=
  if role = ascii "alice" then some aliceVerifier else none

def nobodySuper (_ : Bytes) : Bool := false

def sampleRandom : Bytes := List.replicate 18 7

/-- A client without extensions, whose user name has an equals sign in it. -/
def plainClient : ScramClient where
  binding := .unsupported
  authzid := none
  user := ascii "al=ice"
  nonce := ascii "clientNONCE123456"
  firstExtensions := []
  finalExtensions := []
  authzid_legal := nofun
  user_legal := by decide
  nonce_nonempty := by decide
  nonce_printable := by decide +kernel

def sampleCombined : Bytes := ascii "clientNONCE123456" ++ generateNonce standardBase64 sampleRandom

theorem conforms_plainClient :
    Conforms standardBase64 aliceOnly (some (ascii "alice")) sampleRandom plainClient.clientFirst
        (plainClient.clientFinal standardBase64 sampleCombined Digest.zeros) plainClient
          aliceVerifier
        Digest.zeros ∧
      AcceptsHolders standardBase64 aliceOnly nobodySuper (some (ascii "alice")) sampleRandom
        plainClient.clientFirst
          (plainClient.clientFinal standardBase64 sampleCombined Digest.zeros) := by
  refine ⟨⟨rfl, rfl, rfl, by decide +kernel, by decide +kernel⟩, ?_⟩
  apply (accepts_holders_iff_plain standardBase64 standardBase64_inverts not_mem_encode
    aliceOnly nobodySuper (some (ascii "alice")) sampleRandom plainClient.clientFirst
    (plainClient.clientFinal standardBase64 sampleCombined Digest.zeros)).mpr
  intro _
  refine ⟨?_, ascii "biws", sampleCombined, standardBase64.encode Digest.zeros.val, by decide,
    by decide +kernel, not_mem_encode _, by decide +kernel⟩
  intro user clientNonce bare read
  cases read
  exact ⟨by decide, by decide +kernel⟩

/-- The same client with an extension in its last message. -/
def extendingClient : ScramClient :=
  { plainClient with finalExtensions := [⟨120, ascii "y", rfl, by decide, by decide⟩] }

/-- A client with a line break in an extension of its first message, and its own nonce after
that. -/
def breakingClient : ScramClient :=
  { plainClient with
    firstExtensions := [⟨120, ascii "a\nr=mine", rfl, by decide, by decide⟩,
      ⟨121, ascii "b", rfl, by decide, by decide⟩] }

def echoOfMine : Bytes :=
  ascii "c=" ++ ascii "biws" ++ ascii ",r=" ++ ascii "mine" ++
    44 :: (ascii "p=" ++ standardBase64.encode Digest.zeros.val)

/-- A client with an extension is turned away, and one that chooses the nonce of both sides is let
in. -/
theorem scram_misses_holders :
    ¬ AcceptsHolders standardBase64 aliceOnly nobodySuper (some (ascii "alice")) sampleRandom
        extendingClient.clientFirst
        (extendingClient.clientFinal standardBase64 sampleCombined Digest.zeros) ∧
      ¬ AcceptsHolders standardBase64 aliceOnly nobodySuper (some (ascii "alice")) sampleRandom
        breakingClient.clientFirst echoOfMine := by
  constructor
  · intro h
    have conforms : Conforms standardBase64 aliceOnly (some (ascii "alice")) sampleRandom
        extendingClient.clientFirst
        (extendingClient.clientFinal standardBase64 sampleCombined Digest.zeros) extendingClient
        aliceVerifier Digest.zeros := ⟨rfl, rfl, rfl, by decide +kernel, by decide +kernel⟩
    obtain ⟨_, _, _, _, checks⟩ := checks_of_conforms h conforms
    have none_ := finalExtensions_of_three not_mem_encode (by decide +kernel)
      (plain_of_checks h checks).final
    cases none_
  · intro h
    have read := parseClientFirst_clientFirst breakingClient
    have final : parseClientFinal standardBase64 echoOfMine = _ :=
      parseClientFinal_three standardBase64_inverts not_mem_encode (by decide) (by decide) _
    have parts : splitn 3 (savedContext (ascii "alice") breakingClient.firstBare
        (challenge standardBase64 sampleRandom breakingClient.nonce aliceVerifier)) =
      [ascii "alice", ascii "n=al=3Dice,r=clientNONCE123456,x=a", ascii "r=mine,y=b\n" ++
        challenge standardBase64 sampleRandom breakingClient.nonce aliceVerifier] := by
          decide +kernel
    have checks : ChecksProof standardBase64 aliceOnly (some (ascii "alice")) sampleRandom
        breakingClient.clientFirst echoOfMine _ _ _ _ :=
      .intro (by decide +kernel) read rfl parts rfl (by decide +kernel) final (by decide +kernel)
    exact ((plain_of_checks h checks).first _ _ _ read).2 (by decide +kernel)

end GalaxDb.Auth
