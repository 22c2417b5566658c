import GalaxDb.Sql.CatalogStore

/-!
# The SCRAM authenticator

Two messages of the client, each answered by one step. What the second step needs of the
first is kept as three lines of text. Hashes and base64 are parameters, and so are the random
bytes of the nonce.
-/

namespace GalaxDb.Auth

open Bytes

def isContinuation (b : UInt8) : Bool := 0x80 ≤ b && b ≤ 0xBF

/-- `str::from_utf8` takes the bytes. -/
def isUtf8 : Bytes → Bool
  | [] => true
  | a :: rest =>
    if a < 0x80 then isUtf8 rest
    else
      match rest with
      | [] => false
      | b :: rest =>
        if 0xC2 ≤ a && a ≤ 0xDF then isContinuation b && isUtf8 rest
        else
          match rest with
          | [] => false
          | c :: rest =>
            if 0xE0 ≤ a && a ≤ 0xEF then
              (if a == 0xE0 then 0xA0 ≤ b else true) && (if a == 0xED then b ≤ 0x9F else true) &&
                isContinuation b && isContinuation c && isUtf8 rest
            else
              match rest with
              | [] => false
              | d :: rest =>
                (0xF0 ≤ a && a ≤ 0xF4) && (if a == 0xF0 then 0x90 ≤ b else true) &&
                  (if a == 0xF4 then b ≤ 0x8F else true) && isContinuation b && isContinuation c &&
                  isContinuation d && isUtf8 rest

def stripPrefix (pre s : Bytes) : Option Bytes :=
  if pre.isPrefixOf s then some (s.drop pre.length) else none

/-- `str::split(',')`. -/
def fields (s : Bytes) : List Bytes := s.splitOn 44

/-- `str::replace` of a pattern of three bytes. -/
def replace (x y z : UInt8) (by_ : Bytes) : Bytes → Bytes
  | a :: b :: c :: rest =>
    if a = x ∧ b = y ∧ c = z then by_ ++ replace x y z by_ rest
    else a :: replace x y z by_ (b :: c :: rest)
  | s => s

/-- `str::splitn` at newlines. -/
def splitn : Nat → Bytes → List Bytes
  | 0, _ => []
  | 1, s => [s]
  | n + 2, s =>
    match s.dropWhile (· ≠ 10) with
    | [] => [s]
    | _ :: rest => s.takeWhile (· ≠ 10) :: splitn (n + 1) rest

abbrev Digest := { b : Bytes // b.length = 32 }

structure Crypto where
  hmacSha256 : Bytes → Bytes → Digest
  sha256 : Bytes → Digest
  saltedPassword : Bytes → Bytes → Nat → Digest

/-- The error of decoding is a text. -/
structure Base64 where
  encode : Bytes → Bytes
  decode : Bytes → Except Bytes Bytes

/-- Both keys are digests. -/
abbrev Verifier :=
  { v : Sql.ScramVerifier // v.storedKey.length = 32 ∧ v.serverKey.length = 32 }

def xor (a b : Bytes) : Bytes := List.zipWith (· ^^^ ·) a b

def Crypto.clientKey (C : Crypto) (password salt : Bytes) (iterations : Nat) : Digest :=
  C.hmacSha256 (C.saltedPassword password salt iterations).val (ascii "Client Key")

def Crypto.serverKey (C : Crypto) (password salt : Bytes) (iterations : Nat) : Digest :=
  C.hmacSha256 (C.saltedPassword password salt iterations).val (ascii "Server Key")

def fromPasswordWith (C : Crypto) (password salt : Bytes) (iterations : Nat) : Verifier :=
  ⟨⟨salt, iterations, (C.sha256 (C.clientKey password salt iterations).val).val,
    (C.serverKey password salt iterations).val⟩,
    (C.sha256 _).property, (C.serverKey password salt iterations).property⟩

inductive ScramError where
  | malformed (detail : Bytes)
  | proofMismatch
  deriving DecidableEq

def ScramError.display : ScramError → Bytes
  | .malformed detail => ascii "malformed SCRAM message: " ++ detail
  | .proofMismatch => ascii "client proof verification failed"

/-- What follows the `n`-th comma. -/
def afterCommas : Nat → Bytes → Option Bytes
  | 0, s => some s
  | _ + 1, [] => none
  | n + 1, b :: rest => if b = 44 then afterCommas n rest else afterCommas (n + 1) rest

def scramUnescape (s : Bytes) : Bytes :=
  replace 61 51 68 (ascii "=") (replace 61 50 67 (ascii ",") s)

/-- User name and nonce, as the fields read so far give them. -/
def readClientFirst (read : Option Bytes × Option Bytes) (field : Bytes) :
    Option Bytes × Option Bytes :=
  match stripPrefix (ascii "n=") field with
  | some v => (some (scramUnescape v), read.2)
  | none =>
    match stripPrefix (ascii "r=") field with
    | some v => (read.1, some v)
    | none => read

/-- User name, nonce and the message without its GS2 header. -/
def parseClientFirst (msg : Bytes) : Except ScramError (Bytes × Bytes × Bytes) :=
  match afterCommas 2 msg with
  | none => .error (.malformed (ascii "missing GS2 header"))
  | some bare =>
    match (fields bare).foldl readClientFirst (none, none) with
    | (none, _) => .error (.malformed (ascii "missing n="))
    | (some _, none) => .error (.malformed (ascii "missing r="))
    | (some username, some nonce) =>
      if nonce = [] then .error (.malformed (ascii "empty client nonce"))
      else .ok (username, nonce, bare)

def generateNonce (E : Base64) (random : Bytes) : Bytes :=
  (E.encode random).map fun b => if b = 44 then 95 else b

def serverFirstMessage (E : Base64) (combinedNonce : Bytes) (v : Verifier) : Bytes :=
  ascii "r=" ++ combinedNonce ++ ascii ",s=" ++ E.encode v.val.salt ++ ascii ",i=" ++
    Sql.natDigits v.val.iterations

/-- Channel binding, nonce and proof, as the fields read so far give them. -/
def readClientFinal (read : Option Bytes × Option Bytes × Option Bytes) (field : Bytes) :
    Option Bytes × Option Bytes × Option Bytes :=
  match stripPrefix (ascii "c=") field with
  | some v => (some v, read.2.1, read.2.2)
  | none =>
    match stripPrefix (ascii "r=") field with
    | some v => (read.1, some v, read.2.2)
    | none =>
      match stripPrefix (ascii "p=") field with
      | some v => (read.1, read.2.1, some v)
      | none => read

/-- Nonce, proof and the message without the proof, which is put together again from the
fields. -/
def parseClientFinal (E : Base64) (msg : Bytes) : Except ScramError (Bytes × Digest × Bytes) :=
  match (fields msg).foldl readClientFinal (none, none, none) with
  | (none, _, _) => .error (.malformed (ascii "missing c="))
  | (some _, none, _) => .error (.malformed (ascii "missing r="))
  | (some _, some _, none) => .error (.malformed (ascii "missing p="))
  | (some channel, some nonce, some proof) =>
    match E.decode proof with
    | .error e => .error (.malformed (ascii "bad proof base64: " ++ e))
    | .ok proof =>
      if h : proof.length = 32 then
        .ok (nonce, ⟨proof, h⟩, ascii "c=" ++ channel ++ ascii ",r=" ++ nonce)
      else .error (.malformed (ascii "proof wrong length"))

def verifyAndServerFinal (C : Crypto) (E : Base64) (v : Verifier) (authMessage : Bytes)
    (clientProof : Digest) : Except ScramError Bytes :=
  let clientSignature := C.hmacSha256 v.val.storedKey authMessage
  let clientKey := xor clientProof.val clientSignature.val
  if (C.sha256 clientKey).val = v.val.storedKey then
    .ok (ascii "v=" ++ E.encode (C.hmacSha256 v.val.serverKey authMessage).val)
  else .error .proofMismatch

section Steps

structure Role where
  id : Bytes
  isSuperuser : Bool
  deriving DecidableEq

inductive AuthError where
  | unknownRole
  | invalidCredentials
  | malformed (detail : Bytes)
  deriving DecidableEq

inductive AuthStep where
  | continue_ (reply : Bytes)
  | success (role : Role) (finalMessage : Option Bytes)
  | fail (error : AuthError)
  deriving DecidableEq

structure AuthState where
  scratch : Bytes
  roleHint : Option Bytes
  deriving DecidableEq

structure ScramAuthenticator where
  crypto : Crypto
  base64 : Base64
  verifierLookup : Bytes → Option Verifier
  superuserLookup : Bytes → Bool

def begin_ (roleHint : Option Bytes) : AuthState := ⟨[], roleHint⟩

/-- The role of the startup message, or that of the client's first message. -/
def claimedRole (roleHint : Option Bytes) (scramUsername : Bytes) : Bytes :=
  match roleHint with
  | some h => if h = [] then scramUsername else h
  | none => scramUsername

def expectedNonce (serverFirst : Bytes) : Bytes :=
  ((stripPrefix (ascii "r=") serverFirst).bind fun s => (fields s).head?).getD []

variable (A : ScramAuthenticator)

def ScramAuthenticator.firstRound (random : Bytes) (state : AuthState) (clientMsg : Bytes) :
    AuthState × AuthStep :=
  if ¬ isUtf8 clientMsg then (state, .fail (.malformed (ascii "client-first not UTF-8")))
  else
    match parseClientFirst clientMsg with
    | .error e => (state, .fail (.malformed e.display))
    | .ok (scramUsername, clientNonce, clientFirstBare) =>
      let username := claimedRole state.roleHint scramUsername
      match A.verifierLookup username with
      | none => (state, .fail .unknownRole)
      | some v =>
        let combinedNonce := clientNonce ++ generateNonce A.base64 random
        let serverFirst := serverFirstMessage A.base64 combinedNonce v
        ({ state with scratch := username ++ 10 :: clientFirstBare ++ 10 :: serverFirst },
          .continue_ serverFirst)

def ScramAuthenticator.secondRound (saved clientMsg : Bytes) : AuthStep :=
  let parts := splitn 3 saved
  let username := parts[0]?.getD []
  let clientFirstBare := parts[1]?.getD []
  let serverFirst := parts[2]?.getD []
  match A.verifierLookup username with
  | none => .fail .unknownRole
  | some v =>
    if ¬ isUtf8 clientMsg then .fail (.malformed (ascii "client-final not UTF-8"))
    else
      match parseClientFinal A.base64 clientMsg with
      | .error e => .fail (.malformed e.display)
      | .ok (finalNonce, proof, clientFinalWithoutProof) =>
        if finalNonce ≠ expectedNonce serverFirst then .fail (.malformed (ascii "nonce mismatch"))
        else
          let authMessage :=
            clientFirstBare ++ 44 :: serverFirst ++ 44 :: clientFinalWithoutProof
          match verifyAndServerFinal A.crypto A.base64 v authMessage proof with
          | .ok serverFinal =>
            .success ⟨username, A.superuserLookup username⟩ (some serverFinal)
          | .error _ => .fail .invalidCredentials

/-- The round is told from the scratch. -/
def ScramAuthenticator.step (random : Bytes) (state : AuthState) (clientMsg : Bytes) :
    AuthState × AuthStep :=
  if state.scratch = [] then A.firstRound random state clientMsg
  else (state, A.secondRound state.scratch clientMsg)

/-- Both rounds; the second only after the first was answered with a challenge. -/
def ScramAuthenticator.exchange (roleHint : Option Bytes) (random clientFirst clientFinal : Bytes) :
    AuthStep :=
  let first := A.step random (begin_ roleHint) clientFirst
  match first.2 with
  | .continue_ _ => (A.step random first.1 clientFinal).2
  | answer => answer

end Steps

end GalaxDb.Auth
