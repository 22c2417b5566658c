import GalaxDb.Auth.Scram

/-!
# The messages of a client

The grammar of both messages of a client, with the characters that each field may have, and
what the authenticator reads of them.
-/

namespace GalaxDb.Auth

open Bytes List

theorem stripPrefix_append (pre v : Bytes) : stripPrefix pre (pre ++ v) = some v := by
  simp [stripPrefix]

theorem eq_append_of_stripPrefix {pre s v : Bytes} (h : stripPrefix pre s = some v) :
    s = pre ++ v := by
  unfold stripPrefix at h
  by_cases is : pre.isPrefixOf s = true
  · obtain ⟨rest, rfl⟩ := isPrefixOf_iff_prefix.mp is
    simpa using h
  · rw [if_neg is] at h
    cases h

theorem stripPrefix_letter {x y : UInt8} (v : Bytes) (other : y ≠ x) :
    stripPrefix [x, 61] (y :: v) = none := by
  simp [stripPrefix, List.isPrefixOf, other.symm]

/-- No field has a comma in it. -/
theorem not_mem_of_mem_fields {s f : Bytes} (h : f ∈ fields s) : 44 ∉ f := by
  induction s generalizing f with
  | nil =>
    simp only [fields, splitOn_nil, mem_singleton] at h
    simp [h]
  | cons b s ih =>
    rw [fields, splitOn_cons_eq_if_modifyHead] at h
    cases e : s.splitOn 44 with
    | nil => exact absurd e (splitOn_ne_nil 44 s)
    | cons first rest =>
      have later : ∀ f ∈ first :: rest, 44 ∉ f := fun f there => ih (by rw [fields, e]; exact there)
      rw [e] at h
      by_cases comma : b = 44
      · rw [if_pos (by simp [comma])] at h
        rcases mem_cons.mp h with rfl | h
        · exact not_mem_nil
        · exact later f h
      · rw [if_neg (by simp [comma])] at h
        rcases mem_cons.mp h with rfl | h
        · exact fun there => (mem_cons.mp there).elim (fun e => comma e.symm)
            (later first (mem_cons_self ..))
        · exact later f (mem_cons_of_mem _ h)

theorem fields_intercalate {parts : List Bytes} (apart : ∀ part ∈ parts, 44 ∉ part)
    (some_ : parts ≠ []) : fields ([44].intercalate parts) = parts :=
  splitOn_intercalate 44 apart some_

theorem afterCommas_append {a rest : Bytes} (n : Nat) (plain : 44 ∉ a) :
    afterCommas (n + 1) (a ++ 44 :: rest) = afterCommas n rest := by
  induction a with
  | nil => simp [afterCommas]
  | cons b a ih =>
    have other : b ≠ 44 := fun e => plain (by simp [e])
    simp only [cons_append, afterCommas, if_neg other]
    exact ih fun there => plain (mem_cons_of_mem _ there)

theorem splitn_cut {line rest : Bytes} (n : Nat) (plain : 10 ∉ line) :
    splitn (n + 2) (line ++ 10 :: rest) = line :: splitn (n + 1) rest := by
  have all : ∀ b ∈ line, (decide (b ≠ 10)) = true := fun b there =>
    decide_eq_true fun e => plain (e ▸ there)
  rw [splitn, dropWhile_append_of_pos all, takeWhile_append_of_pos all]
  simp

/-- A text with a newline in it, up to the first. -/
theorem exists_cut {s : Bytes} (h : 10 ∈ s) : ∃ line rest, s = line ++ 10 :: rest ∧ 10 ∉ line := by
  obtain ⟨line, rest, e, plain⟩ := eq_append_cons_of_mem h
  exact ⟨line, rest, e, plain⟩

/-- A comma and an equals sign are escaped in a user name. -/
def scramEscape (name : Bytes) : Bytes :=
  name.flatMap fun b => if b = 44 then ascii "=2C" else if b = 61 then ascii "=3D" else [b]

theorem replace_cons_of_ne {x y z b : UInt8} {by_ : Bytes} (s : Bytes) (other : b ≠ x) :
    replace x y z by_ (b :: s) = b :: replace x y z by_ s := by
  rcases s with _ | ⟨c, _ | ⟨d, s⟩⟩
  · rfl
  · rfl
  · rw [replace, if_neg fun h => other h.1]

/-- The user name, with its equals signs still escaped. -/
theorem replace_comma_escape (name : Bytes) : replace 61 50 67 (ascii ",") (scramEscape name) =
      name.flatMap fun b => if b = 61 then ascii "=3D" else [b] := by
  induction name with
  | nil => rfl
  | cons b name ih =>
    simp only [scramEscape, flatMap_cons] at ih ⊢
    by_cases comma : b = 44
    · subst comma
      simp only [if_true]
      rw [if_neg (by decide), ← ih]
      exact if_pos ⟨rfl, rfl, rfl⟩
    by_cases equals : b = 61
    · subst equals
      rw [if_neg comma, if_pos rfl, ← ih]
      refine (if_neg (by decide)).trans ?_
      rw [replace_cons_of_ne _ (by decide), replace_cons_of_ne _ (by decide)]
      rfl
    · rw [if_neg comma, if_neg equals, singleton_append, singleton_append,
        replace_cons_of_ne _ equals, ih]

theorem scramUnescape_escape (name : Bytes) : scramUnescape (scramEscape name) = name := by
  rw [scramUnescape, replace_comma_escape]
  induction name with
  | nil => rfl
  | cons b name ih =>
    rw [flatMap_cons]
    by_cases equals : b = 61
    · subst equals
      conv_rhs => rw [← ih]
      exact if_pos ⟨rfl, rfl, rfl⟩
    · rw [if_neg equals, singleton_append, replace_cons_of_ne _ equals, ih]

theorem not_mem_escape (name : Bytes) : 44 ∉ scramEscape name := by
  simp only [scramEscape, mem_flatMap, not_exists, not_and]
  intro b _
  split_ifs with comma equals
  · decide
  · decide
  · simpa using fun e => comma e.symm

/-- A letter that the mechanism itself has no attribute for. -/
def isFreeLetter (b : UInt8) : Bool :=
  ((65 ≤ b && b ≤ 90) || (97 ≤ b && b ≤ 122)) && !(ascii "anmrcsipve").contains b

/-- An extension attribute. Its value may have any character but a comma and a zero in it. -/
structure Extension where
  name : UInt8
  value : Bytes
  letter : isFreeLetter name = true
  nonempty : value ≠ []
  plain : 44 ∉ value ∧ 0 ∉ value

open Extension

def Extension.text (e : Extension) : Bytes := e.name :: 61 :: e.value

def isCbNameChar (b : UInt8) : Bool :=
  (65 ≤ b && b ≤ 90) || (97 ≤ b && b ≤ 122) || (48 ≤ b && b ≤ 57) || b == 46 || b == 45

inductive ChannelBinding where
  | unsupported
  | unused
  | required (name data : Bytes) (nonempty : name ≠ []) (legal : name.all isCbNameChar = true)

def ChannelBinding.flag : ChannelBinding → Bytes
  | .unsupported => ascii "n"
  | .unused => ascii "y"
  | .required name _ _ _ => ascii "p=" ++ name

def ChannelBinding.data : ChannelBinding → Bytes
  | .required _ data _ _ => data
  | _ => []

/-- What a client that keeps to the grammar puts into its messages. The user name may be
empty, as clients leave it to the startup message. -/
structure ScramClient where
  binding : ChannelBinding
  authzid : Option Bytes
  user : Bytes
  nonce : Bytes
  firstExtensions : List Extension
  finalExtensions : List Extension
  authzid_legal : ∀ a ∈ authzid, a ≠ [] ∧ 0 ∉ a
  user_legal : 0 ∉ user
  nonce_nonempty : nonce ≠ []
  nonce_printable : ∀ b ∈ nonce, 0x21 ≤ b ∧ b ≤ 0x7E ∧ b ≠ 44

namespace ScramClient

variable (k : ScramClient)

def authzidField : Bytes :=
  match k.authzid with
  | none => []
  | some a => ascii "a=" ++ scramEscape a

def gs2Header : Bytes := k.binding.flag ++ 44 :: (k.authzidField ++ [44])

def firstBare : Bytes :=
  [44].intercalate ((ascii "n=" ++ scramEscape k.user) :: (ascii "r=" ++ k.nonce) ::
    k.firstExtensions.map text)

def clientFirst : Bytes := k.gs2Header ++ k.firstBare

def channelField (E : Base64) : Bytes := ascii "c=" ++ E.encode (k.gs2Header ++ k.binding.data)

def finalWithoutProof (E : Base64) (combinedNonce : Bytes) : Bytes :=
  [44].intercalate (k.channelField E :: (ascii "r=" ++ combinedNonce) :: k.finalExtensions.map text)

def clientFinal (E : Base64) (combinedNonce : Bytes) (proof : Digest) : Bytes :=
  k.finalWithoutProof E combinedNonce ++ 44 :: (ascii "p=" ++ E.encode proof.val)

end ScramClient

section Parsing

theorem not_mem_ascii_append {s : Bytes} (name : String) (plain : 44 ∉ ascii name) (h : 44 ∉ s) :
    44 ∉ ascii name ++ s := fun there =>
  (mem_append.mp there).elim plain h

theorem Extension.not_mem_text (e : Extension) : 44 ∉ e.text := by
  have letter : e.name ≠ 44 := fun h => by
    have := e.letter
    rw [h] at this
    cases this
  simp only [text, mem_cons, not_or]
  exact ⟨letter.symm, by decide, e.plain.1⟩

theorem Extension.stripPrefix_text (e : Extension) {x : UInt8} (used : isFreeLetter x = false) :
    stripPrefix [x, 61] e.text = none :=
  stripPrefix_letter _ fun same => by
    have := e.letter
    rw [same, used] at this
    cases this

theorem readClientFirst_user (read : Option Bytes × Option Bytes) (v : Bytes) :
    readClientFirst read (ascii "n=" ++ v) = (some (scramUnescape v), read.2) := by
  simp only [readClientFirst, stripPrefix_append]

theorem readClientFirst_nonce (read : Option Bytes × Option Bytes) (v : Bytes) :
    readClientFirst read (ascii "r=" ++ v) = (read.1, some v) := by
  have other : stripPrefix (ascii "n=") (ascii "r=" ++ v) = none := stripPrefix_letter _ (by decide)
  simp only [readClientFirst, other, stripPrefix_append]

theorem readClientFinal_channel (read : Option Bytes × Option Bytes × Option Bytes) (v : Bytes) :
    readClientFinal read (ascii "c=" ++ v) = (some v, read.2.1, read.2.2) := by
  simp only [readClientFinal, stripPrefix_append]

theorem readClientFinal_nonce (read : Option Bytes × Option Bytes × Option Bytes) (v : Bytes) :
    readClientFinal read (ascii "r=" ++ v) = (read.1, some v, read.2.2) := by
  have other : stripPrefix (ascii "c=") (ascii "r=" ++ v) = none := stripPrefix_letter _ (by decide)
  simp only [readClientFinal, other, stripPrefix_append]

theorem readClientFinal_proof (read : Option Bytes × Option Bytes × Option Bytes) (v : Bytes) :
    readClientFinal read (ascii "p=" ++ v) = (read.1, read.2.1, some v) := by
  have other : stripPrefix (ascii "c=") (ascii "p=" ++ v) = none := stripPrefix_letter _ (by decide)
  have other' : stripPrefix (ascii "r=") (ascii "p=" ++ v) = none :=
    stripPrefix_letter _ (by decide)
  simp only [readClientFinal, other, other', stripPrefix_append]

theorem foldl_readClientFirst_extensions (read : Option Bytes × Option Bytes) (es :
    List Extension) :
    (es.map text).foldl readClientFirst read = read := by
  induction es with
  | nil => rfl
  | cons e es ih =>
    have skipped : readClientFirst read e.text = read := by
      rw [readClientFirst, show ascii "n=" = [110, 61] from rfl,
        show ascii "r=" = [114, 61] from rfl,
        e.stripPrefix_text rfl, e.stripPrefix_text rfl]
    rw [map_cons, foldl_cons, skipped, ih]

theorem foldl_readClientFinal_extensions (read : Option Bytes × Option Bytes × Option Bytes)
    (es : List Extension) : (es.map text).foldl readClientFinal read = read := by
  induction es with
  | nil => rfl
  | cons e es ih =>
    have skipped : readClientFinal read e.text = read := by
      rw [readClientFinal, show ascii "c=" = [99, 61] from rfl,
        show ascii "r=" = [114, 61] from rfl,
        show ascii "p=" = [112, 61] from rfl, e.stripPrefix_text rfl, e.stripPrefix_text rfl,
        e.stripPrefix_text rfl]
    rw [map_cons, foldl_cons, skipped, ih]

theorem ChannelBinding.not_mem_flag (b : ChannelBinding) : 44 ∉ b.flag := by
  cases b with
  | unsupported => decide
  | unused => decide
  | required name data nonempty legal =>
    apply not_mem_ascii_append _ (by decide)
    intro there
    have := all_eq_true.mp legal 44 there
    cases this

theorem ScramClient.not_mem_authzidField (k : ScramClient) : 44 ∉ k.authzidField := by
  unfold authzidField
  cases k.authzid with
  | none => exact not_mem_nil
  | some a => exact not_mem_ascii_append _ (by decide) (not_mem_escape a)

theorem ScramClient.afterCommas_clientFirst (k : ScramClient) :
    afterCommas 2 k.clientFirst = some k.firstBare := by
  rw [clientFirst, gs2Header, append_assoc, cons_append, append_assoc,
    afterCommas_append 1 k.binding.not_mem_flag, singleton_append,
    afterCommas_append 0 k.not_mem_authzidField]
  rfl

theorem ScramClient.nonce_plain (k : ScramClient) : 44 ∉ k.nonce := fun there =>
  (k.nonce_printable 44 there).2.2 rfl

theorem ScramClient.fields_firstBare (k : ScramClient) :
    fields k.firstBare = (ascii "n=" ++ scramEscape k.user) :: (ascii "r=" ++ k.nonce) ::
      k.firstExtensions.map text := by
  apply fields_intercalate _ (cons_ne_nil _ _)
  intro part there
  rcases mem_cons.mp there with rfl | there
  · exact not_mem_ascii_append _ (by decide) (not_mem_escape _)
  rcases mem_cons.mp there with rfl | there
  · exact not_mem_ascii_append _ (by decide) k.nonce_plain
  · obtain ⟨e, _, rfl⟩ := mem_map.mp there
    exact e.not_mem_text

/-- The first message of a client is read as the client means it. -/
theorem parseClientFirst_clientFirst (k : ScramClient) :
    parseClientFirst k.clientFirst = .ok (k.user, k.nonce, k.firstBare) := by
  rw [parseClientFirst, k.afterCommas_clientFirst]
  simp only [k.fields_firstBare, foldl_cons, readClientFirst_user, readClientFirst_nonce,
    foldl_readClientFirst_extensions, scramUnescape_escape]
  exact if_neg k.nonce_nonempty

variable {E : Base64} (inverts : ∀ b, E.decode (E.encode b) = .ok b)
  (noComma : ∀ b, 44 ∉ E.encode b)

include noComma in
theorem ScramClient.fields_clientFinal (k : ScramClient) {combinedNonce : Bytes}
    (plain : 44 ∉ combinedNonce) (proof : Digest) :
    fields (k.clientFinal E combinedNonce proof) =
      (k.channelField E :: (ascii "r=" ++ combinedNonce) :: k.finalExtensions.map text) ++
        [ascii "p=" ++ E.encode proof.val] := by
  have front : fields (k.finalWithoutProof E combinedNonce) =
      k.channelField E :: (ascii "r=" ++ combinedNonce) :: k.finalExtensions.map text := by
    apply fields_intercalate _ (cons_ne_nil _ _)
    intro part there
    rcases mem_cons.mp there with rfl | there
    · exact not_mem_ascii_append _ (by decide) (noComma _)
    rcases mem_cons.mp there with rfl | there
    · exact not_mem_ascii_append _ (by decide) plain
    · obtain ⟨e, _, rfl⟩ := mem_map.mp there
      exact e.not_mem_text
  rw [clientFinal, fields, splitOn_append_cons_self]
  congr 1
  exact splitOn_eq_singleton (not_mem_ascii_append _ (by decide) (noComma _))

include inverts noComma in
/-- Extensions of the last message are not read. -/
theorem parseClientFinal_clientFinal (k : ScramClient) {combinedNonce : Bytes}
    (plain : 44 ∉ combinedNonce) (proof : Digest) :
    parseClientFinal E (k.clientFinal E combinedNonce proof) =
      .ok (combinedNonce, proof, k.channelField E ++ ascii ",r=" ++ combinedNonce) := by
  rw [parseClientFinal, k.fields_clientFinal noComma plain, ScramClient.channelField]
  simp only [foldl_append, foldl_cons, foldl_nil, readClientFinal_channel,
    readClientFinal_nonce, readClientFinal_proof, foldl_readClientFinal_extensions, inverts]
  exact dif_pos proof.property

end Parsing

theorem not_mem_of_stripPrefix {pre f v : Bytes} (plain : 44 ∉ f) (h : stripPrefix pre f = some v) :
    44 ∉ v := fun there =>
  plain (eq_append_of_stripPrefix h ▸ mem_append_right pre there)

theorem foldl_readClientFirst_plain {fs : List Bytes} (apart : ∀ f ∈ fs, 44 ∉ f)
    {read : Option Bytes × Option Bytes} (plain : ∀ n ∈ read.2, 44 ∉ n) :
    ∀ n ∈ (fs.foldl readClientFirst read).2, 44 ∉ n := by
  induction fs generalizing read with
  | nil => exact plain
  | cons f fs ih =>
    apply ih fun f there => apart f (mem_cons_of_mem _ there)
    unfold readClientFirst
    split
    · exact plain
    · split
      · rename_i v nonce
        intro n here
        cases here
        exact not_mem_of_stripPrefix (apart f (mem_cons_self ..)) nonce
      · exact plain

theorem parseClientFirst_ok {msg username nonce bare : Bytes}
    (h : parseClientFirst msg = .ok (username, nonce, bare)) : 44 ∉ nonce := by
  unfold parseClientFirst at h
  split at h
  · cases h
  · split at h
    · cases h
    · cases h
    · rename_i n read
      split_ifs at h
      cases h
      have plain : ∀ n ∈ ((fields bare).foldl readClientFirst (none, none)).2, 44 ∉ n :=
        foldl_readClientFirst_plain (fun f there => not_mem_of_mem_fields there) nofun
      rw [read] at plain
      exact plain nonce rfl

theorem foldl_readClientFinal_plain {fs : List Bytes} (apart : ∀ f ∈ fs, 44 ∉ f)
    {read : Option Bytes × Option Bytes × Option Bytes}
    (plain : (∀ c ∈ read.1, 44 ∉ c) ∧ ∀ n ∈ read.2.1, 44 ∉ n) :
    (∀ c ∈ (fs.foldl readClientFinal read).1, 44 ∉ c) ∧
      ∀ n ∈ (fs.foldl readClientFinal read).2.1, 44 ∉ n := by
  induction fs generalizing read with
  | nil => exact plain
  | cons f fs ih =>
    apply ih fun f there => apart f (mem_cons_of_mem _ there)
    have here := apart f (mem_cons_self ..)
    unfold readClientFinal
    split
    · rename_i v channel
      refine ⟨fun c is => ?_, plain.2⟩
      cases is
      exact not_mem_of_stripPrefix here channel
    · split
      · rename_i v nonce
        refine ⟨plain.1, fun n is => ?_⟩
        cases is
        exact not_mem_of_stripPrefix here nonce
      · split
        · exact plain
        · exact plain

theorem parseClientFinal_ok {E : Base64} {msg nonce withoutProof : Bytes} {proof : Digest}
    (h : parseClientFinal E msg = .ok (nonce, proof, withoutProof)) :
    ∃ channel, 44 ∉ channel ∧ 44 ∉ nonce ∧
      withoutProof = ascii "c=" ++ channel ++ ascii ",r=" ++ nonce := by
  have plain : (∀ c ∈ ((fields msg).foldl readClientFinal (none, none, none)).1, 44 ∉ c) ∧
      ∀ n ∈ ((fields msg).foldl readClientFinal (none, none, none)).2.1, 44 ∉ n :=
    foldl_readClientFinal_plain (fun f there => not_mem_of_mem_fields there) ⟨nofun, nofun⟩
  unfold parseClientFinal at h
  split at h
  · cases h
  · cases h
  · cases h
  · rename_i channel n p read
    split at h
    · cases h
    · split_ifs at h
      cases h
      rw [read] at plain
      exact ⟨channel, plain.1 _ rfl, plain.2 _ rfl, rfl⟩

end GalaxDb.Auth
