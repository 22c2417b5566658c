import GalaxDb.Lib.Bits
import GalaxDb.Lib.Utf8
import GalaxDb.Sql.DropTable

/-!
# What the stored records can hold

Table definitions are lines of text, grants are names between zero bytes, roles and index
definitions have lengths of 16 bits. No name is checked when it comes in. Each format gives
back exactly the records that keep to it, and the entries of two indexes stay apart unless
one name continues the other like an entry.
-/

namespace GalaxDb.Sql

open Bytes SecondaryIndex CatalogStore AuthStore List Option
open Utf8 (not_mem_of_mem_splitOn)

variable {v : ScramVerifier} {bytes name pk pk' role s table : Bytes} {r : RoleRecord}
  {p p' : Action} {n : Nat} {a b v' : Value}

theorem parseU64_lt (read : parseU64 s = some n) : n < 2 ^ 64 := by
  unfold parseU64 at read
  simp only at read
  split_ifs at read with digits small
  cases read
  exact small

theorem decodeColumns_spec {lines : List Bytes} {columns : List StoredColumn}
    (read : decodeColumns n lines = some columns) :
    columns.length = n ∧ ∀ c ∈ columns, c.name ∈ lines ∧ c.dataType ∈ lines := by
  induction n generalizing lines columns with
  | zero =>
    obtain rfl : [] = columns := by simpa [decodeColumns] using read
    simp
  | succ n ih =>
    rcases lines with
      _ | ⟨name, _ | ⟨dataType, _ | ⟨nullable, _ | ⟨primaryKey, _ | ⟨isSource, rest⟩⟩⟩⟩⟩
    case cons.cons.cons.cons.cons =>
      simp only [decodeColumns, bind_eq_bind, bind_eq_some_iff] at read
      obtain ⟨nullable', -, primaryKey', -, isSource', -, later, tail, same⟩ := read
      obtain rfl := some.inj same
      obtain ⟨count, inside⟩ := ih tail
      refine ⟨by simp [count], ?_⟩
      intro c listed
      rcases mem_cons.mp listed with rfl | listed
      · simp
      · obtain ⟨named, typed⟩ := inside c listed
        simp [named, typed]
    all_goals simp [decodeColumns] at read

/-- Whatever the bytes are, a definition read from them has names of one line. -/
theorem oneLine_of_decodeTableEntry {t : StoredTable} (read : decodeTableEntry bytes = some t) :
    t.OneLine := by
  have line : ∀ part ∈ bytes.splitOn 10, (10 : UInt8) ∉ part := fun _ => not_mem_of_mem_splitOn
  unfold decodeTableEntry at read
  unfold decodeLines at read
  split at read
  · rename_i magic name hasEmbedding appendOnly mode count rest lines
    rw [lines] at line
    split_ifs at read with tag
    simp only [bind_eq_bind, bind_eq_some_iff] at read
    obtain ⟨hasEmbedding', -, appendOnly', -, mode', -, count', counted, columns, read, same⟩ :=
      read
    obtain rfl := some.inj same
    obtain ⟨length, inside⟩ := decodeColumns_spec read
    refine ⟨line name (by simp), ?_, ?_⟩
    · intro c listed
      obtain ⟨named, typed⟩ := inside c listed
      exact ⟨line _ (by simp [named]), line _ (by simp [typed])⟩
    · have small := parseU64_lt counted
      rw [length]
      exact small
  · cases read

theorem decodeTableEntry_encodeTableEntry_iff (t : StoredTable) :
    decodeTableEntry (encodeTableEntry t) = some t ↔ t.OneLine :=
  ⟨oneLine_of_decodeTableEntry, decodeTableEntry_encodeTableEntry⟩

/-- Salt and iterations within their fields, and keys of a SHA-256. -/
def ScramVerifier.Fits (v : ScramVerifier) : Prop :=
  v.salt.length < 2 ^ 16 ∧ v.iterations < 2 ^ 32 ∧ v.storedKey.length = 32 ∧ v.serverKey.length = 32

instance (v : ScramVerifier) : Decidable v.Fits := inferInstanceAs (Decidable (_ ∧ _ ∧ _ ∧ _))

def RoleRecord.Fits (r : RoleRecord) : Prop :=
  r.name.length < 2 ^ 16 ∧ ∀ v, r.verifier = some v → v.Fits

theorem ScramVerifier.fits_of_fromBytes (read : fromBytes bytes = some v) : v.Fits := by
  unfold fromBytes at read
  simp only at read
  split_ifs at read with size
  cases read
  have saltLen := ofLe_take_lt 2 (bytes.drop 5)
  have iterations := ofLe_take_lt 4 (bytes.drop 1)
  refine ⟨?_, iterations, ?_, ?_⟩
  · simp only [length_take]
    omega
  · simp only [length_take, length_drop]
    omega
  · simp only [length_drop]
    omega

theorem ScramVerifier.fromBytes_toBytes (fits : v.Fits) : fromBytes v.toBytes = some v := by
  obtain ⟨short, small, stored, server⟩ := fits
  have saltLen : ofLe (toLe 2 v.salt.length) = v.salt.length := ofLe_toLe_of_lt short
  have iterations : ofLe (toLe 4 v.iterations) = v.iterations := ofLe_toLe_of_lt small
  have bytes : v.toBytes = 1 :: (toLe 4 v.iterations ++ (toLe 2 v.salt.length ++
      (v.salt ++ (v.storedKey ++ v.serverKey)))) := by simp [toBytes]
  have length : v.toBytes.length = 7 + v.salt.length + 64 := by
    simp only [bytes, length_cons, length_append, toLe_length]
    omega
  have behind (w : Nat) : v.toBytes.drop (7 + w) =
      (v.salt ++ (v.storedKey ++ v.serverKey)).drop w := by
    have front : v.toBytes = (1 :: (toLe 4 v.iterations ++ toLe 2 v.salt.length)) ++
        (v.salt ++ (v.storedKey ++ v.serverKey)) := by simp [bytes]
    rw [← drop_drop, front, drop_left' (by simp)]
  have first : (v.toBytes.drop 1).take 4 = toLe 4 v.iterations := by
    rw [bytes, drop_one, tail_cons, take_left' (toLe_length ..)]
  have second : (v.toBytes.drop 5).take 2 = toLe 2 v.salt.length := by
    rw [bytes]
    simp
  have salt : (v.toBytes.drop 7).take v.salt.length = v.salt := by
    have all := behind 0
    rw [Nat.add_zero, drop_zero] at all
    rw [all, take_left]
  have storedKey : (v.toBytes.drop (7 + v.salt.length)).take 32 = v.storedKey := by
    rw [behind, drop_left, take_left' stored]
  have serverKey : v.toBytes.drop (7 + v.salt.length + 32) = v.serverKey := by
    rw [Nat.add_assoc, behind, ← drop_drop, drop_left, drop_left' stored]
  have long : ¬ (v.toBytes.length < 7 ∨ v.toBytes.head? ≠ some 1) := by
    rw [length, bytes]
    simp
  unfold fromBytes
  rw [if_neg long]
  simp only [first, second, saltLen, iterations, length, ne_eq, not_true_eq_false, if_false,
    salt, storedKey, serverKey]

theorem ScramVerifier.fromBytes_toBytes_iff (v : ScramVerifier) :
    fromBytes v.toBytes = some v ↔ v.Fits :=
  ⟨fits_of_fromBytes, fromBytes_toBytes⟩

theorem RoleRecord.fits_of_fromBytes (read : fromBytes bytes = some r) : r.Fits := by
  have nameLen := ofLe_take_lt 2 (bytes.drop 1)
  have named : ∀ s : Bytes, (s.take (3 + ofLe ((bytes.drop 1).take 2) - 3)).length < 2 ^ 16 := by
    intro s
    rw [length_take]
    omega
  unfold fromBytes at read
  split_ifs at read with short
  simp only at read
  split at read
  · cases read
  · split_ifs at read with flag
    · cases read
      exact ⟨named _, fun v none => by cases none⟩
    · obtain ⟨v, stored, rfl⟩ := map_eq_some_iff.mp read
      refine ⟨named _, ?_⟩
      rintro v' same
      obtain rfl := some.inj same
      exact ScramVerifier.fits_of_fromBytes stored

theorem RoleRecord.fromBytes_toBytes (fits : r.Fits) : fromBytes r.toBytes = some r := by
  obtain ⟨name, isSuperuser, verifier⟩ := r
  obtain ⟨short, held⟩ := fits
  have nameLen : ofLe (toLe 2 name.length) = name.length := ofLe_toLe_of_lt short
  generalize rest : (match verifier with
    | some v => 1 :: v.toBytes
    | none => [0] : Bytes) = tail
  have bytes : toBytes ⟨name, isSuperuser, verifier⟩ = (if isSuperuser then 1 else 0) ::
      (toLe 2 name.length ++ (name ++ tail)) := by
    rw [← rest]
    cases verifier <;> simp [toBytes]
  have nonempty : 1 ≤ tail.length := by
    rw [← rest]
    cases verifier <;> simp
  have long : ¬ (toBytes ⟨name, isSuperuser, verifier⟩).length < 4 := by
    rw [bytes, length_cons, length_append, length_append, toLe_length]
    omega
  have first : ((toBytes ⟨name, isSuperuser, verifier⟩).drop 1).take 2 = toLe 2 name.length := by
    rw [bytes, drop_one, tail_cons, take_left' (toLe_length ..)]
  have second : (toBytes ⟨name, isSuperuser, verifier⟩).drop 3 = name ++ tail := by
    rw [bytes]
    simp
  have third : (toBytes ⟨name, isSuperuser, verifier⟩).drop (3 + name.length) = tail := by
    rw [← drop_drop, second, drop_left]
  have front : decide ((toBytes ⟨name, isSuperuser, verifier⟩).head? ≠ some 0) = isSuperuser := by
    rw [bytes]
    cases isSuperuser <;> simp
  unfold fromBytes
  rw [if_neg long]
  simp only [first, nameLen, third, second, front, Nat.add_sub_cancel_left, take_left]
  cases verifier with
  | none =>
    subst rest
    simp
  | some v =>
    subst rest
    simp [ScramVerifier.fromBytes_toBytes (held v rfl)]

theorem RoleRecord.fromBytes_toBytes_iff (r : RoleRecord) : fromBytes r.toBytes = some r ↔ r.Fits :=
  ⟨fits_of_fromBytes, fromBytes_toBytes⟩

def IndexDef.Fits (d : IndexDef) : Prop := d.name.length < 2 ^ 16 ∧ d.table.length < 2 ^ 16

theorem IndexDef.fits_of_fromBytes {d : IndexDef} (read : fromBytes bytes = some d) : d.Fits := by
  unfold fromBytes at read
  simp only at read
  split_ifs at read with name table
  cases read
  have nameLen := ofLe_take_lt 2 bytes
  have tableLen := ofLe_take_lt 2 ((bytes.drop 2).drop (ofLe (bytes.take 2)))
  constructor
  · simp only [length_take]
    omega
  · simp only [length_take]
    omega

theorem IndexDef.fromBytes_toBytes_iff (d : IndexDef) : fromBytes d.toBytes = some d ↔ d.Fits :=
  ⟨fits_of_fromBytes, fun fits => fromBytes_toBytes fits.1 fits.2⟩

theorem defKey_inj {n n' : Bytes} : defKey n = defKey n' ↔ n = n' :=
  ⟨fun same => append_cancel_left same, congrArg defKey⟩

theorem label_clean (p : Action) : (0 : UInt8) ∉ p.label := by cases p <;> decide

theorem actionFromLabel_label (p : Action) : actionFromLabel p.label = some p := by
  cases p <;> decide

theorem label_inj : p.label = p'.label ↔ p = p' := by
  constructor
  · intro same
    have read := actionFromLabel_label p
    rw [same, actionFromLabel_label] at read
    exact (some.inj read).symm
  · exact congrArg Action.label

theorem grantKey_eq (role table : Bytes) (p : Action) :
    grantKey role table p = grantPrefix ++ (role ++ 0 :: (table ++ 0 :: p.label)) := by
  simp [grantKey]

/-- What is read from a key has no zero byte in its names. -/
theorem clean_of_parseGrantKey {key : Bytes} (read : parseGrantKey key = some (role, table, p)) :
    0 ∉ role ∧ 0 ∉ table := by
  have clean : ∀ part ∈ (key.drop grantPrefix.length).splitOn 0, (0 : UInt8) ∉ part :=
    fun _ => not_mem_of_mem_splitOn
  unfold parseGrantKey at read
  split_ifs at read with inside
  split at read
  · rename_i role' table' label rest parts
    rw [parts] at clean
    obtain ⟨p', -, same⟩ := map_eq_some_iff.mp read
    cases same
    exact ⟨clean _ (by simp), clean _ (by simp)⟩
  · cases read

theorem parseGrantKey_grantKey (p : Action) (cleanRole : 0 ∉ role) (cleanTable : 0 ∉ table) :
    parseGrantKey (grantKey role table p) = some (role, table, p) := by
  have inside : grantPrefix.isPrefixOf (grantKey role table p) := by
    rw [List.isPrefixOf_iff_prefix, grantKey_eq]
    exact prefix_append ..
  have parts : ((grantKey role table p).drop grantPrefix.length).splitOn 0 =
      [role, table, p.label] := by
    rw [grantKey_eq, drop_left, splitOn_append_cons_self_of_not_mem cleanRole,
      splitOn_append_cons_self_of_not_mem cleanTable, splitOn_eq_singleton (label_clean p)]
  unfold parseGrantKey
  rw [if_pos inside, parts]
  simp [actionFromLabel_label]

/-- No other grant has the key of one whose names have no zero byte. -/
theorem grantKey_inj {role' table' : Bytes} (cleanRole : 0 ∉ role) (cleanTable : 0 ∉ table)
    (same : grantKey role' table' p' = grantKey role table p) :
    (role', table', p') = (role, table, p) := by
  rw [grantKey_eq, grantKey_eq] at same
  have names := append_cancel_left same
  have zeros := congrArg (List.count 0) names
  have marked (q : Action) : List.count 0 q.label = 0 := count_eq_zero.mpr (label_clean q)
  simp only [count_append, count_cons_self, marked, count_eq_zero.mpr cleanRole,
    count_eq_zero.mpr cleanTable] at zeros
  have cleanRole' : 0 ∉ role' := count_eq_zero.mp (by omega)
  have cleanTable' : 0 ∉ table' := count_eq_zero.mp (by omega)
  obtain ⟨rfl, later⟩ := append_zero_inj cleanRole' cleanRole names
  obtain ⟨rfl, label⟩ := append_zero_inj cleanTable' cleanTable later
  rw [label_inj.mp label]

theorem grantKey_exact_iff (role table : Bytes) (p : Action) :
    (parseGrantKey (grantKey role table p) = some (role, table, p) ∧
      ∀ role' table' p', grantKey role' table' p' = grantKey role table p →
        (role', table', p') = (role, table, p)) ↔ 0 ∉ role ∧ 0 ∉ table :=
  ⟨fun h => clean_of_parseGrantKey h.1, fun clean =>
    ⟨parseGrantKey_grantKey p clean.1 clean.2, fun _ _ _ => grantKey_inj clean.1 clean.2⟩⟩

mutual

/-- The same value, floats by their bits. -/
def SameBits : Value → Value → Prop
  | .integer a, .integer b => a = b
  | .float a, .float b => a.toBits = b.toBits
  | .text a, .text b => a = b
  | .bool a, .bool b => a = b
  | .null, .null => True
  | .blob a, .blob b => a = b
  | .array a, .array b => SameBitsAll a b
  | _, _ => False

def SameBitsAll : List Value → List Value → Prop
  | [], [] => True
  | a :: as, b :: bs => SameBits a b ∧ SameBitsAll as bs
  | _, _ => False

end

mutual

/-- Integers of 64 bits, and arrays whose counts and lengths have 32. -/
def Sized : Value → Prop
  | .integer n => FitsI64 (.integer n)
  | .array items => items.length < 2 ^ 32 ∧ SizedAll items
  | _ => True

def SizedAll : List Value → Prop
  | [] => True
  | v :: rest => (encodeIndexValueRaw v).length < 2 ^ 32 ∧ Sized v ∧ SizedAll rest

end

theorem orderedBits_inj {m : Nat} (hm : m < 2 ^ 64) (hn : n < 2 ^ 64)
    (same : orderedBits m = orderedBits n) : m = n := by
  unfold orderedBits at same
  split_ifs at same <;> omega

theorem orderedBits_lt (h : n < 2 ^ 64) : orderedBits n < 2 ^ 64 := by
  unfold orderedBits
  split_ifs <;> omega

/-- Values with one tag have the same bytes behind it. -/
theorem body_of_encode {body body' : Bytes} (ha : encodeIndexValueRaw a = indexTag a :: body)
    (hb : encodeIndexValueRaw b = indexTag b :: body')
    (same : encodeIndexValueRaw a = encodeIndexValueRaw b) :
    indexTag a = indexTag b ∧ body = body' := by
  rw [ha, hb] at same
  exact cons.inj same

theorem indexTag_of_encode (same : encodeIndexValueRaw a = encodeIndexValueRaw b) :
    indexTag a = indexTag b := by
  obtain ⟨body, ha⟩ := encodeIndexValueRaw_head a
  obtain ⟨body', hb⟩ := encodeIndexValueRaw_head b
  exact (body_of_encode ha hb same).1

mutual

theorem sameBits_of_encode {a b : Value} (ha : Sized a) (hb : Sized b)
    (same : encodeIndexValueRaw a = encodeIndexValueRaw b) : SameBits a b := by
  have tags := indexTag_of_encode same
  match a with
  | .integer m =>
    cases b with
    | integer n =>
      have shifted := compare_integers ha hb
      rw [same, Std.compare_self] at shifted
      exact Int.compare_eq_eq.mp shifted.symm
    | _ => exact absurd tags (by simp [indexTag])
  | .float f =>
    cases b with
    | float g =>
      rw [encodeIndexValueRaw, encodeIndexValueRaw] at same
      have bits :=
        toBe_inj (orderedBits_lt (UInt64.toNat_lt _)) (orderedBits_lt (UInt64.toNat_lt _))
        (cons.inj same).2
      exact UInt64.toNat_inj.mp (orderedBits_inj (UInt64.toNat_lt _) (UInt64.toNat_lt _) bits)
    | _ => exact absurd tags (by simp [indexTag])
  | .text s =>
    cases b with
    | text s' =>
      rw [encodeIndexValueRaw, encodeIndexValueRaw] at same
      exact (cons.inj same).2
    | _ => exact absurd tags (by simp [indexTag])
  | .bool c =>
    cases b with
    | bool c' =>
      rw [encodeIndexValueRaw, encodeIndexValueRaw] at same
      cases c <;> cases c' <;> simp_all [SameBits]
    | _ => exact absurd tags (by simp [indexTag])
  | .null =>
    cases b with
    | null => trivial
    | _ => exact absurd tags (by simp [indexTag])
  | .blob s =>
    cases b with
    | blob s' =>
      rw [encodeIndexValueRaw, encodeIndexValueRaw] at same
      exact (cons.inj same).2
    | _ => exact absurd tags (by simp [indexTag])
  | .array items =>
    cases b with
    | array items' =>
      rw [encodeIndexValueRaw, encodeIndexValueRaw] at same
      obtain ⟨count, elements⟩ := append_inj (cons.inj same).2 (by simp [toBe_length])
      exact sameBitsAll_of_encode ha.2 hb.2 (toBe_inj ha.1 hb.1 count) elements
    | _ => exact absurd tags (by simp [indexTag])

theorem sameBitsAll_of_encode {as bs : List Value} (ha : SizedAll as) (hb : SizedAll bs)
    (length : as.length = bs.length) (same : encodeIndexElements as = encodeIndexElements bs) :
    SameBitsAll as bs := by
  match as, bs with
  | [], [] => trivial
  | a :: as, b :: bs =>
    obtain ⟨short, sized, later⟩ := ha
    obtain ⟨short', sized', later'⟩ := hb
    rw [encodeIndexElements, encodeIndexElements, append_assoc, append_assoc] at same
    obtain ⟨front, rest⟩ := append_inj same (by simp [toBe_length])
    obtain ⟨first, tail⟩ := append_inj rest (toBe_inj short short' front)
    exact ⟨sameBits_of_encode sized sized' first,
      sameBitsAll_of_encode later later' (Nat.succ.inj length) tail⟩

end

/-- The name continues another one like an entry of that index: a zero, the encoding of a
value and two zeros. -/
def Continues (name name' : Bytes) : Prop :=
  ∃ v, entryValuePrefix name v <+: entryPrefixForIndex name'

theorem indexTag_unmarked (v : Value) : indexTag v ≠ 0 ∧ indexTag v ≠ 255 := by
  cases v <;> simp [indexTag]

/-- Two entries of one index. -/
theorem entryKey_inj_of_name {v : Value} (same : entryKey name v pk = entryKey name v' pk') :
    encodeIndexValue v = encodeIndexValue v' ∧ pk = pk' := by
  have split := splitValueAndPk_entryKey name v pk
  rw [same, splitValueAndPk_entryKey] at split
  obtain ⟨encoded, key⟩ : encodeIndexValue v' = encodeIndexValue v ∧ pk' = pk := by
    simpa using split
  exact ⟨encoded.symm, key.symm⟩

theorem continues_of_entryKey {v : Value}
    (same : entryKey name v pk = entryKey (name ++ 0 :: s) v' pk') :
    Continues name (name ++ 0 :: s) := by
  obtain ⟨body, head⟩ := head?_eq_some_iff.mp (encodeIndexValue_head v')
  rw [entryKey_eq, entryKey_eq, head] at same
  have behind : escapeZeros (encodeIndexValueRaw v) ++ 0 :: 0 :: pk =
      s ++ 0 :: indexTag v' :: (body ++ 0 :: 0 :: pk') := by
    simpa [entryPrefixForIndex, encodeIndexValue] using same
  obtain ⟨rest, found⟩ := escapeZeros_ends_before (indexTag_unmarked v').1 (indexTag_unmarked v').2
    behind
  refine ⟨v, rest, ?_⟩
  have whole := congrArg (fun t => entryPrefix ++ name ++ 0 :: t) found
  simpa [entryValuePrefix, entryPrefixForIndex, encodeIndexValue] using whole

theorem entryKey_of_continues {name' : Bytes} (h : Continues name name') :
    ∃ v pk, entryKey name v pk = entryKey name' .null [] ∧ name ≠ name' := by
  obtain ⟨v, rest, whole⟩ := h
  refine ⟨v, rest ++ encodeIndexValue .null ++ [0, 0], ?_, ?_⟩
  · have longer := congrArg (· ++ (encodeIndexValue .null ++ [0, 0])) whole
    simpa [entryKey, entryValuePrefix] using longer
  · rintro rfl
    have length := congrArg List.length whole
    simp only [entryValuePrefix, length_append, length_cons, length_nil] at length
    omega

/-- The entries of two indexes have different keys exactly when neither name continues the
other. -/
theorem entryKey_inj_iff (name name' : Bytes) :
    (∀ v v' pk pk', entryKey name v pk = entryKey name' v' pk' →
      name = name' ∧ encodeIndexValue v = encodeIndexValue v' ∧ pk = pk') ↔
      ¬ Continues name name' ∧ ¬ Continues name' name := by
  constructor
  · intro apart
    constructor
    · intro continued
      obtain ⟨v, pk, same, other⟩ := entryKey_of_continues continued
      exact other (apart _ _ _ _ same).1
    · intro continued
      obtain ⟨v, pk, same, other⟩ := entryKey_of_continues continued
      exact other (apart _ _ _ _ same.symm).1.symm
  · rintro ⟨left, right⟩ v v' pk pk' same
    have names : name ++ 0 :: (encodeIndexValue v ++ 0 :: 0 :: pk) =
        name' ++ 0 :: (encodeIndexValue v' ++ 0 :: 0 :: pk') := by
      rw [entryKey_eq, entryKey_eq] at same
      simpa [entryPrefixForIndex] using same
    rcases append_eq_append_iff.mp names with ⟨s, rfl, behind⟩ | ⟨s, rfl, behind⟩
    · cases s with
      | nil =>
        rw [append_nil] at same ⊢
        exact ⟨rfl, entryKey_inj_of_name same⟩
      | cons b s =>
        obtain rfl : 0 = b := (cons.inj behind).1
        exact absurd (continues_of_entryKey same) left
    · cases s with
      | nil =>
        rw [append_nil] at same ⊢
        exact ⟨rfl, entryKey_inj_of_name same⟩
      | cons b s =>
        obtain rfl : 0 = b := (cons.inj behind).1
        exact absurd (continues_of_entryKey same.symm) right

section Stores

variable {α : Type*} {store : Store} {pfx : Bytes} {record : α → Bytes × Bytes} {xs : List α}

/-- The keys under a prefix are those of the records, each with its bytes. -/
def Recorded (store : Store) (pfx : Bytes) (record : α → Bytes × Bytes) (xs : List α) : Prop :=
  ∀ k v, pfx <+: k → (store[k]? = some v ↔ ∃ x ∈ xs, (k, v) = record x)

theorem Recorded.mem_scan (h : Recorded store pfx record xs) (under : ∀ x, pfx <+: (record x).1)
    (r : Bytes × Bytes) : r ∈ store.scanPrefix pfx ↔ ∃ x ∈ xs, r = record x := by
  obtain ⟨k, v⟩ := r
  rw [Store.mem_scanPrefix]
  constructor
  · rintro ⟨inside, stored⟩
    exact (h k v inside).mp stored
  · rintro ⟨x, listed, same⟩
    have inside : pfx <+: k := by
      have key := under x
      rw [← same] at key
      exact key
    exact ⟨inside, (h k v inside).mpr ⟨x, listed, same⟩⟩

/-- A reader that gives only good records, and every good one from its own bytes, gives the
records back exactly when all of them are good. -/
theorem Recorded.exact_iff (h : Recorded store pfx record xs) (read : Bytes × Bytes → Option α)
    (under : ∀ x, pfx <+: (record x).1) {Good : α → Prop}
    (sound : ∀ r x, read r = some x → Good x) (complete : ∀ x, Good x → read (record x) = some x) :
    (∀ x, x ∈ (store.scanPrefix pfx).filterMap read ↔ x ∈ xs) ↔ ∀ x ∈ xs, Good x := by
  constructor
  · intro exact x listed
    obtain ⟨r, -, found⟩ := mem_filterMap.mp ((exact x).mpr listed)
    exact sound r x found
  · intro good x
    rw [mem_filterMap]
    constructor
    · rintro ⟨r, there, found⟩
      obtain ⟨x', listed, rfl⟩ := (h.mem_scan under r).mp there
      obtain rfl : x' = x := some.inj ((complete x' (good x' listed)).symm.trans found)
      exact listed
    · intro listed
      exact ⟨record x, (h.mem_scan under _).mpr ⟨x, listed, rfl⟩, complete x (good x listed)⟩

def tableRecord (t : StoredTable) : Bytes × Bytes := (catalogKey t.name, encodeTableEntry t)

def grantRecord (g : Bytes × Bytes × Action) : Bytes × Bytes := (grantKey g.1 g.2.1 g.2.2, [1])

def defRecord (d : IndexDef) : Bytes × Bytes := (defKey d.name, d.toBytes)

variable {tables : List StoredTable}

/-- No record of a table has a version that stops the load. -/
theorem loadAll_of_recorded (h : Recorded store catalogKeyPrefix tableRecord tables) :
    loadAll store =
      .ok ((store.scanPrefix catalogKeyPrefix).filterMap fun r => decodeTableEntry r.2) := by
  have current : ∀ bytes ∈ (store.scanPrefix catalogKeyPrefix).map Prod.snd,
      catalogRecordVersion bytes = some 1 := by
    intro bytes there
    obtain ⟨r, hr, rfl⟩ := mem_map.mp there
    obtain ⟨t, -, rfl⟩ := (h.mem_scan (fun t => prefix_append _ t.name) r).mp hr
    exact catalogRecordVersion_encodeTableEntry t
  rw [loadAll, loadRecords_ok current, filterMap_map]
  rfl

theorem loadAll_exact_iff (h : Recorded store catalogKeyPrefix tableRecord tables) :
    (∃ loaded, loadAll store = .ok loaded ∧ ∀ t, t ∈ loaded ↔ t ∈ tables) ↔
      ∀ t ∈ tables, t.OneLine := by
  have exact := h.exact_iff (fun r => decodeTableEntry r.2)
    (fun t => prefix_append _ t.name) (fun r t => oneLine_of_decodeTableEntry)
    (fun t => decodeTableEntry_encodeTableEntry)
  rw [loadAll_of_recorded h, ← exact]
  simp

theorem listGrants_exact_iff {grants : List (Bytes × Bytes × Action)}
    (h : Recorded store grantPrefix grantRecord grants) :
    (∀ g, g ∈ listGrants store ↔ g ∈ grants) ↔ ∀ g ∈ grants, 0 ∉ g.1 ∧ 0 ∉ g.2.1 := by
  have under : ∀ g, grantPrefix <+: (grantRecord g).1 := by
    intro g
    exact prefix_append ..
  exact h.exact_iff _ under (fun r g => clean_of_parseGrantKey)
    (fun g clean => parseGrantKey_grantKey g.2.2 clean.1 clean.2)

theorem defsForTable_exact_iff {defs : List IndexDef} (h :
    Recorded store defPrefix defRecord defs) :
    (∀ table d, d ∈ defsForTable store table ↔ d ∈ defs ∧ d.table = table) ↔
      ∀ d ∈ defs, d.Fits := by
  have listed :
      (store.scanPrefix defPrefix).filterMap (fun r => store[r.1]?.bind IndexDef.fromBytes) =
      (store.scanPrefix defPrefix).filterMap fun r => IndexDef.fromBytes r.2 := by
    apply filterMap_congr
    intro r there
    rw [(Store.mem_scanPrefix.mp there).2]
    rfl
  have exact := h.exact_iff (fun r => IndexDef.fromBytes r.2)
    (fun d => prefix_append _ d.name) (fun r d => IndexDef.fits_of_fromBytes)
    (fun d fits => IndexDef.fromBytes_toBytes fits.1 fits.2)
  rw [← exact]
  simp only [defsForTable, listed, mem_filter, decide_eq_true_eq]
  constructor
  · intro own d
    have here := own d.table d
    simpa using here
  · intro own table d
    rw [own d]

/-- Every record and every key, and what a store with them gives back. -/
theorem records_exact_iff (t : StoredTable) (v : ScramVerifier) (r : RoleRecord) (d : IndexDef)
    (role table : Bytes) (p : Action) (store : Store) :
    (decodeTableEntry (encodeTableEntry t) = some t ↔ t.OneLine) ∧
    (ScramVerifier.fromBytes v.toBytes = some v ↔ v.Fits) ∧
    (RoleRecord.fromBytes r.toBytes = some r ↔ r.Fits) ∧
    (IndexDef.fromBytes d.toBytes = some d ↔ d.Fits) ∧
    ((parseGrantKey (grantKey role table p) = some (role, table, p) ∧
      ∀ role' table' p', grantKey role' table' p' = grantKey role table p →
        (role', table', p') = (role, table, p)) ↔ 0 ∉ role ∧ 0 ∉ table) ∧
    (∀ name name', defKey name = defKey name' ↔ name = name') ∧
    (∀ name v pk, pkFromEntryKey name (entryKey name v pk) = some pk) ∧
    (∀ name name', (∀ v v' pk pk', entryKey name v pk = entryKey name' v' pk' →
      name = name' ∧ encodeIndexValue v = encodeIndexValue v' ∧ pk = pk') ↔
        ¬ Continues name name' ∧ ¬ Continues name' name) ∧
    (∀ a b, Sized a → Sized b → encodeIndexValue a = encodeIndexValue b → SameBits a b) ∧
    (∀ tables, Recorded store catalogKeyPrefix tableRecord tables →
      ((∃ loaded, loadAll store = .ok loaded ∧ ∀ t, t ∈ loaded ↔ t ∈ tables) ↔
        ∀ t ∈ tables, t.OneLine)) ∧
    (∀ grants, Recorded store grantPrefix grantRecord grants →
      ((∀ g, g ∈ listGrants store ↔ g ∈ grants) ↔ ∀ g ∈ grants, 0 ∉ g.1 ∧ 0 ∉ g.2.1)) ∧
    (store[roleKey r.name]? = some r.toBytes → (getRole store r.name = some r ↔ r.Fits)) ∧
    (∀ defs, Recorded store defPrefix defRecord defs →
      ((∀ table d, d ∈ defsForTable store table ↔ d ∈ defs ∧ d.table = table) ↔
        ∀ d ∈ defs, d.Fits)) := by
  refine ⟨decodeTableEntry_encodeTableEntry_iff t, v.fromBytes_toBytes_iff,
    r.fromBytes_toBytes_iff, d.fromBytes_toBytes_iff, grantKey_exact_iff role table p,
    fun name name' => defKey_inj, pkFromEntryKey_entryKey, entryKey_inj_iff, ?_,
    fun tables => loadAll_exact_iff, fun grants => listGrants_exact_iff, ?_,
    fun defs => defsForTable_exact_iff⟩
  · intro a b ha hb same
    exact sameBits_of_encode ha hb (escapeZeros_injective same)
  · intro stored
    rw [getRole, stored]
    exact r.fromBytes_toBytes_iff

/-- A table whose name has line breaks: CREATE TABLE keeps the double quotes of the name. -/
def brokenName : StoredTable :=
  MapDatabase.newTable (ascii "\"a\n0\n0\nC\n0\"") [⟨⟨ascii "id", true, false⟩, ascii "INT", false⟩]

/-- It does not come back, and neither does a grant on a role with a zero byte. -/
theorem records_lost : decodeTableEntry (encodeTableEntry brokenName) = none ∧
      parseGrantKey (grantKey [97, 0, 98] (ascii "t") .select) = none := by
  decide +kernel

end Stores

end GalaxDb.Sql
