import GalaxDb.Lib.Run
import GalaxDb.Sql.MapDatabase

/-!
# Keys of the store

The prefixes of definitions, entries, catalog records, roles and grants keep their keys
apart from each other and from the keys of rows. An entry key determines its index, its
encoded value and its row; two encodings of one type compare as the values do.
-/

namespace GalaxDb.Sql

open Bytes SecondaryIndex List

/-- No key has both prefixes. -/
def Apart (p q : Bytes) : Prop := ¬ p <+: q ∧ ¬ q <+: p

instance (p q : Bytes) : Decidable (Apart p q) := inferInstanceAs (Decidable (_ ∧ _))

variable {k key name name' p pk q : Bytes} {a b v : Value}

theorem Apart.excludes (apart : Apart p q) (hp : p <+: k) : ¬ q <+: k := by
  intro hq
  rcases Nat.le_total p.length q.length with shorter | longer
  · exact apart.1 (prefix_of_prefix_length_le hp hq shorter)
  · exact apart.2 (prefix_of_prefix_length_le hq hp longer)

theorem Apart.symm (apart : Apart p q) : Apart q p := ⟨apart.2, apart.1⟩

theorem defPrefix_apart_entryPrefix : Apart defPrefix entryPrefix := by decide

theorem head_of_startsWith (nonempty : p ≠ []) (h : p <+: k) : k.head? = p.head? := by
  obtain ⟨rest, rfl⟩ := h
  cases p with
  | nil => exact absurd rfl nonempty
  | cons b p => rfl

theorem startsWith_defKey (name : Bytes) : defPrefix <+: defKey name := prefix_append ..

theorem startsWith_entryKey (name : Bytes) (v : Value) (pk : Bytes) :
    entryPrefix <+: entryKey name v pk := by
  simp [entryKey, entryValuePrefix, entryPrefixForIndex]

/-- A table whose rows are apart from all other keys. -/
def PlainName (table : Bytes) : Prop := table.head? ≠ some 0

instance (table : Bytes) : Decidable (PlainName table) := inferInstanceAs (Decidable (_ ≠ _))

theorem PlainName.head_of_row {table : Bytes} (plain : PlainName table)
    (row : tablePrefix table <+: key) : key.head? ≠ some 0 := by
  rw [head_of_startsWith (by simp [tablePrefix]) row]
  cases table with
  | nil => decide
  | cons b table => exact plain

theorem not_prefix_of_head (head : p.head? = some 0) (row : key.head? ≠ some 0) : ¬ p <+: key := by
  intro h
  have nonempty : p ≠ [] := by
    rintro rfl
    cases head
  exact row ((head_of_startsWith nonempty h).trans head)

/-- The bytes before the first zero, and those after it. -/
theorem append_zero_inj {a a' b b' : Bytes} (clean : 0 ∉ a) (clean' : 0 ∉ a')
    (same : a ++ 0 :: b = a' ++ 0 :: b') : a = a' ∧ b = b' := by
  induction a generalizing a' with
  | nil =>
    cases a' with
    | nil => simpa using same
    | cons x a' =>
      obtain ⟨rfl, -⟩ : 0 = x ∧ b = a' ++ 0 :: b' := by simpa using same
      simp at clean'
  | cons x a ih =>
    cases a' with
    | nil =>
      obtain ⟨rfl, -⟩ : x = 0 ∧ a ++ 0 :: b = b' := by simpa using same
      simp at clean
    | cons y a' =>
      obtain ⟨rfl, rest⟩ : x = y ∧ a ++ 0 :: b = a' ++ 0 :: b' := by simpa using same
      obtain ⟨rfl, rfl⟩ := ih (fun h => clean (mem_cons_of_mem _ h))
        (fun h => clean' (mem_cons_of_mem _ h)) rest
      exact ⟨rfl, rfl⟩

theorem entryKey_eq (name : Bytes) (v : Value) (pk : Bytes) :
    entryKey name v pk = entryPrefixForIndex name ++ (encodeIndexValue v ++ 0 :: 0 :: pk) := by
  simp [entryKey, entryValuePrefix]

theorem splitValueAndPk_entryKey (name : Bytes) (v : Value) (pk : Bytes) :
    splitValueAndPk ((entryKey name v pk).drop (entryPrefixForIndex name).length) =
      some (encodeIndexValue v, pk) := by
  rw [entryKey_eq, drop_left]
  exact splitTerminated_escapeZeros _ pk

theorem pkFromEntryKey_entryKey (name : Bytes) (v : Value) (pk : Bytes) :
    pkFromEntryKey name (entryKey name v pk) = some pk := by
  have inside : (entryPrefixForIndex name).isPrefixOf (entryKey name v pk) := by
    rw [List.isPrefixOf_iff_prefix, entryKey_eq]
    exact prefix_append ..
  rw [pkFromEntryKey, if_pos inside, splitValueAndPk_entryKey]
  rfl

/-- An entry key under the prefix of an index is an entry of that index. -/
theorem name_of_entryKey (clean : 0 ∉ name) (clean' : 0 ∉ name')
    (inside : entryPrefixForIndex name <+: entryKey name' v pk) : name = name' := by
  obtain ⟨rest, same⟩ := inside
  rw [entryKey_eq] at same
  have same' : name ++ 0 :: rest = name' ++ 0 :: (encodeIndexValue v ++ 0 :: 0 :: pk) := by
    simpa [entryPrefixForIndex] using same
  exact (append_zero_inj clean clean' same').1

theorem entryKey_inj {pk' : Bytes} {v' : Value} (clean : 0 ∉ name) (clean' : 0 ∉ name')
    (same : entryKey name v pk = entryKey name' v' pk') :
    name = name' ∧ encodeIndexValue v = encodeIndexValue v' ∧ pk = pk' := by
  have inside : entryPrefixForIndex name <+: entryKey name' v' pk' := by
    rw [← same, entryKey_eq]
    exact prefix_append ..
  obtain rfl := name_of_entryKey clean clean' inside
  have split := splitValueAndPk_entryKey name v pk
  rw [same, splitValueAndPk_entryKey] at split
  obtain ⟨encoded, key⟩ : encodeIndexValue v' = encodeIndexValue v ∧ pk' = pk := by
    simpa using split
  exact ⟨rfl, encoded.symm, key.symm⟩

theorem IndexDef.fromBytes_toBytes {d : IndexDef} (name : d.name.length < 2 ^ 16)
    (table : d.table.length < 2 ^ 16) : IndexDef.fromBytes d.toBytes = some d := by
  have nameLen : ofLe (toLe 2 d.name.length) = d.name.length :=
    ofLe_toLe_of_lt (by simpa using name)
  have tableLen : ofLe (toLe 2 d.table.length) = d.table.length :=
    ofLe_toLe_of_lt (by simpa using table)
  have bytes : d.toBytes = toLe 2 d.name.length ++ (d.name ++ (toLe 2 d.table.length ++
      (d.table ++ d.column))) := by simp [IndexDef.toBytes]
  have head : d.toBytes.take 2 = toLe 2 d.name.length := by
    rw [bytes, take_left' (toLe_length ..)]
  have tail : d.toBytes.drop 2 = d.name ++ (toLe 2 d.table.length ++ (d.table ++ d.column)) := by
    rw [bytes, drop_left' (toLe_length ..)]
  have long : ¬ d.toBytes.length < 2 := by
    rw [bytes, length_append, toLe_length]
    omega
  have enough : ¬ (d.name ++ (toLe 2 d.table.length ++ (d.table ++ d.column))).length <
      d.name.length + 2 := by
    simp only [length_append, toLe_length]
    omega
  have last : ¬ (d.table ++ d.column).length < d.table.length := by simp
  simp only [IndexDef.fromBytes, if_neg long, head, tail, nameLen, if_neg enough, take_left,
    drop_left, take_left' (toLe_length ..), drop_left' (toLe_length ..), tableLen,
    if_neg last]

/-- The type in the order of the index. -/
def indexTag : Value → UInt8
  | .null => 48
  | .array _ => 97
  | .bool _ => 98
  | .float _ => 102
  | .integer _ => 105
  | .text _ => 116
  | .blob _ => 120

/-- Not after, in the order of the index: integers by value, texts by bytes, and values of
different types by type. -/
def indexAtMost : Value → Value → Prop
  | .integer a, .integer b => a ≤ b
  | .text a, .text b => compare a b ≠ .gt
  | a, b => indexTag a < indexTag b

instance (a b : Value) : Decidable (indexAtMost a b) := by
  unfold indexAtMost
  split <;> infer_instance

theorem encodeIndexValueRaw_head (v : Value) :
    ∃ body, encodeIndexValueRaw v = indexTag v :: body := by
  cases v <;> exact ⟨_, by rfl⟩

/-- An integer that fits into 64 bits. -/
def FitsI64 : Value → Prop
  | .integer n => i64Min ≤ n ∧ n ≤ i64Max
  | _ => True

theorem compare_integers {a b : Int} (ha : FitsI64 (.integer a)) (hb : FitsI64 (.integer b)) :
    compare (encodeIndexValueRaw (.integer a)) (encodeIndexValueRaw (.integer b)) =
      compare a b := by
  have shift : ∀ n, FitsI64 (.integer n) → 0 ≤ n + 2 ^ 63 ∧ (n + 2 ^ 63) % 2 ^ 64 = n + 2 ^ 63 := by
    intro n fits
    simp only [FitsI64, i64Min, i64Max] at fits
    omega
  have small : ∀ n, FitsI64 (.integer n) → (n + 2 ^ 63).toNat < 256 ^ 8 := by
    intro n fits
    simp only [FitsI64, i64Min, i64Max] at fits
    omega
  rw [encodeIndexValueRaw, encodeIndexValueRaw, (shift a ha).2, (shift b hb).2,
    List.compare_cons_cons, Std.compare_self, Ordering.eq_then,
    compare_toBe (small a ha) (small b hb)]
  have nonneg := (shift a ha).1
  have nonneg' := (shift b hb).1
  rcases Int.lt_trichotomy a b with below | rfl | above
  · rw [Nat.compare_eq_lt.mpr (by omega), Int.compare_eq_lt.mpr below]
  · simp
  · rw [Nat.compare_eq_gt.mpr (by omega), Int.compare_eq_gt.mpr above]

theorem compare_of_tags (tags : indexTag a < indexTag b) :
    compare (encodeIndexValueRaw a) (encodeIndexValueRaw b) = .lt := by
  obtain ⟨body, ha⟩ := encodeIndexValueRaw_head a
  obtain ⟨body', hb⟩ := encodeIndexValueRaw_head b
  have first : compare (indexTag a) (indexTag b) = .lt := by
    simp [compare, compareOfLessAndEq, tags]
  rw [ha, hb, List.compare_cons_cons, first]
  rfl

theorem compare_of_indexAtMost (ha : FitsI64 a) (hb : FitsI64 b) (order : indexAtMost a b) :
    compare (encodeIndexValue a) (encodeIndexValue b) ≠ .gt := by
  rw [encodeIndexValue, encodeIndexValue, compare_escapeZeros]
  unfold indexAtMost at order
  split at order
  · rw [compare_integers ha hb]
    exact fun gt => absurd (Int.compare_eq_gt.mp gt) (by omega)
  · exact order
  · rw [compare_of_tags order]
    decide

end GalaxDb.Sql
