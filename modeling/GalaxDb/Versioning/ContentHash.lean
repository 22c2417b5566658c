import GalaxDb.Lib.Bytes
import GalaxDb.Lib.Codes
import GalaxDb.Versioning.Export

/-!
# The content hash of an export

Rows are sorted by primary key and written in a tagged form with counted parts, which is then
hashed. Each part of the form is self-delimiting, so that the bytes give back the rows.
-/

namespace GalaxDb.Versioning.ContentHash

open Std Bytes Codes List

section Model

/-- Floats are their bits. -/
inductive FieldValue where
  | int64 (v : Int64)
  | utf8 (s : Bytes)
  | float32 (bits : UInt32)
  | binary (b : Bytes)
  | embedding (v : List UInt32)
  | null
  deriving DecidableEq

abbrev Row := ExportedRow FieldValue

def u64Bytes (n : Nat) : Bytes := toLe 8 n

def f32Bytes (bits : UInt32) : Bytes := toLe 4 bits.toNat

def tagInt64 : UInt8 := 0x01

def tagUtf8 : UInt8 := 0x02

def tagFloat32 : UInt8 := 0x03

def tagBinary : UInt8 := 0x04

def tagEmbedding : UInt8 := 0x05

def tagGroup : UInt8 := 0x06

def tagNull : UInt8 := 0x07

def FieldValue.tag : FieldValue → UInt8
  | .int64 _ => tagInt64
  | .utf8 _ => tagUtf8
  | .float32 _ => tagFloat32
  | .binary _ => tagBinary
  | .embedding _ => tagEmbedding
  | .null => tagNull

def FieldValue.payload : FieldValue → Bytes
  | .int64 v => toLe 8 v.toUInt64.toNat
  | .utf8 s => u64Bytes s.length ++ s
  | .float32 bits => f32Bytes bits
  | .binary b => u64Bytes b.length ++ b
  | .embedding v => u64Bytes v.length ++ v.flatMap f32Bytes
  | .null => []

def canonicalField (field : FieldValue) : Bytes := field.tag :: field.payload

def canonicalGroup : Option UInt64 → Bytes
  | none => [tagGroup, 0x00]
  | some g => tagGroup :: 0x01 :: toLe 8 g.toNat

def canonicalRow (row : Row) : Bytes :=
  u64Bytes row.primaryKey.length ++ row.primaryKey ++
    (u64Bytes row.fields.length ++ row.fields.flatMap canonicalField) ++
    canonicalGroup row.nearDuplicateGroup

def canonicalBytes (rows : List Row) : Bytes := u64Bytes rows.length ++ rows.flatMap canonicalRow

variable {H E : Type}

def canonicalContentHash (xxh3 : Bytes → H) (rows : List Row) : H := xxh3 (canonicalBytes rows)

def sortRows (rows : List Row) : List Row :=
  rows.mergeSort fun a b => (compare a.primaryKey b.primaryKey).isLE

/-- `precision` is the error of a conversion that does not fit the schema. -/
inductive ExportError (E : Type) where
  | emptyVersion
  | precision (e : E)

/-- The steps of an export from the delivered rows to the hash. -/
def exportHash (xxh3 : Bytes → H) (dedup : Bool) (applyPrecision : List Row → Except E (List Row))
    (rows : List Row) : Except (ExportError E) H :=
  if rows = [] then .error .emptyVersion
  else
    let kept := if dedup then applyDedupFilter (sortRows rows) else sortRows rows
    if kept = [] then .error .emptyVersion
    else
      match applyPrecision kept with
      | .ok rows => .ok (canonicalContentHash xxh3 rows)
      | .error e => .error (.precision e)

end Model

/-- The lengths are those of vectors in memory. -/
def FieldValue.Held : FieldValue → Prop
  | .utf8 s => s.length < 2 ^ 64
  | .binary b => b.length < 2 ^ 64
  | .embedding v => v.length < 2 ^ 64
  | _ => True

structure HeldRow (row : Row) : Prop where
  key : row.primaryKey.length < 2 ^ 64
  count : row.fields.length < 2 ^ 64
  fields : ∀ field ∈ row.fields, field.Held

structure HeldRows (rows : List Row) : Prop where
  count : rows.length < 2 ^ 64
  rows : ∀ row ∈ rows, HeldRow row

theorem toLe_inj {w m n : Nat} (hm : m < 256 ^ w) (hn : n < 256 ^ w) (same : toLe w m = toLe w n) :
    m = n := by
  rw [← ofLe_toLe_of_lt hm, same, ofLe_toLe_of_lt hn]

theorem u64_code : SelfDelimiting (fun n => n < 2 ^ 64) u64Bytes :=
  selfDelimiting_of_width (fun _ _ => toLe_length ..) fun _ _ hm hn same => toLe_inj hm hn same

theorem f32_code : SelfDelimiting (fun _ => True) f32Bytes :=
  selfDelimiting_of_width (fun _ _ => toLe_length ..) fun _ _ _ _ same =>
    UInt32.toNat_inj.mp (toLe_inj (UInt32.toNat_lt _) (UInt32.toNat_lt _) same)

theorem bytes_code : SelfDelimiting (fun s : Bytes => s.length < 2 ^ 64)
    (fun s => u64Bytes s.length ++ s) := u64_code.countedUnits

theorem field_code : SelfDelimiting FieldValue.Held canonicalField := by
  refine selfDelimiting_tagged FieldValue.tag FieldValue.payload fun d => ?_
  rintro a b ⟨ha, rfl⟩ ⟨hb, tags⟩ s t same
  cases a <;> cases b <;> try cases tags
  case int64.int64.refl v v' =>
    obtain ⟨bytes, rests⟩ := append_inj same (by simp [FieldValue.payload])
    have bits := UInt64.toNat_inj.mp (toLe_inj (UInt64.toNat_lt _) (UInt64.toNat_lt _) bytes)
    have values : v = v' := by rw [← Int64.toInt64_toUInt64 v, bits, Int64.toInt64_toUInt64]
    exact ⟨congrArg FieldValue.int64 values, rests⟩
  case utf8.utf8.refl v v' =>
    obtain ⟨rfl, rests⟩ := bytes_code ha hb same
    exact ⟨rfl, rests⟩
  case float32.float32.refl v v' =>
    obtain ⟨rfl, rests⟩ := f32_code trivial trivial same
    exact ⟨rfl, rests⟩
  case binary.binary.refl v v' =>
    obtain ⟨rfl, rests⟩ := bytes_code ha hb same
    exact ⟨rfl, rests⟩
  case embedding.embedding.refl v v' =>
    obtain ⟨rfl, rests⟩ := u64_code.counted f32_code ⟨ha, fun _ _ => trivial⟩
      ⟨hb, fun _ _ => trivial⟩ same
    exact ⟨rfl, rests⟩
  case null.null.refl => exact ⟨rfl, same⟩

theorem group_code : SelfDelimiting (fun _ => True) canonicalGroup := by
  rintro a b - - s t same
  rcases a with _ | g <;> rcases b with _ | g'
  all_goals obtain ⟨present, tail⟩ := cons.inj (cons.inj same).2
  · exact ⟨rfl, tail⟩
  · cases present
  · cases present
  · obtain ⟨bytes, rests⟩ := append_inj tail (by simp)
    have groups := UInt64.toNat_inj.mp (toLe_inj (UInt64.toNat_lt _) (UInt64.toNat_lt _) bytes)
    exact ⟨congrArg some groups, rests⟩

theorem row_code : SelfDelimiting HeldRow canonicalRow := by
  have parts := (bytes_code.pair (u64_code.counted field_code)).pair group_code
  refine (parts.comap (fun row : Row => ((row.primaryKey, row.fields), row.nearDuplicateGroup))
    (fun row held => ⟨⟨held.key, held.count, held.fields⟩, trivial⟩) ?_)
  rintro ⟨key, fields, group⟩ ⟨key', fields', group'⟩ - - same
  cases same
  rfl

theorem rows_code : SelfDelimiting HeldRows canonicalBytes :=
  (u64_code.counted row_code).mono fun _ held => ⟨held.count, held.rows⟩

section Sorting

variable {rows rows' : List Row}

theorem sortRows_perm (rows : List Row) : (sortRows rows).Perm rows := mergeSort_perm ..

theorem sortRows_sorted (rows : List Row) :
    (sortRows rows).Pairwise fun a b => (compare a.primaryKey b.primaryKey).isLE = true := by
  refine pairwise_mergeSort (fun _ _ _ => TransCmp.isLE_trans) ?_ rows
  intro a b
  rw [@OrientedCmp.eq_swap _ compare _ b.primaryKey]
  cases compare a.primaryKey b.primaryKey <;> rfl

/-- With distinct keys there is one way to sort. -/
theorem sortRows_congr (distinct : (rows.map ExportedRow.primaryKey).Nodup) (same :
    rows.Perm rows') :
    sortRows rows = sortRows rows' := by
  have across : (sortRows rows).Perm (sortRows rows') :=
    ((sortRows_perm rows).trans same).trans (sortRows_perm rows').symm
  refine List.Perm.eq_of_pairwise ?_ (sortRows_sorted rows) (sortRows_sorted rows') across
  intro a b ha hb le ge
  have keys : a.primaryKey = b.primaryKey :=
    LawfulEqCmp.eq_of_compare (OrientedCmp.isLE_antisymm le ge)
  have ha : a ∈ rows := (sortRows_perm rows).mem_iff.mp ha
  have hb : b ∈ rows := same.mem_iff.mpr ((sortRows_perm rows').mem_iff.mp hb)
  exact inj_on_of_nodup_map distinct ha hb keys

theorem HeldRows.sorted (held : HeldRows rows) : HeldRows (sortRows rows) where
  count := by
    rw [(sortRows_perm rows).length_eq]
    exact held.count
  rows row member := held.rows row ((sortRows_perm rows).mem_iff.mp member)

theorem canonicalBytes_sorted_iff (distinct : (rows.map ExportedRow.primaryKey).Nodup)
    (held : HeldRows rows) (held' : HeldRows rows') :
    canonicalBytes (sortRows rows) = canonicalBytes (sortRows rows') ↔ rows.Perm rows' := by
  constructor
  · intro bytes
    have sorted := rows_code.injective held.sorted held'.sorted bytes
    exact ((sortRows_perm rows).symm.trans (sorted ▸ List.Perm.refl _)).trans (sortRows_perm rows')
  · intro same
    rw [sortRows_congr distinct same]

end Sorting

section Identity

variable {H E : Type}

/-- The bytes of the sorted rows, and with them the hash, tell exactly which rows there are;
the hash of an export does not depend on the order in which the rows are delivered. -/
theorem content_hash_identifies_rows (rows rows' : List Row)
    (distinct : (rows.map ExportedRow.primaryKey).Nodup)
    (held : HeldRows rows) (held' : HeldRows rows') (xxh3 : Bytes → H)
    (injective : xxh3 (canonicalBytes (sortRows rows)) = xxh3 (canonicalBytes (sortRows rows')) →
      canonicalBytes (sortRows rows) = canonicalBytes (sortRows rows')) :
    (canonicalBytes (sortRows rows) = canonicalBytes (sortRows rows') ↔ rows.Perm rows') ∧
      (canonicalContentHash xxh3 (sortRows rows) = canonicalContentHash xxh3 (sortRows rows') ↔
        rows.Perm rows') ∧
      (rows.Perm rows' → ∀ (dedup : Bool) (applyPrecision : List Row → Except E (List Row)),
        exportHash xxh3 dedup applyPrecision rows =
          exportHash xxh3 dedup applyPrecision rows') := by
  have bytes := canonicalBytes_sorted_iff distinct held held'
  refine ⟨bytes, ⟨fun hashes => bytes.mp (injective hashes), fun same => ?_⟩, ?_⟩
  · exact congrArg xxh3 (bytes.mpr same)
  · intro same dedup applyPrecision
    have empty : rows = [] ↔ rows' = [] := by
      rw [← length_eq_zero_iff, same.length_eq, length_eq_zero_iff]
    simp only [exportHash, sortRows_congr distinct same, empty]

/-- Two rows with all forms of fields, delivered in two orders. -/
def sampleRows : List Row :=
  [⟨ascii "b", [.int64 (-1), .utf8 (ascii "x"), .null], some 7⟩,
    ⟨ascii "a", [.float32 0x80000000, .binary [2, 0], .embedding [1, 2]], none⟩]

theorem content_hash_identifies_sample :
    canonicalBytes (sortRows sampleRows) = canonicalBytes (sortRows sampleRows.reverse) ∧
      canonicalBytes (sortRows sampleRows) ≠ canonicalBytes (sortRows (sampleRows.take 1)) := by
  have held : HeldRows sampleRows := by
    refine ⟨by decide, fun row member => ?_⟩
    simp only [sampleRows, mem_cons, not_mem_nil, or_false] at member
    obtain rfl | rfl := member
    all_goals refine ⟨by decide, by decide, ?_⟩; simp [FieldValue.Held, ascii]
  have reversed : HeldRows sampleRows.reverse :=
    ⟨by decide, fun row member => held.rows row (mem_reverse.mp member)⟩
  have first : HeldRows (sampleRows.take 1) :=
    ⟨by decide, fun row member => held.rows row (mem_of_mem_take member)⟩
  have both := content_hash_identifies_rows (E := Empty) sampleRows sampleRows.reverse (by decide)
    held reversed id id
  have one := content_hash_identifies_rows (E := Empty) sampleRows (sampleRows.take 1) (by decide)
    held first id id
  refine ⟨both.1.mpr (reverse_perm _).symm, fun same => ?_⟩
  have lengths := (one.1.mp same).length_eq
  revert lengths
  decide

end Identity

end GalaxDb.Versioning.ContentHash
