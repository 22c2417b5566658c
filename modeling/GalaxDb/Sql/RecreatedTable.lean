import GalaxDb.Sql.DropTable
import GalaxDb.Vector.SemanticCache

/-!
# A table under the name of a dropped one

Beside the engine the database keeps a vector index for each table with an embedding column,
in memory and in a snapshot file, and the store has the configurations of the semantic caches.
DROP TABLE removes none of them. CREATE TABLE puts a new index in the place of the old one if
the new table has an embedding column, and a restart builds all indexes again.
-/

namespace GalaxDb.Sql

open Bytes Executor SecondaryIndex CatalogStore AuthStore MapDatabase Ann List

namespace SemanticCacheStore

def configPrefix : Bytes := 0 :: ascii "galaxdb_semcache" ++ [0]

/-- `similarity: f32` by its bits. -/
structure CacheConfig where
  similarity : UInt32
  ttlSecs : UInt32

def CacheConfig.toBytes (c : CacheConfig) : Bytes :=
  toLe 4 c.similarity.toNat ++ toLe 4 c.ttlSecs.toNat

def CacheConfig.fromBytes (bytes : Bytes) : Option CacheConfig :=
  if bytes.length < 8 then none
  else some ⟨(ofLe (bytes.take 4)).toUInt32, (ofLe ((bytes.drop 4).take 4)).toUInt32⟩

def configKey (table : Bytes) : Bytes := configPrefix ++ table

variable (store : Store) (table : Bytes)

def put (config : CacheConfig) : Store := store.insert (configKey table) config.toBytes

def get : Option CacheConfig := store[configKey table]?.bind CacheConfig.fromBytes

def dropConfig : Store := if (get store table).isSome then store.erase (configKey table) else store

def loadAll : List (Bytes × CacheConfig) :=
  (store.scanPrefix configPrefix).filterMap fun r =>
    (CacheConfig.fromBytes r.2).map fun config => (r.1.drop configPrefix.length, config)

variable {store table}

theorem mem_loadAll {config : CacheConfig} :
    (table, config) ∈ loadAll store ↔ get store table = some config := by
  simp only [loadAll, mem_filterMap, Option.map_eq_some_iff, Prod.mk.injEq, get,
    Option.bind_eq_some_iff]
  constructor
  · rintro ⟨⟨k, v⟩, there, config, decoded, rfl, rfl⟩
    obtain ⟨⟨rest, rfl⟩, stored⟩ := Store.mem_scanPrefix.mp there
    exact ⟨v, by simpa [configKey] using stored, decoded⟩
  · rintro ⟨v, stored, decoded⟩
    exact ⟨(configKey table, v), Store.mem_scanPrefix.mpr ⟨prefix_append .., stored⟩, config,
      decoded, by simp [configKey], rfl⟩

end SemanticCacheStore

open SemanticCacheStore (CacheConfig configPrefix)

section VectorIndexes

/-- What the vector backend takes from elsewhere: its numbers, the embedding that the sidecar
gives the text of a column, and the number that the bits of an `f32` stand for. -/
structure VectorBackend (V D : Type) extends Scoring V D where
  embed : Bytes → Bytes → V
  float : UInt32 → D

/-- The catalog and the engine, the vector indexes in memory, and the vectors of the snapshot
files, by the hash in the file's name. -/
structure EmbeddedDatabase (V D : Type) where
  database : MapDatabase
  indexes : Bytes → Option (TableIndex V D)
  snapshots : UInt64 → Option (Bytes → Option V)

variable {V D : Type}

namespace VectorBackend

variable (backend : VectorBackend V D)

/-- An index without vectors, whose cache is off. -/
def newIndex (column : Bytes) (dim : Nat) : TableIndex V D :=
  ⟨column, dim, ⟨fun _ _ _ => [], .new, ∅⟩, ∅, .new (backend.float 0x3f800000)⟩

/-- What a search for an embedded query returns. -/
def semanticSearch [LinearOrder D] (indexes : Bytes → Option (TableIndex V D)) (table : Bytes)
    (q : Ann.Query V) (now : Nat) : Except SqlError (Results D) :=
  match indexes table with
  | none => .error (.tableNotFound table)
  | some index =>
    match (index.semanticCache.lookup backend.toScoring q now).2 with
    | some cached => .ok cached.results
    | none =>
      .ok (executeSemanticMatch backend.toScoring index.contents q.embedding q.thresholdBits q.k)

/-- The vector of a row is the one that the snapshot has for its key, or else embedded again. -/
def rebuildRow (column : Bytes) (snapshot : Bytes → Option V) (built : Option (TableIndex V D))
    (row : BufferedRow) : Option (TableIndex V D) :=
  match row.2.find? fun c => c.1 = column with
  | some (_, .text text) =>
    let rowId := backend.xxh3 row.1
    let embedding := (snapshot row.1).getD (backend.embed column text)
    let index := built.getD (backend.newIndex column (backend.dim embedding))
    some { index with
      contents := { index.contents with
        delta := index.contents.delta.insert rowId embedding
        vectors := index.contents.vectors.insert rowId embedding }
      keyToRowId := index.keyToRowId.insert row.1 rowId }
  | _ => built

def rebuildIndex (column : Bytes) (snapshot : Bytes → Option V) (rows : List BufferedRow) :
    TableIndex V D :=
  (rows.foldl (backend.rebuildRow column snapshot) none).getD
    (backend.newIndex column (backend.dim (backend.embed column (ascii "dimension probe"))))

def configure (config : CacheConfig) (index : TableIndex V D) : TableIndex V D :=
  { index with
    semanticCache :=
      index.semanticCache.configure (backend.float config.similarity) config.ttlSecs.toNat }

end VectorBackend

/-- The vectors that `serialize_vindex` writes. -/
def serializeVindex (index : TableIndex V D) (key : Bytes) : Option V :=
  index.keyToRowId[key]?.bind fun rowId => index.contents.vectors[rowId]?

def embeddingSource (columns : List StoredColumn) : Option StoredColumn :=
  columns.find? fun c => c.isEmbeddingSource

namespace EmbeddedDatabase

variable (backend : VectorBackend V D) (db : EmbeddedDatabase V D)

def snapshotOf (table : Bytes) : Bytes → Option V :=
  (db.snapshots (backend.xxh3 table)).getD fun _ => none

/-- `dimensions` as the embedding column declares them. -/
def execCreateTable (table : Bytes) (columns : List StoredColumn) (dimensions : Option Nat) :
    EmbeddedDatabase V D × Except SqlError ExecuteResult :=
  let (database, result) := db.database.exec (.createTable table columns)
  match result, embeddingSource columns with
  | .ok _, some column =>
    ({ db with
        database
        indexes := Function.update db.indexes table
          (some (backend.newIndex column.name (dimensions.getD 128))) }, result)
  | _, _ => ({ db with database }, result)

def execDropTable (table : Bytes) (ifExists : Bool) :
    EmbeddedDatabase V D × Except SqlError ExecuteResult :=
  let (database, result) := db.database.exec (.dropTable table ifExists)
  ({ db with database }, result)

/-- The index of a table is built from its rows, and its snapshot written again. -/
def rebuildTable (t : StoredTable) : EmbeddedDatabase V D :=
  match embeddingSource t.columns with
  | some column =>
    if t.hasEmbedding then
      let index := backend.rebuildIndex column.name (db.snapshotOf backend t.name)
        (decodeRows (db.database.store.scanPrefix (tablePrefix t.name)))
      { db with
        indexes := Function.update db.indexes t.name (some index)
        snapshots := Function.update db.snapshots (backend.xxh3 t.name)
          (some (serializeVindex index)) }
    else db
  | none => db

def configureCache (c : Bytes × CacheConfig) : EmbeddedDatabase V D :=
  { db with indexes :=
    Function.update db.indexes c.1 ((db.indexes c.1).map (backend.configure c.2)) }

def rebuildVectorIndexes : EmbeddedDatabase V D :=
  (SemanticCacheStore.loadAll db.database.store).foldl (configureCache backend)
    (db.database.catalog.foldl (rebuildTable backend) db)

/-- Closed, opened again, and a sidecar attached that answers. -/
def reopen : Except SqlError (EmbeddedDatabase V D) :=
  db.database.reopen.map fun database =>
    rebuildVectorIndexes backend ⟨database, fun _ => none, db.snapshots⟩

/-- DROP TABLE and CREATE TABLE of the same name. -/
def recreate (table : Bytes) (ifExists : Bool) (columns : List StoredColumn)
    (dimensions : Option Nat) : EmbeddedDatabase V D × Except SqlError ExecuteResult :=
  (db.execDropTable table ifExists).1.execCreateTable backend table columns dimensions

end EmbeddedDatabase

/-- Statements, restarts, and the statements on semantic caches. -/
inductive Event where
  | act (a : MapDatabase.Act)
  | createSemanticCache (table : Bytes) (config : CacheConfig)
  | dropSemanticCache (table : Bytes)

def Event.Documented (db : MapDatabase) : Event → Prop
  | .act a => a.Documented db
  | _ => True

instance (db : MapDatabase) (e : Event) : Decidable (e.Documented db) := by
  unfold Event.Documented
  split <;> infer_instance

/-- What an event does to the catalog and the engine. -/
def MapDatabase.next (db : MapDatabase) : Event → Option MapDatabase
  | .act a => db.step a
  | .createSemanticCache table config =>
    if db.catalog.any fun t => t.name = table ∧ t.hasEmbedding then
      some { db with store := SemanticCacheStore.put db.store table config }
    -- without such a table an error
    else some db
  | .dropSemanticCache table =>
    some { db with store := SemanticCacheStore.dropConfig db.store table }

end VectorIndexes

section Searches

variable {V D : Type} {backend : VectorBackend V D} {table column : Bytes}

theorem semanticSearch_newIndex [LinearOrder D] {indexes : Bytes → Option (TableIndex V D)}
    {dim : Nat} (there : indexes table = some (backend.newIndex column dim)) (q : Ann.Query V)
    (now : Nat) : backend.semanticSearch indexes table q now = .ok [] := by
  simp [VectorBackend.semanticSearch, there, VectorBackend.newIndex, SemanticCache.lookup,
    SemanticCache.new, executeSemanticMatch, DeltaBuffer.search, DeltaBuffer.new, unionAndRerank,
    sortResults, Ranking.rank]

variable {snapshot : Bytes → Option V} {rows : List BufferedRow}

/-- Only the vectors of the keys matter that the rows have. -/
theorem rebuildIndex_congr {snapshot' : Bytes → Option V}
    (same : ∀ r ∈ rows, snapshot r.1 = snapshot' r.1) :
    backend.rebuildIndex column snapshot rows = backend.rebuildIndex column snapshot' rows := by
  have folded : rows.foldl (backend.rebuildRow column snapshot) none =
      rows.foldl (backend.rebuildRow column snapshot') none := by
    apply foldl_ext
    intro built r there
    simp only [VectorBackend.rebuildRow, same r there]
  rw [VectorBackend.rebuildIndex, folded, VectorBackend.rebuildIndex]

/-- Every key of a rebuilt index is one of a row. -/
theorem serializeVindex_rebuildIndex {key : Bytes} (absent : key ∉ rows.map Prod.fst) :
    serializeVindex (backend.rebuildIndex column snapshot rows) key = none := by
  have unknown : ∀ (rows : List BufferedRow) (built : Option (TableIndex V D)),
      key ∉ rows.map Prod.fst → (∀ index ∈ built, index.keyToRowId[key]? = none) →
        ∀ index ∈ rows.foldl (backend.rebuildRow column snapshot) built,
          index.keyToRowId[key]? = none := by
    intro rows
    induction rows with
    | nil => exact fun _ _ before => before
    | cons r rest ih =>
      intro built absent before
      rw [map_cons, mem_cons, not_or] at absent
      apply ih _ absent.2
      intro index there
      rw [VectorBackend.rebuildRow] at there
      split at there
      · obtain rfl := Option.some.inj there
        have other : compare r.1 key ≠ .eq :=
          fun eq => absent.1 (Std.LawfulEqOrd.eq_of_compare eq).symm
        rw [Std.ExtTreeMap.getElem?_insert, if_neg other]
        cases built with
        | none => simp [VectorBackend.newIndex]
        | some index => exact before index rfl
      · exact before index there
  have nothing : (backend.rebuildIndex column snapshot rows).keyToRowId[key]? = none := by
    rw [VectorBackend.rebuildIndex]
    cases built : rows.foldl (backend.rebuildRow column snapshot) none with
    | none => simp [VectorBackend.newIndex]
    | some index => exact unknown rows none absent (by simp) index built
  rw [serializeVindex, nothing, Option.bind_none]

end Searches

section Rebuilding

variable {V D : Type} {backend : VectorBackend V D} {db : EmbeddedDatabase V D} {table : Bytes}

open EmbeddedDatabase

theorem rebuildTable_database (t : StoredTable) :
    (db.rebuildTable backend t).database = db.database := by
  rw [rebuildTable]
  split
  · split <;> rfl
  · rfl

theorem rebuildTables_database (tables : List StoredTable) :
    (tables.foldl (rebuildTable backend) db).database = db.database := by
  induction tables generalizing db with
  | nil => rfl
  | cons t rest ih => rw [foldl_cons, ih, rebuildTable_database]

variable {configs : List (Bytes × CacheConfig)} {columns : List StoredColumn}
  {tables : List StoredTable}

theorem rebuildTables_other (other : ∀ t ∈ tables, t.name ≠ table) :
    (tables.foldl (rebuildTable backend) db).indexes table = db.indexes table := by
  induction tables generalizing db with
  | nil => rfl
  | cons t rest ih =>
    rw [foldl_cons, ih fun t' there => other t' (mem_cons_of_mem _ there), rebuildTable]
    have here := (other t mem_cons_self).symm
    split
    · split
      · exact Function.update_of_ne here _ _
      · rfl
    · rfl

/-- The index of a table without rows is a new one. -/
theorem rebuildTables_empty {tables : List StoredTable} {t : StoredTable} (listed : t ∈ tables)
    (distinct : (tables.map StoredTable.name).Nodup)
    (empty : db.database.store.scanPrefix (tablePrefix t.name) = [])
    (flag : t.hasEmbedding = (embeddingSource t.columns).isSome) :
    (tables.foldl (rebuildTable backend) db).indexes t.name = match embeddingSource t.columns with
      | some column => some (backend.newIndex column.name
          (backend.dim (backend.embed column.name (ascii "dimension probe"))))
      | none => db.indexes t.name := by
  obtain ⟨before, after, rfl⟩ := append_of_mem listed
  simp only [map_append, map_cons, nodup_append, nodup_cons,
    mem_cons] at distinct
  have later : ∀ t' ∈ after, t'.name ≠ t.name := fun t' there same =>
    distinct.2.1.1 (same ▸ mem_map_of_mem there)
  have earlier : ∀ t' ∈ before, t'.name ≠ t.name := fun t' there =>
    distinct.2.2 _ (mem_map_of_mem there) _ (Or.inl rfl)
  rw [foldl_append, foldl_cons, rebuildTables_other later, rebuildTable,
    rebuildTables_database, empty]
  cases source : embeddingSource t.columns with
  | none => exact rebuildTables_other earlier
  | some column =>
    rw [source] at flag
    simp [flag, decodeRows, VectorBackend.rebuildIndex]

theorem newTable_flag : (newTable table columns).hasEmbedding =
    (embeddingSource (newTable table columns).columns).isSome := by
  rw [Bool.eq_iff_iff]
  simp [newTable, embeddingSource]

/-- No snapshot that is read for a table has a vector of it: of a snapshot that is written again,
the keys are those of rows. -/
theorem rebuildTables_unsaved (empty : db.database.store.scanPrefix (tablePrefix table) = [])
    (unsaved : ∀ key, tablePrefix table <+: key → db.snapshotOf backend table key = none) :
    ∀ key, tablePrefix table <+: key →
      (tables.foldl (rebuildTable backend) db).snapshotOf backend table key = none := by
  induction tables generalizing db with
  | nil => exact unsaved
  | cons t rest ih =>
    apply ih
    · rw [rebuildTable_database]
      exact empty
    · intro key inside
      rw [rebuildTable]
      split
      · split
        · simp only [snapshotOf, Function.update_apply]
          split
          · apply serializeVindex_rebuildIndex
            intro there
            simp only [decodeRows, map_map, mem_map] at there
            obtain ⟨r, stored, rfl⟩ := there
            have row := (Store.mem_scanPrefix.mp stored).2
            simp [scanPrefix_eq_nil_iff.mp empty r.1 inside] at row
          · exact unsaved key inside
        · exact unsaved key inside
      · exact unsaved key inside

theorem configureCaches_other (other : ∀ c ∈ configs, c.1 ≠ table) :
    (configs.foldl (configureCache backend) db).indexes table = db.indexes table := by
  induction configs generalizing db with
  | nil => rfl
  | cons c rest ih =>
    rw [foldl_cons, ih fun c' there => other c' (mem_cons_of_mem _ there)]
    exact Function.update_of_ne (other c mem_cons_self).symm _ _

theorem configureCaches_frame (configs : List (Bytes × CacheConfig)) :
    (configs.foldl (configureCache backend) db).database = db.database ∧
      (configs.foldl (configureCache backend) db).snapshots = db.snapshots := by
  induction configs generalizing db with
  | nil => exact ⟨rfl, rfl⟩
  | cons c rest ih => exact ih

/-- Only indexes that there are have caches. -/
theorem configureCaches_none (none : db.indexes table = none) :
    (configs.foldl (configureCache backend) db).indexes table = .none := by
  induction configs generalizing db with
  | nil => exact none
  | cons c rest ih =>
    apply ih
    by_cases here : c.1 = table
    · subst here
      simp [configureCache, none]
    · exact (Function.update_of_ne (Ne.symm here) _ _).trans none

/-- An index whose cache is on. -/
def CacheOn (db : EmbeddedDatabase V D) (table : Bytes) : Prop :=
  ∃ index, db.indexes table = some index ∧ index.semanticCache.enabled = true

theorem configureCaches_on {index : TableIndex V D} (there : db.indexes table = some index)
    (on : index.semanticCache.enabled = true ∨ ∃ c ∈ configs, c.1 = table) :
    CacheOn (configs.foldl (configureCache backend) db) table := by
  induction configs generalizing db index with
  | nil => exact ⟨index, there, on.resolve_right (by simp)⟩
  | cons c rest ih =>
    by_cases here : c.1 = table
    · subst here
      refine @ih _ (backend.configure c.2 index) ?_ ?_
      · simp [configureCache, there]
      · exact Or.inl rfl
    · refine @ih _ index ?_ ?_
      · exact (Function.update_of_ne (Ne.symm here) _ _).trans there
      · simpa [here] using on

/-- The index that a table gets: a new one, or the one that is left if no column is embedded. -/
def IndexedAs (backend : VectorBackend V D) (columns : List StoredColumn)
    (left : Option (TableIndex V D)) (index : Option (TableIndex V D)) : Prop :=
  match embeddingSource columns with
  | some column => ∃ dim, index = some (backend.newIndex column.name dim)
  | none => index = left

variable (backend db)

theorem rebuildVectorIndexes_frame : (db.rebuildVectorIndexes backend).database = db.database ∧
    (db.rebuildVectorIndexes backend).snapshots =
      (db.database.catalog.foldl (rebuildTable backend) db).snapshots := by
  rw [rebuildVectorIndexes, (configureCaches_frame _).1, (configureCaches_frame _).2]
  exact ⟨rebuildTables_database _, rfl⟩

/-- A table without rows gets a new index, -/
theorem rebuildVectorIndexes_indexed (listed : newTable table columns ∈ db.database.catalog)
    (distinct : (db.database.catalog.map StoredTable.name).Nodup)
    (empty : db.database.store.scanPrefix (tablePrefix table) = [])
    (fresh : db.indexes table = none) (unconfigured : (embeddingSource columns).isSome →
      SemanticCacheStore.get db.database.store table = none) :
    IndexedAs backend columns none ((db.rebuildVectorIndexes backend).indexes table) := by
  have rebuilt := @rebuildTables_empty _ _ backend _ _ _ listed distinct empty newTable_flag
  rw [rebuildVectorIndexes, IndexedAs]
  cases source : embeddingSource columns with
  | none =>
    apply configureCaches_none
    exact rebuilt.trans (by simp [newTable, source, fresh])
  | some column =>
    have others : ∀ c ∈ SemanticCacheStore.loadAll db.database.store, c.1 ≠ table := by
      rintro ⟨name, config⟩ there rfl
      rw [SemanticCacheStore.mem_loadAll, unconfigured (by simp [source])] at there
      cases there
    rw [configureCaches_other others]
    refine ⟨backend.dim (backend.embed column.name (ascii "dimension probe")), rebuilt.trans ?_⟩
    simp [newTable, source]

/-- and one whose cache is on if it is configured. -/
theorem rebuildVectorIndexes_on (listed : newTable table columns ∈ db.database.catalog)
    (distinct : (db.database.catalog.map StoredTable.name).Nodup)
    (empty : db.database.store.scanPrefix (tablePrefix table) = [])
    (source : (embeddingSource columns).isSome) {config : CacheConfig}
    (configured : SemanticCacheStore.get db.database.store table = some config) :
    CacheOn (db.rebuildVectorIndexes backend) table := by
  have rebuilt := @rebuildTables_empty _ _ backend _ _ _ listed distinct empty newTable_flag
  obtain ⟨column, source⟩ := Option.isSome_iff_exists.mp source
  simp only [newTable, source] at rebuilt
  exact configureCaches_on rebuilt (Or.inr ⟨_, SemanticCacheStore.mem_loadAll.mpr configured, rfl⟩)

end Rebuilding

section Recreating

variable {V D : Type} {backend : VectorBackend V D} {db : EmbeddedDatabase V D} {table : Bytes}
  {columns : List StoredColumn}

theorem Cataloged.next {db db' : MapDatabase} (h : Cataloged db) {e : Event}
    (documented : e.Documented db) (stepped : db.next e = some db') : Cataloged db' := by
  have apart : ∀ {k : Bytes}, catalogKeyPrefix <+: k → ¬ configPrefix <+: k :=
    fun inside => (by decide : Apart catalogKeyPrefix configPrefix).excludes inside
  cases e with
  | act a => exact h.step documented stepped
  | createSemanticCache name config =>
    rw [MapDatabase.next] at stepped
    split at stepped
    · obtain rfl := Option.some.inj stepped
      exact h.of_same rfl fun k inside =>
        getElem?_insert_under _ _ (prefix_append ..) (apart inside)
    · obtain rfl := Option.some.inj stepped
      exact h
  | dropSemanticCache name =>
    obtain rfl := Option.some.inj stepped
    refine h.of_same rfl fun k inside => ?_
    simp only [SemanticCacheStore.dropConfig]
    split
    · exact getElem?_erase_under _ (prefix_append ..) (apart inside)
    · rfl

theorem recreate_eq (table : Bytes) (ifExists : Bool) (columns : List StoredColumn)
    (dimensions : Option Nat) :
    (db.recreate backend table ifExists columns dimensions).1.database =
        (Sql.recreate db.database table ifExists columns).1 ∧
      (db.recreate backend table ifExists columns dimensions).2 =
        (Sql.recreate db.database table ifExists columns).2 ∧
      (db.recreate backend table ifExists columns dimensions).1.snapshots = db.snapshots := by
  simp only [EmbeddedDatabase.recreate, EmbeddedDatabase.execCreateTable,
    EmbeddedDatabase.execDropTable, Sql.recreate]
  split <;> exact ⟨rfl, rfl, rfl⟩

theorem recreate_indexes {ifExists : Bool} {dimensions : Option Nat} {result : ExecuteResult}
    (created : (db.recreate backend table ifExists columns dimensions).2 = .ok result) :
    (db.recreate backend table ifExists columns dimensions).1.indexes table =
      match embeddingSource columns with
      | some column => some (backend.newIndex column.name (dimensions.getD 128))
      | none => db.indexes table := by
  rw [(recreate_eq ..).2.1, Sql.recreate] at created
  simp only [EmbeddedDatabase.recreate, EmbeddedDatabase.execCreateTable,
    EmbeddedDatabase.execDropTable, created]
  cases embeddingSource columns <;> simp

end Recreating

section LikeNew

open EmbeddedDatabase

variable {V D : Type} [LinearOrder D] {backend : VectorBackend V D} {db : EmbeddedDatabase V D}
  {table : Bytes} {columns : List StoredColumn}

/-- A table as one that never was. A search finds nothing, or no index if no column is embedded;
no cache is on; and whatever rows the table gets, their vectors are embedded, none is read. -/
structure LikeNew (backend : VectorBackend V D) (db : EmbeddedDatabase V D) (table : Bytes)
    (columns : List StoredColumn) : Prop extends StoredLikeNew db.database table where
  searches : ∀ q now, backend.semanticSearch db.indexes table q now =
    if (embeddingSource columns).isSome then .ok [] else .error (.tableNotFound table)
  uncached : ¬ CacheOn db table
  embedded : ∀ column, embeddingSource columns = some column → ∀ embed rows,
    (∀ r ∈ rows, tablePrefix table <+: r.1) →
      { backend with embed }.rebuildIndex column.name (db.snapshotOf backend table) rows =
        { backend with embed }.rebuildIndex column.name (fun _ => none) rows

/-- Nothing is stored under the name. For a table without an embedding column there is no index
in memory; for one with an embedding column no cache is configured, and the snapshot file has no
vector of its rows. -/
structure NoLeftovers (backend : VectorBackend V D) (db : EmbeddedDatabase V D) (table : Bytes)
    (columns : List StoredColumn) : Prop extends NothingStored db.database.store table where
  unsearched : embeddingSource columns = none → db.indexes table = none
  unconfigured : (embeddingSource columns).isSome →
    SemanticCacheStore.get db.database.store table = none
  unsaved : (embeddingSource columns).isSome →
    ∀ key, tablePrefix table <+: key → db.snapshotOf backend table key = none

theorem likeNew_iff [Nontrivial V] {left : Option (TableIndex V D)}
    (stored : StoredLikeNew db.database table ↔ NothingStored db.database.store table)
    (indexed : IndexedAs backend columns left (db.indexes table)) :
    LikeNew backend db table columns ↔ NothingStored db.database.store table ∧
      (embeddingSource columns = none → left = none) ∧ ((embeddingSource columns).isSome →
        ∀ key, tablePrefix table <+: key → db.snapshotOf backend table key = none) := by
  rw [IndexedAs] at indexed
  cases source : embeddingSource columns with
  | none =>
    rw [source] at indexed
    constructor
    · intro new
      refine ⟨stored.mp new.toStoredLikeNew, fun _ => ?_, by simp⟩
      obtain ⟨v⟩ : Nonempty V := inferInstance
      have missing := new.searches ⟨v, "", 0, 0⟩ 0
      rw [source] at missing
      cases there : db.indexes table with
      | none => exact indexed.symm.trans there
      | some index =>
        simp only [VectorBackend.semanticSearch, there] at missing
        split at missing <;> cases missing
    · rintro ⟨clean, gone, -⟩
      have none : db.indexes table = none := indexed.trans (gone rfl)
      refine ⟨stored.mpr clean, ?_, ?_, ?_⟩
      · simp [VectorBackend.semanticSearch, none, source]
      · simp [CacheOn, none]
      · simp [source]
  | some column =>
    rw [source] at indexed
    obtain ⟨dim, indexed⟩ := indexed
    constructor
    · intro new
      refine ⟨stored.mp new.toStoredLikeNew, by simp, fun _ key inside => ?_⟩
      cases saved : db.snapshotOf backend table key with
      | none => rfl
      | some v =>
        obtain ⟨v', other⟩ := exists_ne v
        have same := new.embedded column source (fun _ _ => v') [(key, [(column.name, .text [])])]
          (by simpa using inside)
        simp [VectorBackend.rebuildIndex, VectorBackend.rebuildRow, saved, VectorBackend.newIndex,
          DeltaBuffer.insert, DeltaBuffer.new, other.symm] at same
    · rintro ⟨clean, -, unsaved⟩
      refine ⟨stored.mpr clean, ?_, ?_, ?_⟩
      · intro q now
        rw [semanticSearch_newIndex indexed, source]
        rfl
      · simp [CacheOn, indexed, VectorBackend.newIndex, SemanticCache.new]
      · intro column' _ embed rows inside
        exact rebuildIndex_congr fun r there => unsaved rfl r.1 (inside r there)

/-- Vectors of one bit. -/
def bitBackend : VectorBackend Bool Nat :=
  ⟨⟨fun a b => if a = b then 0 else 1, fun a b => if a = b then 1 else 0, fun d =>
    1 - d, fun _ => 0,
    fun _ => 1, fun key => key.length.toUInt64⟩, fun _ text => text ≠ [], fun _ => 1⟩

/-- The columns of a table whose texts are embedded. -/
def documents : List StoredColumn :=
  [⟨⟨ascii "id", true, false⟩, ascii "INT", false⟩,
    ⟨⟨ascii "body", false, true⟩, ascii "TEXT", true⟩]

theorem ok_of_toOption {ε α : Type} {r : Except ε α} (h : r.toOption.isSome) : ∃ a, r = .ok a := by
  cases r with
  | ok a => exact ⟨a, rfl⟩
  | error e => cases h

end LikeNew

end GalaxDb.Sql
