import GalaxDb.Sql.IndexAccess
import GalaxDb.Sql.RowRoundTrip

/-!
# DROP TABLE and what it leaves

DROP TABLE removes the definition of the table, in memory and in the store. Rows, index
definitions with their entries and grants stay under their keys, and a new table of the
name finds them again.
-/

namespace GalaxDb.Sql

open Std Bytes Executor SecondaryIndex CatalogStore AuthStore MapDatabase List

/-- Names and types without a line break, as the record format takes them to be. -/
def StoredTable.OneLine (t : StoredTable) : Prop :=
  (10 : UInt8) ∉ t.name ∧ (∀ c ∈ t.columns, (10 : UInt8) ∉ c.name ∧ (10 : UInt8) ∉ c.dataType) ∧
    t.columns.length < 2 ^ 64

instance (t : StoredTable) : Decidable t.OneLine := inferInstanceAs (Decidable (_ ∧ _ ∧ _))

theorem parseBool_boolStr (b : Bool) : parseBool (boolStr b) = some b := by
  cases b <;> decide

theorem parseStorage_storageStr (m : StorageMode) : parseStorage (storageStr m) = some m := by
  cases m <;> decide

theorem decodeColumns_lines (columns : List StoredColumn) (rest : List Bytes) :
    decodeColumns columns.length (columns.flatMap columnLines ++ rest) = some columns := by
  induction columns with
  | nil => rfl
  | cons c later ih =>
    simp [decodeColumns, columnLines, parseBool_boolStr, ih]

theorem not_newline_of_digit {n : Nat} : (10 : UInt8) ∉ natDigits n :=
  fun h => absurd (natDigits_digit h) (by decide)

theorem not_newline_boolStr (b : Bool) : (10 : UInt8) ∉ boolStr b := by cases b <;> decide

variable {t : StoredTable}

theorem splitOn_encodeTableEntry (oneLine : t.OneLine) :
    (encodeTableEntry t).splitOn 10 = tableLines t := by
  apply splitOn_intercalate
  · intro line there
    simp only [tableLines, cons_append, nil_append, mem_cons, mem_flatMap,
      columnLines, not_mem_nil, or_false] at there
    rcases there with rfl | rfl | rfl | rfl | rfl | rfl | ⟨c, hc, rfl | rfl | rfl | rfl | rfl⟩
    · decide
    · exact oneLine.1
    · exact not_newline_boolStr _
    · exact not_newline_boolStr _
    · cases t.storageMode <;> decide
    · exact not_newline_of_digit
    · exact (oneLine.2.1 c hc).1
    · exact (oneLine.2.1 c hc).2
    · exact not_newline_boolStr _
    · exact not_newline_boolStr _
    · exact not_newline_boolStr _
  · simp [tableLines]

theorem decodeTableEntry_encodeTableEntry (oneLine : t.OneLine) :
    decodeTableEntry (encodeTableEntry t) = some t := by
  have magic : catalogMagic ++ natDigits catalogFormatVersion = ascii "GXCAT1" := by decide
  have columns := decodeColumns_lines t.columns []
  rw [append_nil] at columns
  rw [decodeTableEntry, splitOn_encodeTableEntry oneLine]
  simp [tableLines, decodeLines, magic, parseBool_boolStr, parseStorage_storageStr,
    parseU64_natDigits oneLine.2.2, columns]

/-- Whatever the names are, the first line is the tag. -/
theorem catalogRecordVersion_encodeTableEntry (t : StoredTable) :
    catalogRecordVersion (encodeTableEntry t) = some 1 := by
  have tag : (10 : UInt8) ∉ catalogMagic ++ natDigits catalogFormatVersion := by decide
  have lines : encodeTableEntry t = (catalogMagic ++ natDigits catalogFormatVersion) ++
      10 :: [10].intercalate (tableLines t).tail := by
    simp [encodeTableEntry, tableLines]
  rw [catalogRecordVersion, lines, splitOn_append_cons_self_of_not_mem tag, head?_cons]
  decide

/-- Records of the current version are all read. -/
theorem loadRecords_ok {records : List Bytes}
    (current : ∀ bytes ∈ records, catalogRecordVersion bytes = some 1) :
    loadRecords records = .ok (records.filterMap decodeTableEntry) := by
  induction records with
  | nil => rfl
  | cons bytes rest ih =>
    have here := current bytes mem_cons_self
    have later := ih fun bytes' h => current bytes' (mem_cons_of_mem _ h)
    have version : checkVersion 1 = .ok () := rfl
    simp only [loadRecords, here, later, version, bind, Except.bind]
    cases decoded : decodeTableEntry bytes <;> simp [decoded]

/-- A list with one definition for each name is taken as it is. -/
theorem catalogOf_eq {loaded : List StoredTable}
    (distinct : (loaded.map StoredTable.name).Nodup) : catalogOf loaded = loaded := by
  have general : ∀ (later catalog : List StoredTable),
      ((catalog ++ later).map StoredTable.name).Nodup →
        later.foldl (fun catalog t => if catalog.any fun t' => t'.name = t.name then catalog
          else catalog ++ [t]) catalog = catalog ++ later := by
    intro later
    induction later with
    | nil => simp
    | cons t rest ih =>
      intro catalog distinct
      have new : (catalog.any fun t' => t'.name = t.name) = false := by
        rw [any_eq_false]
        intro t' there same
        have apart := (nodup_append.mp (by simpa using distinct)).2.2 t'.name
          (mem_map_of_mem there) t.name (by simp)
        exact apart (by simpa using same)
      have shifted := ih (catalog ++ [t]) (by simpa using distinct)
      rw [foldl_cons, new]
      simpa using shifted
  simpa [catalogOf] using general loaded [] (by simpa using distinct)

section Catalog

/-- The records in the store are those of the catalog in memory. -/
structure Cataloged (db : MapDatabase) : Prop where
  plain : ∀ t ∈ db.catalog, PlainName t.name ∧ t.OneLine
  distinct : (db.catalog.map StoredTable.name).Nodup
  recorded : ∀ k v, catalogKeyPrefix <+: k →
    (db.store[k]? = some v ↔ ∃ t ∈ db.catalog, k = catalogKey t.name ∧ v = encodeTableEntry t)

theorem cataloged_empty : Cataloged .empty where
  plain t there := by simp [MapDatabase.empty] at there
  distinct := by simp [MapDatabase.empty]
  recorded k v _ := by simp [MapDatabase.empty]

variable {db : MapDatabase}

theorem Cataloged.eq_of_name (h : Cataloged db) {t t' : StoredTable} (ht : t ∈ db.catalog)
    (ht' : t' ∈ db.catalog) (name : t.name = t'.name) : t = t' :=
  inj_on_of_nodup_map h.distinct ht ht' name

/-- A restart finds the same tables. -/
theorem Cataloged.reopen (h : Cataloged db) :
    ∃ tables, db.reopen = .ok ⟨db.store, tables⟩ ∧ (∀ t, t ∈ tables ↔ t ∈ db.catalog) ∧
      (tables.map StoredTable.name).Nodup := by
  have record : ∀ r ∈ db.store.scanPrefix catalogKeyPrefix,
      ∃ t ∈ db.catalog, r = (catalogKey t.name, encodeTableEntry t) := by
    rintro ⟨k, v⟩ there
    obtain ⟨inside, stored⟩ := Store.mem_scanPrefix.mp there
    obtain ⟨t, listed, rfl, rfl⟩ := (h.recorded k v inside).mp stored
    exact ⟨t, listed, rfl⟩
  have current : ∀ bytes ∈ (db.store.scanPrefix catalogKeyPrefix).map Prod.snd,
      catalogRecordVersion bytes = some 1 := by
    intro bytes there
    obtain ⟨r, hr, rfl⟩ := mem_map.mp there
    obtain ⟨t, listed, rfl⟩ := record r hr
    exact catalogRecordVersion_encodeTableEntry t
  have decoded : ∀ t ∈ db.catalog, decodeTableEntry (encodeTableEntry t) = some t :=
    fun t listed => decodeTableEntry_encodeTableEntry (h.plain t listed).2
  have names : ∀ rows : List (Bytes × Bytes), (∀ r ∈ rows, ∃ t ∈ db.catalog,
      r = (catalogKey t.name, encodeTableEntry t)) →
      ((rows.map Prod.snd).filterMap decodeTableEntry).map (fun t => catalogKey t.name) =
        rows.map Prod.fst := by
    intro rows
    induction rows with
    | nil => simp
    | cons r rest ih =>
      intro all
      obtain ⟨t, listed, rfl⟩ := all r mem_cons_self
      simp [decoded t listed, ← ih fun r' h' => all r' (mem_cons_of_mem _ h')]
  have distinct : ((((db.store.scanPrefix catalogKeyPrefix).map Prod.snd).filterMap
      decodeTableEntry).map StoredTable.name).Nodup := by
    have keys := nodup_keys_of_ordered (db.store.scanPrefix_ordered catalogKeyPrefix)
    rw [← names _ record, ← Function.comp_def catalogKey StoredTable.name, ← map_map] at keys
    exact List.Nodup.of_map _ keys
  refine ⟨_, ?_, ?_, distinct⟩
  · rw [MapDatabase.reopen, loadAll, loadRecords_ok current]
    simp only [Except.map]
    rw [catalogOf_eq distinct]
  · intro t
    simp only [mem_filterMap, mem_map]
    constructor
    · rintro ⟨bytes, ⟨r, hr, rfl⟩, found⟩
      obtain ⟨t', listed, rfl⟩ := record r hr
      obtain rfl : t' = t := Option.some.inj ((decoded t' listed).symm.trans found)
      exact listed
    · intro listed
      have stored := (h.recorded (catalogKey t.name) _ (prefix_append ..)).mpr ⟨t, listed, rfl, rfl⟩
      exact ⟨_, ⟨_, Store.mem_scanPrefix.mpr ⟨prefix_append .., stored⟩, rfl⟩, decoded t listed⟩

end Catalog

section Frames

variable {store : Store} {table k : Bytes}

/-- Keys that are neither of written rows nor of entries stay as they are. -/
theorem insertAll_frame (plain : PlainName table) {rows : List (Bytes × Columns)}
    (own : ∀ r ∈ rows, tablePrefix table <+: r.1) (outside : ¬ entryPrefix <+: k)
    (other : ∀ r ∈ rows, r.1 ≠ k) : (insertAll store table rows)[k]? = store[k]? := by
  have rowWrites : RowWrites (rows.map fun r => (r.1, some (encodeRow r.2))) := by
    intro w hw
    obtain ⟨r, hr, rfl⟩ := mem_map.mp hw
    exact plain.head_of_row (own r hr)
  have entryWrites := @entryWrites_flatMap _ rows _ fun r =>
    entryWrites_insertEntries (defsForTable store table) r.2 r.1
  rw [insertAll_eq rowWrites, entryWrites.untouched outside]
  apply Store.getElem?_apply_of_not_mem
  intro w hw
  obtain ⟨r, hr, rfl⟩ := mem_map.mp hw
  exact other r hr

theorem deleteAll_frame (plain : PlainName table) {rows : List BufferedRow}
    (own : ∀ r ∈ rows, tablePrefix table <+: r.1) (outside : ¬ entryPrefix <+: k)
    (other : ∀ r ∈ rows, r.1 ≠ k) : (deleteAll store table rows)[k]? = store[k]? := by
  have rowWrites : RowWrites (rows.map fun r => (r.1, none)) := by
    intro w hw
    obtain ⟨r, hr, rfl⟩ := mem_map.mp hw
    exact plain.head_of_row (own r hr)
  have entryWrites := @entryWrites_flatMap _ rows _ fun r =>
    entryWrites_deleteEntries (defsForTable store table) r.2 r.1
  rw [deleteAll_eq rowWrites, entryWrites.untouched outside]
  apply Store.getElem?_apply_of_not_mem
  intro w hw
  obtain ⟨r, hr, rfl⟩ := mem_map.mp hw
  exact other r hr

theorem updateAll_frame {assignments : List (Bytes × ScalarExpr)} (outside : ¬ entryPrefix <+: k) :
    ∀ (rows : List BufferedRow) (store : Store), (∀ r ∈ rows, r.1 ≠ k) →
      (updateAll table assignments store rows).1[k]? = store[k]?
  | [], _, _ => rfl
  | (key, cols) :: rest, store, other => by
    rw [updateAll]
    cases updateRow assignments cols with
    | error e => rfl
    | ok new =>
      have here : key ≠ k := other (key, cols) mem_cons_self
      have entryWrites := entryWrites_moveEntries
        (defsForTable (store.insert key (encodeRow new)) table) cols new key
      rw [updateAll_frame outside rest _ fun r hr => other r (mem_cons_of_mem _ hr),
        onRowUpdated, entryWrites.untouched outside]
      simp [ExtTreeMap.getElem?_insert, here]

end Frames

section Histories

variable {db : MapDatabase}

/-- Names as the catalog takes them to be: identifiers that do not start with a zero byte and
have no line break. -/
def MapDatabase.Op.Documented : Op → Prop
  | .createTable name columns => PlainName name ∧ (newTable name columns).OneLine
  | _ => True

def MapDatabase.Act.Documented (_ : MapDatabase) : Act → Prop
  | .statement op => op.Documented
  | .restart => True

instance (op : Op) : Decidable op.Documented := by
  unfold Op.Documented
  split <;> infer_instance

instance (db : MapDatabase) (a : Act) : Decidable (a.Documented db) := by
  unfold Act.Documented
  split <;> infer_instance

variable {k table : Bytes} {op : Op}

variable {filter : Option FilterExpr} {rows : List BufferedRow} {ctx : ExecutorContext}
  {db' : MapDatabase} {entry : TableEntry} {store : Store}

theorem getTable_ok {catalog : List StoredTable}
    (found : getTable (catalog.map StoredTable.entry) table = .ok entry) :
    ∃ t ∈ catalog, t.name = table ∧ entry = t.entry := by
  rw [getTable] at found
  split at found
  · rename_i entry' first
    obtain rfl := Except.ok.inj found
    obtain ⟨t, listed, rfl⟩ := mem_map.mp (mem_of_find?_eq_some first)
    have name : t.entry.name = table := by simpa using find?_some first
    exact ⟨t, listed, name, rfl⟩
  · cases found

theorem Cataloged.plainName (h : Cataloged db)
    (found : getTable db.context.catalog table = .ok entry) : PlainName table := by
  obtain ⟨t, listed, rfl, -⟩ := getTable_ok found
  exact (h.plain t listed).1

/-- Nothing but the definitions of tables concerns the catalog. -/
theorem Cataloged.of_same (h : Cataloged db) (catalog : db'.catalog = db.catalog)
    (store : ∀ k, catalogKeyPrefix <+: k → db'.store[k]? = db.store[k]?) : Cataloged db' where
  plain := catalog ▸ h.plain
  distinct := catalog ▸ h.distinct
  recorded k v inside := by rw [store k inside, catalog, h.recorded k v inside]

theorem catalogKey_inj {a b : Bytes} : catalogKey a = catalogKey b ↔ a = b :=
  ⟨fun eq => append_cancel_left eq, congrArg catalogKey⟩

theorem Cataloged.created (h : Cataloged db) {name : Bytes} {columns : List StoredColumn}
    (documented : (Op.createTable name columns).Documented) :
    Cataloged (db.execCreateTable name columns).1 := by
  rw [execCreateTable]
  split
  · exact h
  rename_i absent
  have new : ∀ t ∈ db.catalog, t.name ≠ name := by
    intro t listed same
    exact absent (any_eq_true.mpr ⟨t, listed, by simpa using same⟩)
  constructor
  case plain =>
    intro t listed
    rcases mem_append.mp listed with before | here
    · exact h.plain t before
    · obtain rfl := mem_singleton.mp here
      exact documented
  case distinct =>
    simp only [map_append, map_cons, map_nil]
    apply nodup_append.mpr
    refine ⟨h.distinct, nodup_singleton _, ?_⟩
    intro a ha b hb
    obtain ⟨t, listed, rfl⟩ := mem_map.mp ha
    rw [mem_singleton.mp hb]
    exact new t listed
  case recorded =>
    intro k v inside
    simp only [ExtTreeMap.getElem?_insert, mem_append, mem_singleton]
    by_cases here : catalogKey (newTable name columns).name = k
    · subst here
      simp only [Std.compare_self, if_true, Option.some.injEq]
      constructor
      · rintro rfl
        exact ⟨_, Or.inr rfl, rfl, rfl⟩
      · rintro ⟨t, before | rfl, key, rfl⟩
        · exact absurd (catalogKey_inj.mp key).symm (new t before)
        · rfl
    · have other : compare (catalogKey (newTable name columns).name) k ≠ .eq :=
        fun eq => here (LawfulEqOrd.eq_of_compare eq)
      rw [if_neg other, h.recorded k v inside]
      constructor
      · rintro ⟨t, listed, rest⟩
        exact ⟨t, Or.inl listed, rest⟩
      · rintro ⟨t, before | rfl, key, rfl⟩
        · exact ⟨t, before, key, rfl⟩
        · exact absurd key.symm here

theorem Cataloged.dropped (h : Cataloged db) (name : Bytes) (ifExists : Bool) :
    Cataloged (db.execDropTable name ifExists).1 := by
  rw [execDropTable]
  split
  · constructor
    case plain => exact fun t listed => h.plain t (mem_filter.mp listed).1
    case distinct => exact h.distinct.sublist (filter_sublist.map _)
    case recorded =>
      intro k v inside
      simp only [ExtTreeMap.getElem?_erase, mem_filter, decide_eq_true_eq]
      by_cases here : catalogKey name = k
      · subst here
        simp only [Std.compare_self, if_true, reduceCtorEq, false_iff]
        rintro ⟨t, ⟨-, other⟩, key, -⟩
        exact other (catalogKey_inj.mp key).symm
      · have other : compare (catalogKey name) k ≠ .eq :=
          fun eq => here (LawfulEqOrd.eq_of_compare eq)
        rw [if_neg other, h.recorded k v inside]
        constructor
        · rintro ⟨t, listed, rfl, rfl⟩
          exact ⟨t, ⟨listed, fun same => here (by rw [same])⟩, rfl, rfl⟩
        · rintro ⟨t, ⟨listed, -⟩, rest⟩
          exact ⟨t, listed, rest⟩
  · split
    · exact h
    · exact h

/-- A stored row of a table that takes UPDATE and DELETE. -/
def Rewritable (catalog : List TableEntry) (store : Store) (table k : Bytes) : Prop :=
  (∃ entry, getTable catalog table = .ok entry ∧ entry.appendOnly = false) ∧
    tablePrefix table <+: k ∧ k ∈ store

theorem updatableRows_rewritable {assignments : List (Bytes × ScalarExpr)}
    (reads : ctx.reader = Reader.ofStore store)
    (ok : updatableRows ctx table assignments filter = .ok rows) :
    ∀ r ∈ rows, Rewritable ctx.catalog store table r.1 := by
  intro r hr
  obtain ⟨open_, rfl⟩ := updatableRows_ok ok
  rw [reads] at hr
  obtain ⟨own, bytes, stored, -⟩ := scanned_matching store table filter r hr
  exact ⟨open_, own, Store.mem_iff.mpr ⟨bytes, stored⟩⟩

theorem doomedRows_rewritable (reads : ctx.reader = Reader.ofStore store)
    (ok : doomedRows ctx table filter = .ok rows) :
    ∀ r ∈ rows, Rewritable ctx.catalog store table r.1 := by
  intro r hr
  obtain ⟨open_, rfl⟩ := doomedRows_ok ok
  rw [reads] at hr
  obtain ⟨own, bytes, stored, -⟩ := scanned_matching store table filter r hr
  exact ⟨open_, own, Store.mem_iff.mpr ⟨bytes, stored⟩⟩

/-- The keys of the rows that a statement may write. -/
def MapDatabase.Op.Writes (db : MapDatabase) (k : Bytes) : Op → Prop
  | .insert table columns values => ∃ r, insertedRow db.context table columns values = .ok r ∧
    r.1 = k
  | .bulkInsert table columns rows =>
    ∃ pairs, insertedRows db.context table columns rows = .ok pairs ∧ ∃ p ∈ pairs, p.1 = k
  | .update table _ _ => Rewritable db.context.catalog db.store table k
  | .delete table _ => Rewritable db.context.catalog db.store table k
  | _ => False

/-- A statement declares a table, drops one, or leaves the tables as they are. -/
theorem exec_catalog (op : Op) : (db.exec op).1.catalog = db.catalog ∨
      (∃ name columns, op = .createTable name columns ∧
        (db.exec op).1.catalog = db.catalog ++ [newTable name columns]) ∨
      ∃ name ifExists, op = .dropTable name ifExists ∧
        (db.exec op).1.catalog = db.catalog.filter fun t => t.name ≠ name := by
  cases op with
  | createTable name columns =>
    by_cases taken : db.tableExists name
    · exact Or.inl (by simp [MapDatabase.exec, execCreateTable, taken])
    · exact Or.inr (Or.inl ⟨name, columns, rfl, by simp [MapDatabase.exec, execCreateTable, taken]⟩)
  | dropTable name ifExists =>
    by_cases taken : db.tableExists name
    · exact Or.inr (Or.inr ⟨name, ifExists, rfl, by simp [MapDatabase.exec, execDropTable, taken]⟩)
    · cases ifExists <;> simp [MapDatabase.exec, execDropTable, taken]
  | _ =>
    left
    simp only [MapDatabase.exec, execInsert, execBulkInsert, execUpdate, execDelete,
      execCreateIndex,
      execDropIndex, execCreateRole, execDropRole, execGrant]
    repeat' split
    all_goals rfl

/-- One step: a statement changes the rows that it writes, and records of its own kind. -/
theorem Cataloged.exec_frame (h : Cataloged db)
    (under : ∀ pfx ∈ [entryPrefix, defPrefix, rolePrefix, grantPrefix], ¬ pfx <+: k)
    (tables : ((∀ name columns, op ≠ .createTable name columns) ∧
      ∀ name ifExists, op ≠ .dropTable name ifExists) ∨ ¬ catalogKeyPrefix <+: k)
    (other : ¬ op.Writes db k) : (db.exec op).1.store[k]? = db.store[k]? := by
  have outside := under entryPrefix (by simp)
  cases op with
  | insert table columns values =>
    simp only [MapDatabase.exec, execInsert]
    split
    · rfl
    · rename_i r ok
      obtain ⟨entry, found, -⟩ := insertedRow_ok ok
      have own : ∀ r' ∈ [r], tablePrefix table <+: r'.1 := by simpa using insertedRow_own ok
      exact insertAll_frame (h.plainName found) own outside
        (by simpa using fun same => other ⟨r, ok, same⟩)
  | bulkInsert table columns rows =>
    simp only [MapDatabase.exec, execBulkInsert]
    split
    · rfl
    · rename_i pairs ok
      obtain ⟨⟨entry, found⟩, own⟩ := insertedRows_ok ok
      exact insertAll_frame (h.plainName found) own outside
        fun p hp same => other ⟨pairs, ok, p, hp, same⟩
  | update table assignments filter =>
    simp only [MapDatabase.exec, execUpdate]
    split
    · rfl
    · rename_i rows ok
      apply updateAll_frame outside
      rintro r hr rfl
      exact other (updatableRows_rewritable rfl ok r hr)
  | delete table filter =>
    simp only [MapDatabase.exec, execDelete]
    split
    · rfl
    · rename_i rows ok
      obtain ⟨⟨entry, found, -⟩, -⟩ := doomedRows_ok ok
      have scanned := doomedRows_rewritable rfl ok
      apply deleteAll_frame (h.plainName found) (fun r hr => (scanned r hr).2.1) outside
      rintro r hr rfl
      exact other (scanned r hr)
  | createTable name columns =>
    simp only [MapDatabase.exec, execCreateTable]
    split
    · rfl
    · exact getElem?_insert_under _ _ (prefix_append ..) (tables.resolve_left fun h => h.1 _ _ rfl)
  | dropTable name ifExists =>
    simp only [MapDatabase.exec, execDropTable]
    split
    · exact getElem?_erase_under _ (prefix_append ..) (tables.resolve_left fun h => h.2 _ _ rfl)
    · split <;> rfl
  | createIndex d ifNotExists =>
    simp only [MapDatabase.exec, execCreateIndex]
    split
    · rfl
    split
    · rfl
    split
    · rfl
    split
    · rfl
    · rename_i created
      simp only [createDef] at created
      split at created
      · cases created
      · obtain rfl := Except.ok.inj created
        rw [buildFromTable, EntryWrites.untouched ?_ outside,
          getElem?_insert_under _ _ (startsWith_defKey _) (under _ (by simp))]
        intro w hw
        obtain ⟨k, bytes, -, -, v, -, rfl⟩ := mem_buildEntries.mp hw
        exact startsWith_entryKey ..
  | dropIndex name ifExists =>
    simp only [MapDatabase.exec, execDropIndex]
    split
    · rw [getElem?_dropEntries, if_neg]
      have entry : entryPrefix <+: entryPrefixForIndex name := by
        simp [entryPrefixForIndex, append_assoc]
      rintro (inside | rfl)
      · exact outside (entry.trans inside)
      · exact under _ (by simp) (startsWith_defKey name)
    · split <;> rfl
  | createRole r =>
    simp only [MapDatabase.exec, execCreateRole]
    split
    · rfl
    · exact getElem?_insert_under _ _ (prefix_append ..) (under rolePrefix (by simp))
  | dropRole name ifExists =>
    simp only [MapDatabase.exec, execDropRole]
    split
    · rw [MapDatabase.dropRole, Store.getElem?_apply_of_not_mem]
      · exact getElem?_erase_under _ (prefix_append ..) (under rolePrefix (by simp))
      · intro w hw eq
        obtain ⟨g, -, rfl⟩ := mem_map.mp hw
        exact under grantPrefix (by simp) (eq ▸ startsWith_grantKey ..)
    · split <;> rfl
  | grant role table privilege revoke =>
    simp only [MapDatabase.exec, execGrant]
    split
    · rfl
    split
    · exact getElem?_erase_under _ (startsWith_grantKey ..) (under _ (by simp))
    · exact getElem?_insert_under _ _ (startsWith_grantKey ..) (under _ (by simp))

/-- A written row is one of a table of the catalog. -/
theorem Cataloged.head_of_writes (h : Cataloged db) (writes : op.Writes db k) :
    k.head? ≠ some 0 := by
  cases op with
  | insert table columns values =>
    obtain ⟨r, ok, rfl⟩ := writes
    obtain ⟨entry, found, -⟩ := insertedRow_ok ok
    exact (h.plainName found).head_of_row (insertedRow_own ok)
  | bulkInsert table columns rows =>
    obtain ⟨pairs, ok, p, member, rfl⟩ := writes
    obtain ⟨⟨entry, found⟩, own⟩ := insertedRows_ok ok
    exact (h.plainName found).head_of_row (own p member)
  | update table assignments filter | delete table filter =>
    obtain ⟨⟨entry, found, -⟩, own, -⟩ := writes
    exact (h.plainName found).head_of_row own
  | _ => cases writes

/-- One step: a statement leaves the row keys alone that it does not write. -/
theorem Cataloged.exec_row (h : Cataloged db) (row : k.head? ≠ some 0) (other : ¬ op.Writes db k) :
    (db.exec op).1.store[k]? = db.store[k]? := by
  have under : ∀ pfx : Bytes, pfx.head? = some 0 → ¬ pfx <+: k :=
    fun pfx zero => not_prefix_of_head zero row
  exact h.exec_frame (by simpa using ⟨under _ rfl, under _ rfl, under _ rfl, under _ rfl⟩)
    (Or.inr (under _ rfl)) other

/-- One step: every statement keeps the catalog and its records together. -/
theorem Cataloged.exec (h : Cataloged db) (documented : op.Documented) :
    Cataloged (db.exec op).1 := by
  cases op with
  | createTable name columns => exact h.created documented
  | dropTable name ifExists => exact h.dropped name ifExists
  | _ =>
    have apart : ∀ pfx ∈ [entryPrefix, defPrefix, rolePrefix, grantPrefix],
        Apart catalogKeyPrefix pfx := by decide
    exact h.of_same ((exec_catalog _).resolve_right (by simp)) fun k inside =>
      h.exec_frame (fun pfx member => (apart pfx member).excludes inside) (Or.inl (by simp))
        fun writes => not_prefix_of_head rfl (h.head_of_writes writes) inside

theorem Cataloged.restarted (h : Cataloged db) (opened : db.reopen = .ok db') :
    Cataloged db' ∧ db'.store = db.store ∧ ∀ t, t ∈ db'.catalog ↔ t ∈ db.catalog := by
  obtain ⟨tables, reopened, same, distinct⟩ := h.reopen
  obtain rfl := Except.ok.inj (reopened.symm.trans opened)
  refine ⟨⟨?_, distinct, ?_⟩, rfl, same⟩
  · exact fun t listed => h.plain t ((same t).mp listed)
  · intro k v inside
    simp only [h.recorded k v inside, same]

theorem Cataloged.step (h : Cataloged db) {a : Act} (documented : a.Documented db)
    (stepped : db.step a = some db') : Cataloged db' := by
  cases a with
  | statement op =>
    obtain rfl := Option.some.inj stepped
    exact h.exec documented
  | restart =>
    obtain ⟨tables, reopened, -⟩ := h.reopen
    simp only [MapDatabase.step, reopened, Except.toOption, Option.some.injEq] at stepped
    exact (h.restarted (stepped ▸ reopened)).1

theorem Cataloged.getTable_eq (h : Cataloged db) {t : StoredTable} (listed : t ∈ db.catalog) :
    getTable db.context.catalog t.name = .ok t.entry := by
  cases found : getTable db.context.catalog t.name with
  | ok entry =>
    obtain ⟨t', listed', name, rfl⟩ := getTable_ok found
    rw [h.eq_of_name listed' listed name]
  | error e =>
    rw [getTable] at found
    split at found
    · cases found
    · rename_i nowhere
      rw [find?_eq_none] at nowhere
      have absent := nowhere t.entry (mem_map_of_mem listed)
      simp [StoredTable.entry] at absent

end Histories

section LikeNew

variable {db : MapDatabase} {table : Bytes}

/-- A table as one that never had rows, indexes or grants: queries find nothing, every key can
be inserted, no index answers, and no grant is in force. -/
structure StoredLikeNew (db : MapDatabase) (table : Bytes) : Prop where
  empty : ∀ filter columns, ∃ effect,
    planFullScan db.context table filter columns = .ok effect ∧ effect.rows = []
  accepts : ∀ entry columns values ordered key, getTable db.context.catalog table = .ok entry →
    alignValues entry columns values = .ok ordered → buildPrimaryKey table entry ordered = .ok key →
      (db.exec (.insert table columns values)).2 = .ok (.rowCount 1)
  unindexed : ∀ filter, indexPkSet db.store table filter = none
  ungranted : ∀ role privilege, hasGrant db.store role table privilege = false

/-- Nothing under the keys of the table's rows, no index on it, no grant. -/
structure NothingStored (store : Store) (table : Bytes) : Prop where
  rows : ∀ k, tablePrefix table <+: k → store[k]? = none
  indexes : ∀ d ∈ definitions store, d.table ≠ table
  grants : ∀ role privilege, store[grantKey role table privilege]? = none

variable {store : Store}

theorem NothingStored.congr {store' : Store} (plain : PlainName table)
    (same : ∀ k, ¬ catalogKeyPrefix <+: k → store'[k]? = store[k]?) :
    NothingStored store' table ↔ NothingStored store table := by
  have rows : ∀ k, tablePrefix table <+: k → store'[k]? = store[k]? :=
    fun k inside => same k (not_prefix_of_head rfl (plain.head_of_row inside))
  have defs : definitions store' = definitions store := definitions_congr fun k inside =>
    same k ((by decide : Apart defPrefix catalogKeyPrefix).excludes inside)
  have grants : ∀ role privilege, store'[grantKey role table privilege]? =
      store[grantKey role table privilege]? := fun role privilege =>
    same _ ((by decide : Apart grantPrefix catalogKeyPrefix).excludes (startsWith_grantKey ..))
  constructor
  · intro h
    exact ⟨fun k inside => rows k inside ▸ h.rows k inside, defs ▸ h.indexes,
      fun role privilege => grants role privilege ▸ h.grants role privilege⟩
  · intro h
    exact ⟨fun k inside => (rows k inside).trans (h.rows k inside), defs.symm ▸ h.indexes,
      fun role privilege => (grants role privilege).trans (h.grants role privilege)⟩

theorem scanPrefix_eq_nil_iff {pfx : Bytes} :
    store.scanPrefix pfx = [] ↔ ∀ k, pfx <+: k → store[k]? = none := by
  rw [eq_nil_iff_forall_not_mem]
  constructor
  · intro nothing k inside
    cases stored : store[k]? with
    | none => rfl
    | some v => exact absurd (Store.mem_scanPrefix.mpr ⟨inside, stored⟩) (nothing (k, v))
  · rintro nothing ⟨k, v⟩ there
    obtain ⟨inside, stored⟩ := Store.mem_scanPrefix.mp there
    simp [nothing k inside] at stored

theorem NothingStored.unindexed (clean : NothingStored store table) (filter : FilterExpr) :
    indexPkSet store table filter = none := by
  have none : defsForTable store table = [] := by
    rw [defsForTable_eq, filter_eq_nil_iff]
    intro d listed
    simpa using clean.indexes d listed
  cases filter <;> simp [SecondaryIndex.indexPkSet, defForColumn, none]

theorem NothingStored.accepts (clean : NothingStored db.store table) {entry : TableEntry}
    {columns : List Bytes} {values : List Value} {ordered : Columns} {key : Bytes}
    (found : getTable db.context.catalog table = .ok entry)
    (aligned : alignValues entry columns values = .ok ordered)
    (built : buildPrimaryKey table entry ordered = .ok key) :
    (db.exec (.insert table columns values)).2 = .ok (.rowCount 1) := by
  have free : db.context.reader.get key = none :=
    clean.rows key (List.isPrefixOf_iff_prefix.mp (prefix_of_buildPrimaryKey built))
  have row : insertedRow db.context table columns values = .ok (key, ordered) := by
    simp only [insertedRow, found, aligned, built, free, bind, Except.bind]
    cases entry.columns.find? CatalogColumn.primaryKey <;> rfl
  simp [MapDatabase.exec, execInsert, row]

/-- The table is like a new one exactly if nothing is left under its name. -/
theorem Cataloged.storedLikeNew_iff (h : Cataloged db) {t : StoredTable} (listed : t ∈ db.catalog) :
    StoredLikeNew db t.name ↔ NothingStored db.store t.name := by
  have found := h.getTable_eq listed
  constructor
  · intro new
    constructor
    case rows =>
      obtain ⟨effect, planned, nothing⟩ := new.empty none []
      apply scanPrefix_eq_nil_iff.mp
      simp only [planFullScan, found, bind, Except.bind, Except.ok.injEq] at planned
      subst planned
      have scanned : db.context.reader.tableRows t.name = [] := by
        simpa [scanBuffered, accessRows, indexPks, matching, rowPasses, decodeRows] using nothing
      exact scanned
    case indexes =>
      intro d defined same
      have inTable : d ∈ defsForTable db.store t.name := by
        exact mem_filter.mpr ⟨defined, by simpa using same⟩
      have none := new.unindexed (.eq d.column .null)
      simp only [SecondaryIndex.indexPkSet, Option.map_eq_none_iff, defForColumn,
        find?_eq_none] at none
      simpa using none d inTable
    case grants =>
      intro role privilege
      have none := new.ungranted role privilege
      cases stored : db.store[grantKey role t.name privilege]? with
      | none => rfl
      | some v =>
        rw [hasGrant, stored] at none
        cases none
  · intro clean
    constructor
    case empty =>
      intro filter columns
      have planned : planFullScan db.context t.name filter columns =
          .ok ⟨(scanBuffered db.context t.name filter).map fun r => (r.1, project (if columns = []
            then t.entry.columns.map CatalogColumn.name else columns) r.2), [],
            [sireadSentinel t.name], none⟩ := by
        simp only [planFullScan, found, bind, Except.bind]
      refine ⟨_, planned, ?_⟩
      have scanned : db.context.reader.tableRows t.name = [] := scanPrefix_eq_nil_iff.mpr clean.rows
      have noKeys : indexPks db.context t.name filter = none := by
        rw [indexPks]
        split
        · rfl
        · cases filter with
          | none => rfl
          | some f => exact clean.unindexed f
      simp [scanBuffered, accessRows, noKeys, scanned, decodeRows, matching, applyNotDuplicatePass]
    case accepts =>
      intro entry columns values ordered key found' aligned built
      exact clean.accepts found' aligned built
    case unindexed => exact clean.unindexed
    case ungranted =>
      intro role privilege
      simp [hasGrant, clean.grants role privilege]

/-- DROP TABLE and CREATE TABLE of the same name. -/
def recreate (db : MapDatabase) (table : Bytes) (ifExists : Bool) (columns : List StoredColumn) :
    MapDatabase × Except SqlError ExecuteResult :=
  (db.exec (.dropTable table ifExists)).1.exec (.createTable table columns)

theorem recreate_store (db : MapDatabase) (table : Bytes) (ifExists : Bool)
    (columns : List StoredColumn) (k : Bytes) (other : ¬ catalogKeyPrefix <+: k) :
    (recreate db table ifExists columns).1.store[k]? = db.store[k]? := by
  have dropped : (db.exec (.dropTable table ifExists)).1.store[k]? = db.store[k]? := by
    simp only [MapDatabase.exec, execDropTable]
    split
    · exact getElem?_erase_under _ (prefix_append ..) other
    · split <;> rfl
  rw [recreate, MapDatabase.exec, execCreateTable]
  by_cases exists_ : (db.exec (.dropTable table ifExists)).1.tableExists table
  · rw [if_pos exists_]
    exact dropped
  · rw [if_neg exists_]
    exact (getElem?_insert_under _ _ (prefix_append ..) other).trans dropped

end LikeNew

end GalaxDb.Sql
