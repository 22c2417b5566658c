import GalaxDb.Sql.IndexMaintenance
import Mathlib.Data.List.Dedup

/-!
# Index access and scans

A query with a comparison may read the rows that an index has filed under it. It returns
what a scan returns if every row it matches is filed where the lookup looks: under the
value it reads back with, on the side of the literal that the comparison asks for.
-/

namespace GalaxDb.Sql

open Std Bytes Executor SecondaryIndex MapDatabase AuthStore Reader Store List Option

section Runs

variable {store store' : Store} {table : Bytes}

theorem Lands.congr (same : ∀ k, defPrefix <+: k → store'[k]? = store[k]?) {r : Bytes × Columns}
    (lands : Lands store table r) : Lands store' table r := by
  rw [Lands, definitions_congr same]
  exact lands

/-- The rows of a scan, as they are stored. -/
def Scanned (store : Store) (table : Bytes) (rows : List BufferedRow) : Prop :=
  ∀ r ∈ rows, tablePrefix table <+: r.1 ∧ ∃ bytes, store[r.1]? = some bytes ∧ r.2 = decodeRow bytes

theorem scanned_matching (store : Store) (table : Bytes) (filter : Option FilterExpr) :
    Scanned store table (matching filter (decodeRows ((ofStore store).tableRows table))) := by
  intro r hr
  obtain ⟨⟨k, v⟩, there, rfl⟩ := List.mem_map.mp (mem_filter.mp hr).1
  obtain ⟨inside, stored⟩ := mem_scanPrefix.mp there
  exact ⟨inside, v, stored, rfl⟩

theorem nodup_scan (store : Store) (table : Bytes) (filter : Option FilterExpr) :
    ((matching filter (decodeRows ((ofStore store).tableRows table))).map Prod.fst).Nodup := by
  have keys : ((decodeRows ((ofStore store).tableRows table)).map Prod.fst).Nodup := by
    rw [decodeRows, List.map_map]
    exact nodup_keys_of_ordered (store.scanPrefix_ordered (tablePrefix table))
  exact keys.sublist (filter_sublist.map _)

theorem Indexed.updateAll {assignments : List (Bytes × ScalarExpr)} (plain : PlainName table) :
    ∀ {rows : List BufferedRow} {store : Store}, Indexed store → Scanned store table rows →
      (rows.map Prod.fst).Nodup → (∀ r ∈ rows, ∀ new, updateRow assignments r.2 = .ok new →
        Lands store table (r.1, new)) → Indexed (updateAll table assignments store rows).1
  | [], _, h, _, _, _ => h
  | (key, cols) :: rest, store, h, scanned, distinct, lands => by
    rw [MapDatabase.updateAll]
    cases evaluated : updateRow assignments cols with
    | error e => exact h
    | ok new =>
      obtain ⟨own, bytes, stored, decoded⟩ := scanned _ mem_cons_self
      obtain rfl : cols = decodeRow bytes := decoded
      obtain ⟨once, distinct⟩ := nodup_cons.mp distinct
      have landed := lands _ mem_cons_self new evaluated
      have step := h.updatedRow plain own stored landed
      have row : key.head? ≠ some 0 := plain.head_of_row own
      have entries := entryWrites_moveEntries
        (defsForTable (store.insert key (encodeRow new)) table) (decodeRow bytes) new key
      have defs : ∀ k, defPrefix <+: k → (onRowUpdated (store.insert key (encodeRow new)) table
          (decodeRow bytes) new key)[k]? = store[k]? := by
        intro k inside
        have apart : key ≠ k := fun eq => not_prefix_of_head rfl (eq ▸ row) inside
        rw [onRowUpdated, entries.defs k inside]
        simp [ExtTreeMap.getElem?_insert, apart]
      refine Indexed.updateAll plain step ?_ distinct ?_
      · intro r hr
        obtain ⟨own', bytes', stored', decoded'⟩ := scanned r (mem_cons_of_mem _ hr)
        refine ⟨own', bytes', ?_, decoded'⟩
        have apart : key ≠ r.1 := by
          intro eq
          have there : r.1 ∈ rest.map Prod.fst := List.mem_map_of_mem hr
          rw [← eq] at there
          exact once there
        rw [onRowUpdated, entries.row (plain.head_of_row own')]
        simpa [ExtTreeMap.getElem?_insert, apart] using stored'
      · intro r hr new' evaluated'
        exact (lands r (mem_cons_of_mem _ hr) new' evaluated').congr defs

/-- The rows that a statement writes land where its table's indexes look for them. -/
def MapDatabase.Op.Safe (db : MapDatabase) : Op → Prop
  | .insert table columns values => PlainName table ∧
      ∀ r, insertedRow db.context table columns values = .ok r → Lands db.store table r
  | .bulkInsert table columns rows => PlainName table ∧
      ∀ pairs, insertedRows db.context table columns rows = .ok pairs →
        ∀ r ∈ pairs, Lands db.store table r
  | .update table assignments filter => PlainName table ∧
      ∀ r ∈ matching filter (decodeRows (db.context.reader.tableRows table)),
        ∀ new, updateRow assignments r.2 = .ok new → Lands db.store table (r.1, new)
  | .delete table _ => PlainName table
  | .createIndex d _ => PlainName d.table ∧ (0 : UInt8) ∉ d.name ∧ d.name.length < 2 ^ 16 ∧
      d.table.length < 2 ^ 16
  | _ => True

def MapDatabase.Act.Safe (db : MapDatabase) : Act → Prop
  | .statement op => op.Safe db
  | .restart => True

/-- Keys that are neither of rows nor of indexes. -/
theorem Indexed.of_apart (h : Indexed store) (pfx : Bytes) (zero : pfx.head? = some 0)
    (defs : Apart pfx defPrefix) (entries : Apart pfx entryPrefix)
    (other : ∀ k, ¬ pfx <+: k → store'[k]? = store[k]?) : Indexed store' :=
  h.of_same (fun k row => other k (not_prefix_of_head zero row))
    (fun k inside => other k (defs.symm.excludes inside))
    (fun k inside => other k (entries.symm.excludes inside))

variable {db : MapDatabase} {k key pfx : Bytes}

theorem getElem?_insert_under (store : Store) (value : Bytes) (own : pfx <+: key)
    (other : ¬ pfx <+: k) : (store.insert key value)[k]? = store[k]? := by
  have apart : key ≠ k := fun eq => other (eq ▸ own)
  simp [ExtTreeMap.getElem?_insert, apart]

theorem getElem?_erase_under (store : Store) (own : pfx <+: key) (other : ¬ pfx <+: k) :
    (store.erase key)[k]? = store[k]? := by
  have apart : key ≠ k := fun eq => other (eq ▸ own)
  simp [ExtTreeMap.getElem?_erase, apart]

theorem startsWith_grantKey (role table : Bytes) (privilege : Action) :
    grantPrefix <+: grantKey role table privilege := by
  simp [grantKey, append_assoc]

theorem Indexed.dropRole (h : Indexed store) (name : Bytes) :
    Indexed (MapDatabase.dropRole store name) := by
  have role : Indexed (store.erase (roleKey name)) :=
    h.of_apart rolePrefix rfl (by decide) (by decide)
      fun k other => getElem?_erase_under store (prefix_append ..) other
  apply role.of_apart grantPrefix rfl (by decide) (by decide)
  intro k other
  apply getElem?_apply_of_not_mem
  intro w hw eq
  obtain ⟨g, -, rfl⟩ := List.mem_map.mp hw
  exact other (eq ▸ startsWith_grantKey ..)

/-- One step: every statement that is safe keeps the index. -/
theorem Indexed.exec (h : Indexed db.store) {op : Op} (safe : op.Safe db) :
    Indexed (db.exec op).1.store := by
  cases op with
  | insert table columns values =>
    obtain ⟨plain, lands⟩ := safe
    simp only [MapDatabase.exec, execInsert]
    split
    · exact h
    · rename_i r ok
      have own : ∀ r' ∈ [r], tablePrefix table <+: r'.1 := by
        simpa using insertedRow_own ok
      exact h.insertAll plain own (by simpa using lands r ok)
  | bulkInsert table columns rows =>
    obtain ⟨plain, lands⟩ := safe
    simp only [MapDatabase.exec, execBulkInsert]
    split
    · exact h
    · rename_i pairs ok
      exact h.insertAll plain (insertedRows_ok ok).2 (lands pairs ok)
  | update table assignments filter =>
    obtain ⟨plain, lands⟩ := safe
    simp only [MapDatabase.exec, execUpdate]
    split
    · exact h
    · rename_i rows ok
      obtain ⟨-, rfl⟩ := updatableRows_ok ok
      exact Indexed.updateAll plain h (scanned_matching _ _ _) (nodup_scan _ _ _) lands
  | delete table filter =>
    simp only [MapDatabase.exec, execDelete]
    split
    · exact h
    · rename_i rows ok
      obtain ⟨-, rfl⟩ := doomedRows_ok ok
      exact h.deleteAll safe fun r hr => (scanned_matching _ _ _ r hr).1
  | createTable name columns =>
    simp only [MapDatabase.exec, execCreateTable]
    split
    · exact h
    · exact h.of_apart CatalogStore.catalogKeyPrefix rfl (by decide) (by decide)
        fun k other => getElem?_insert_under _ _ (prefix_append ..) other
  | dropTable name ifExists =>
    simp only [MapDatabase.exec, execDropTable]
    split
    · exact h.of_apart CatalogStore.catalogKeyPrefix rfl (by decide) (by decide)
        fun k other => getElem?_erase_under _ (prefix_append ..) other
    · split
      · exact h
      · exact h
  | createIndex d ifNotExists =>
    obtain ⟨plain, clean, nameLen, tableLen⟩ := safe
    simp only [MapDatabase.exec, execCreateIndex]
    split
    · exact h
    split
    · exact h
    split
    · exact h
    split
    · exact h
    · rename_i created
      simp only [createDef] at created
      split at created
      · cases created
      · rename_i free
        obtain rfl := Except.ok.inj created
        exact h.createdIndex clean plain (IndexDef.fromBytes_toBytes nameLen tableLen)
          (by simpa using free)
  | dropIndex name ifExists =>
    simp only [MapDatabase.exec, execDropIndex]
    split
    · rename_i d found
      obtain ⟨rfl, clean, -⟩ := h.of_getDef found
      exact h.droppedIndex clean
    · split
      · exact h
      · exact h
  | createRole r =>
    simp only [MapDatabase.exec, execCreateRole]
    split
    · exact h
    · exact h.of_apart rolePrefix rfl (by decide) (by decide)
        fun k other => getElem?_insert_under _ _ (prefix_append ..) other
  | dropRole name ifExists =>
    simp only [MapDatabase.exec, execDropRole]
    split
    · exact h.dropRole name
    · split
      · exact h
      · exact h
  | grant role table privilege revoke =>
    simp only [MapDatabase.exec, execGrant]
    split
    · exact h
    split
    · exact h.of_apart grantPrefix rfl (by decide) (by decide)
        fun k other => getElem?_erase_under _ (startsWith_grantKey ..) other
    · exact h.of_apart grantPrefix rfl (by decide) (by decide)
        fun k other => getElem?_insert_under _ _ (startsWith_grantKey ..) other

/-- Every run of safe statements. -/
theorem indexed_of_run {acts : List Act} (safe : Run.Along MapDatabase.step Act.Safe .empty acts)
    (reached : Run.run MapDatabase.step .empty acts = some db) : Indexed db.store := by
  have preserved : ∀ (s : MapDatabase) (a : Act) (s' : MapDatabase), Indexed s.store → a.Safe s →
      s.step a = some s' → Indexed s'.store := by
    intro s a s' h safe eq
    cases a with
    | statement op =>
      obtain rfl := some.inj eq
      exact h.exec safe
    | restart =>
      simp only [MapDatabase.step, reopen] at eq
      cases loaded : CatalogStore.loadAll s.store with
      | error e => simp [loaded, Except.map, Except.toOption] at eq
      | ok tables =>
        simp only [loaded, Except.map, Except.toOption, some.injEq] at eq
        subst eq
        exact h
  exact Run.invariant_of_run preserved indexed_empty safe reached

end Runs

section Lookups

variable {store : Store} {d : IndexDef}

/-- A value that a comparison may be made with: an integer or a text. -/
def IsLiteral : Value → Prop
  | .integer n => i64Min ≤ n ∧ n ≤ i64Max
  | .text _ => True
  | _ => False

instance (v : Value) : Decidable (IsLiteral v) := by
  unfold IsLiteral
  rcases v <;> infer_instance

variable {high low : Option Value} {name pk : Bytes} {v : Value}

theorem IsLiteral.fits (literal : IsLiteral v) : FitsI64 v := by
  cases v <;> simp_all [IsLiteral, FitsI64]

/-- An entry found under an index has a key of the table. -/
theorem Indexed.pk_of_entry (h : Indexed store) (defined : getDef store d.name = some d) {k : Bytes}
    (stored : k ∈ store) (inside : entryPrefixForIndex d.name <+: k)
    (found : pkFromEntryKey d.name k = some pk) : tablePrefix d.table <+: pk := by
  have entry : entryPrefix <+: k := by
    have first : entryPrefix <+: entryPrefixForIndex d.name := by
      simp [entryPrefixForIndex, append_assoc]
    exact first.trans inside
  obtain ⟨d', w, pk', defined', rfl, under⟩ := h.entries k stored entry
  have name := name_of_entryKey (h.of_getDef defined).2.1 (h.of_getDef defined').2.1 inside
  obtain rfl : d = d' := some.inj (defined.symm.trans (name ▸ defined'))
  rw [pkFromEntryKey_entryKey] at found
  obtain rfl := some.inj found
  exact under

theorem mem_lookupEq : pk ∈ lookupEq store name v ↔
    ∃ k, k ∈ store ∧ entryValuePrefix name v <+: k ∧ pkFromEntryKey name k = some pk := by
  simp only [lookupEq, mem_filterMap, Prod.exists, mem_scanPrefix, mem_iff]
  constructor
  · rintro ⟨k, bytes, ⟨inside, stored⟩, found⟩
    exact ⟨k, ⟨bytes, stored⟩, inside, found⟩
  · rintro ⟨k, ⟨bytes, stored⟩, inside, found⟩
    exact ⟨k, bytes, ⟨inside, stored⟩, found⟩

theorem of_mem_lookupRange (found : pk ∈ lookupRange store name low high) :
    ∃ k, k ∈ store ∧ entryPrefixForIndex name <+: k ∧ pkFromEntryKey name k = some pk := by
  obtain ⟨⟨k, bytes⟩, scanned, found⟩ := mem_filterMap.mp found
  obtain ⟨inside, stored⟩ := mem_scanPrefix.mp scanned
  obtain ⟨p, -, found⟩ := bind_eq_some_iff.mp found
  refine ⟨k, mem_iff.mpr ⟨bytes, stored⟩, inside, ?_⟩
  split at found
  · cases found
  split at found
  · cases found
  split at found
  · cases found
  · exact found

theorem encodeIndexValue_head (v : Value) : (encodeIndexValue v).head? = some (indexTag v) := by
  obtain ⟨body, raw⟩ := encodeIndexValueRaw_head v
  have nonzero : indexTag v ≠ 0 := by cases v <;> simp [indexTag]
  rw [encodeIndexValue, raw, escapeZeros_cons, if_neg nonzero]
  rfl

/-- An entry between the bounds is found, unless its value is NULL. -/
theorem mem_lookupRange {w : Value} (stored : entryKey name w pk ∈ store) (notNull : w ≠ .null)
    (above : ∀ lo ∈ low, compare (encodeIndexValue lo) (encodeIndexValue w) ≠ .gt)
    (below : ∀ hi ∈ high, compare (encodeIndexValue w) (encodeIndexValue hi) ≠ .gt) :
    pk ∈ lookupRange store name low high := by
  obtain ⟨bytes, found⟩ := mem_iff.mp stored
  have inside : entryPrefixForIndex name <+: entryKey name w pk := by
    rw [entryKey_eq]
    exact prefix_append ..
  refine mem_filterMap.mpr ⟨_, mem_scanPrefix.mpr ⟨inside, found⟩, ?_⟩
  have tag : (encodeIndexValue w).head? ≠ some 48 := by
    rw [encodeIndexValue_head]
    cases w <;> first | exact absurd rfl notNull | simp [indexTag]
  have notBelow : low.any (fun lo => compare (encodeIndexValue w) (encodeIndexValue lo) = .lt) =
      false := by
    cases low with
    | none => rfl
    | some lo =>
      have order : compare (encodeIndexValue w) (encodeIndexValue lo) ≠ .lt :=
        fun lt => above lo rfl (OrientedCmp.gt_iff_lt.mpr lt)
      simpa using order
  have notAbove : high.any (fun hi => compare (encodeIndexValue w) (encodeIndexValue hi) = .gt) =
      false := by
    cases high with
    | none => rfl
    | some hi => simpa using below hi rfl
  simp [splitValueAndPk_entryKey, tag, notBelow, notAbove, pkFromEntryKey_entryKey]

end Lookups

section Queries

variable {store : Store} {table : Bytes} {filter : FilterExpr}

/-- A comparison of a column with an integer or a text. -/
def FilterExpr.comparison : FilterExpr → Option (Bytes × Value)
  | .eq column value => some (column, value)
  | .lt column value => some (column, value)
  | .gt column value => some (column, value)
  | .le column value => some (column, value)
  | .ge column value => some (column, value)
  | _ => none

/-- The value is on the side of the literal, in the order of the index. Equality has no
sides. -/
def FilterExpr.OnSide (v : Value) : FilterExpr → Prop
  | .lt _ value => indexAtMost v value
  | .le _ value => indexAtMost v value
  | .gt _ value => indexAtMost value v
  | .ge _ value => indexAtMost value v
  | _ => True

/-- Every row that matches has its value on the side where the lookup looks. -/
def InOrder (store : Store) (table : Bytes) (filter : FilterExpr) : Prop :=
  ∀ r ∈ decodeRows ((ofStore store).tableRows table), filterMatches r.2 filter = true →
    ∀ c ∈ filter.comparison, ∀ v ∈ cell r.2 c.1, filter.OnSide v

variable {d : IndexDef} {pks : List Bytes} {v value w : Value} {column : Bytes}

theorem Similar.indexAtMost (similar : Similar w v) (literal : IsLiteral value) :
    (indexAtMost v value → indexAtMost w value) ∧ (indexAtMost value v → indexAtMost value w) := by
  rcases similar with rfl | ⟨f, g, rfl, rfl⟩
  · exact ⟨id, id⟩
  · -- floats are before integers and texts, whatever their value
    cases value with
    | integer n => exact ⟨id, id⟩
    | text s => exact ⟨id, id⟩
    | _ => cases literal

theorem Similar.fits (similar : Similar w v) (fits : FitsI64 v) : FitsI64 w := by
  rcases similar with rfl | ⟨f, g, rfl, rfl⟩
  · exact fits
  · trivial

theorem Similar.notNull (similar : Similar w v) (notNull : v ≠ .null) : w ≠ .null := by
  rcases similar with rfl | ⟨f, g, rfl, rfl⟩
  · exact notNull
  · simp

/-- A row within an order comparison has a value that is a number. -/
theorem exists_cell_of_cmpOrder {cols : Columns} {pred : Float → Float → Bool}
    (passed : cmpOrder cols column value pred = true) :
    ∃ v, cell cols column = some v ∧ v ≠ .null := by
  cases valued : cell cols column with
  | none => simp [cmpOrder, valued] at passed
  | some v =>
    refine ⟨v, rfl, ?_⟩
    rintro rfl
    simp [cmpOrder, valued, toF64] at passed

theorem Indexed.of_defForColumn (h : Indexed store)
    (found : defForColumn store table column = some d) :
    getDef store d.name = some d ∧ d.table = table ∧ d.column = column := by
  obtain ⟨defined, own⟩ := h.mem_defsForTable.mp (mem_of_find?_eq_some found)
  exact ⟨defined, own, by simpa using find?_some found⟩

/-- A row with the column has an entry under a value like its own. -/
theorem Indexed.entry_of_row (h : Indexed store) (defined : getDef store d.name = some d)
    {r : BufferedRow} (there : r ∈ decodeRows ((ofStore store).tableRows d.table))
    (valued : cell r.2 d.column = some v) :
    FitsI64 v ∧ ∃ w, Similar w v ∧ entryKey d.name w r.1 ∈ store := by
  obtain ⟨⟨k, bytes⟩, scanned, rfl⟩ := List.mem_map.mp there
  obtain ⟨inside, stored⟩ := mem_scanPrefix.mp scanned
  obtain ⟨s, rfl⟩ := exists_text_of_cell valued
  exact ⟨(valueFromStr_kind s).1, h.rows d k bytes _ defined stored inside valued⟩

/-- The keys that an index answers with: each once, all of them of the table, and among them
that of every matching row. -/
structure Answers (store : Store) (table : Bytes) (filter : FilterExpr) (pks : List Bytes) :
    Prop where
  nodup : pks.Nodup
  own : ∀ pk ∈ pks, tablePrefix table <+: pk
  complete : ∀ r ∈ decodeRows ((ofStore store).tableRows table),
    filterMatches r.2 filter = true → r.1 ∈ pks

theorem Indexed.answers_eq (h : Indexed store) (literal : IsLiteral value)
    (found : defForColumn store table column = some d) :
    Answers store table (.eq column value) (lookupEq store d.name value).dedup := by
  obtain ⟨defined, rfl, rfl⟩ := h.of_defForColumn found
  refine ⟨nodup_dedup _, ?_, ?_⟩
  · intro pk listed
    obtain ⟨k, stored, inside, key⟩ := mem_lookupEq.mp (mem_dedup.mp listed)
    have under : entryPrefixForIndex d.name <+: entryValuePrefix d.name value := by
      simp [entryValuePrefix, append_assoc]
    exact h.pk_of_entry defined stored (under.trans inside) key
  · intro r there passed
    simp only [filterMatches, compareCell] at passed
    cases valued : cell r.2 d.column with
    | none => simp [valued] at passed
    | some v =>
      obtain ⟨-, w, similar, stored⟩ := h.entry_of_row defined there valued
      obtain rfl : v = value := by
        cases value with
        | integer n => cases v <;> simp_all [Value.eq]
        | text s => cases v <;> simp_all [Value.eq]
        | _ => cases literal
      obtain rfl : w = v := by
        rcases similar with same | ⟨f, g, -, rfl⟩
        · exact same
        · cases literal
      refine mem_dedup.mpr (mem_lookupEq.mpr ⟨_, stored, ?_, pkFromEntryKey_entryKey ..⟩)
      exact prefix_append ..

theorem Indexed.answers_range (h : Indexed store) {low high : Option Value}
    (found : defForColumn store table column = some d)
    (sides : ∀ r ∈ decodeRows ((ofStore store).tableRows table),
      filterMatches r.2 filter = true → ∃ v, cell r.2 column = some v ∧ v ≠ .null ∧
        (∀ lo ∈ low, IsLiteral lo ∧ indexAtMost lo v) ∧
          ∀ hi ∈ high, IsLiteral hi ∧ indexAtMost v hi) :
    Answers store table filter (lookupRange store d.name low high).dedup := by
  obtain ⟨defined, rfl, rfl⟩ := h.of_defForColumn found
  refine ⟨nodup_dedup _, ?_, ?_⟩
  · intro pk listed
    obtain ⟨k, stored, inside, key⟩ := of_mem_lookupRange (mem_dedup.mp listed)
    exact h.pk_of_entry defined stored inside key
  · intro r there passed
    obtain ⟨v, valued, notNull, above, below⟩ := sides r there passed
    obtain ⟨fits, w, similar, stored⟩ := h.entry_of_row defined there valued
    apply mem_dedup.mpr
    apply mem_lookupRange stored (similar.notNull notNull)
    · intro lo bound
      obtain ⟨literal, order⟩ := above lo bound
      exact compare_of_indexAtMost literal.fits (similar.fits fits)
        ((similar.indexAtMost literal).2 order)
    · intro hi bound
      obtain ⟨literal, order⟩ := below hi bound
      exact compare_of_indexAtMost (similar.fits fits) literal.fits
        ((similar.indexAtMost literal).1 order)

variable {c : Bytes × Value}

/-- What an index answers to a comparison, whichever of the five it is. -/
theorem Indexed.answers (h : Indexed store) (comparison : filter.comparison = some c)
    (literal : IsLiteral c.2) (covered : indexPkSet store table filter = some pks)
    (inOrder : InOrder store table filter) : Answers store table filter pks := by
  have side : ∀ r ∈ decodeRows ((ofStore store).tableRows table),
      filterMatches r.2 filter = true → ∀ v, cell r.2 c.1 = some v → filter.OnSide v :=
    fun r there passed v valued => inOrder r there passed c comparison v valued
  cases filter with
  | eq column value =>
    obtain rfl := some.inj comparison
    obtain ⟨d, found, rfl⟩ := map_eq_some_iff.mp covered
    exact h.answers_eq literal found
  | lt column value | le column value =>
    obtain rfl := some.inj comparison
    obtain ⟨d, found, rfl⟩ := map_eq_some_iff.mp covered
    apply h.answers_range found
    intro r there passed
    obtain ⟨v, valued, notNull⟩ := exists_cell_of_cmpOrder passed
    exact ⟨v, valued, notNull, by simp, by simpa using ⟨literal, side r there passed v valued⟩⟩
  | gt column value | ge column value =>
    obtain rfl := some.inj comparison
    obtain ⟨d, found, rfl⟩ := map_eq_some_iff.mp covered
    apply h.answers_range found
    intro r there passed
    obtain ⟨v, valued, notNull⟩ := exists_cell_of_cmpOrder passed
    exact ⟨v, valued, notNull, by simpa using ⟨literal, side r there passed v valued⟩, by simp⟩
  | ne column value => cases comparison
  | and a b => cases comparison
  | or a b => cases comparison
  | notDuplicate => cases comparison

/-- The rows under these keys. -/
def fetch (store : Store) (pks : List Bytes) : List (Bytes × Bytes) :=
  pks.filterMap fun pk => store[pk]?.map fun value => (pk, value)

theorem mem_fetch {k v : Bytes} : (k, v) ∈ fetch store pks ↔ k ∈ pks ∧ store[k]? = some v := by
  simp [fetch]

theorem keys_fetch (store : Store) (pks : List Bytes) :
    (fetch store pks).map Prod.fst = pks.filter fun pk => store[pk]?.isSome := by
  induction pks with
  | nil => rfl
  | cons pk rest ih =>
    cases stored : store[pk]? with
    | none => rw [filter_cons_of_neg (by simp [stored]), ← ih]; simp [fetch, stored]
    | some v => rw [filter_cons_of_pos (by simp [stored]), ← ih]; simp [fetch, stored]

theorem nodup_matching {rows : List (Bytes × Bytes)} (distinct : (rows.map Prod.fst).Nodup)
    (filter : Option FilterExpr) : (matching filter (decodeRows rows)).Nodup := by
  have keys : ((decodeRows rows).map Prod.fst).Nodup := by
    rw [decodeRows, List.map_map]
    exact distinct
  exact (List.Nodup.of_map _ keys).filter _

/-- The rows fetched by key and those of a scan, after the filter. -/
theorem Answers.perm (answers : Answers store table filter pks) :
    (matching (some filter) (decodeRows (fetch store pks))).Perm
      (matching (some filter) (decodeRows ((ofStore store).tableRows table))) := by
  have fetched : ((fetch store pks).map Prod.fst).Nodup := by
    rw [keys_fetch]
    exact answers.nodup.filter _
  have scanned := nodup_keys_of_ordered (store.scanPrefix_ordered (tablePrefix table))
  apply (perm_ext_iff_of_nodup (nodup_matching fetched _) (nodup_matching scanned _)).mpr
  intro r
  rw [matching, matching, mem_filter, mem_filter]
  refine and_congr_left fun passed => ?_
  constructor
  · intro there
    obtain ⟨⟨k, v⟩, fetched, rfl⟩ := List.mem_map.mp there
    obtain ⟨listed, stored⟩ := mem_fetch.mp fetched
    exact List.mem_map.mpr ⟨(k, v), mem_scanPrefix.mpr ⟨answers.own k listed, stored⟩, rfl⟩
  · intro there
    have listed := answers.complete r there passed
    obtain ⟨⟨k, v⟩, row, rfl⟩ := List.mem_map.mp there
    exact List.mem_map.mpr ⟨(k, v), mem_fetch.mpr ⟨listed, (mem_scanPrefix.mp row).2⟩, rfl⟩

/-- The same answer: the same error, or the same rows in some order. -/
def SameRows : Except SqlError Effect → Except SqlError Effect → Prop
  | .error e, .error e' => e = e'
  | .ok effect, .ok effect' => effect.rows.Perm effect'.rows
  | _, _ => False

theorem sameRows_planFullScan {db : MapDatabase} (comparison : filter.comparison = some c)
    (answers : ∀ pks, indexPkSet db.store table filter = some pks →
      Answers db.store table filter pks) (columns : List Bytes) :
    SameRows (planFullScan db.context table (some filter) columns)
      (planFullScan db.withoutIndex table (some filter) columns) := by
  have noPass : filterHasNotDuplicate filter = false := by
    cases filter <;> first | rfl | cases comparison
  have scans : (scanBuffered db.context table (some filter)).Perm
      (scanBuffered db.withoutIndex table (some filter)) := by
    simp only [scanBuffered, accessRows, indexPks, context, withoutIndex, any_some, noPass,
      Bool.false_eq_true, if_false, bind_some]
    cases covered : indexPkSet db.store table filter with
    | none => exact List.Perm.refl _
    | some pks => exact (answers pks covered).perm
  simp only [planFullScan, context, withoutIndex, bind, Except.bind]
  cases getTable (db.catalog.map StoredTable.entry) table with
  | error e => rfl
  | ok entry => exact scans.map _

/-- The number of rows of an answer. -/
def answerCount : Except SqlError Effect → Option Nat
  | .ok effect => some effect.rows.length
  | .error _ => none

theorem SameRows.count {a b : Except SqlError Effect} (same : SameRows a b) :
    answerCount a = answerCount b := by
  cases a <;> cases b <;> first | rfl | cases same | exact congrArg some (List.Perm.length_eq same)

def createNumbers : Op :=
  .createTable (ascii "t") [⟨⟨ascii "id", true, false⟩, ascii "INT", false⟩,
    ⟨⟨ascii "c", false, false⟩, ascii "INT", true⟩]

def indexNumbers : Op := .createIndex ⟨ascii "i", ascii "t", ascii "c"⟩ false

/-- A table with an index, and a row. -/
def indexedNumber (v : Value) : List Act :=
  [.statement createNumbers, .statement indexNumbers,
    .statement (.insert (ascii "t") [] [.integer 1, v])]

/-- In every run of safe statements, a comparison whose matching rows have their values on
its side returns the rows of a scan, and the index has each of them. -/
theorem index_access_eq_scan (acts : List Act) (db : MapDatabase)
    (safe : Run.Along MapDatabase.step Act.Safe .empty acts)
    (reached : Run.run MapDatabase.step .empty acts = some db) (table : Bytes)
    (columns : List Bytes)
    (filter : FilterExpr) (c : Bytes × Value) (comparison : filter.comparison = some c)
    (literal : IsLiteral c.2) (inOrder : InOrder db.store table filter) :
    SameRows (planFullScan db.context table (some filter) columns)
        (planFullScan db.withoutIndex table (some filter) columns) ∧
      ∀ pks, indexPkSet db.store table filter = some pks →
        ∀ r ∈ decodeRows ((ofStore db.store).tableRows table),
          filterMatches r.2 filter = true → r.1 ∈ pks := by
  have indexed := indexed_of_run safe reached
  have answers : ∀ pks, indexPkSet db.store table filter = some pks →
      Answers db.store table filter pks :=
    fun pks covered => indexed.answers comparison literal covered inOrder
  constructor
  · exact sameRows_planFullScan comparison answers columns
  · exact fun pks covered => (answers pks covered).complete

theorem index_access_of_one_number :
    ∃ db, Run.run MapDatabase.step .empty (indexedNumber (.integer 5)) = some db ∧
      answerCount (planFullScan db.context (ascii "t") (some (.ge (ascii "c") (.integer 5))) []) =
        some 1 ∧
      SameRows (planFullScan db.context (ascii "t") (some (.ge (ascii "c") (.integer 5))) [])
        (planFullScan db.withoutIndex (ascii "t") (some (.ge (ascii "c") (.integer 5))) []) := by
  have safe : Run.Along MapDatabase.step Act.Safe .empty (indexedNumber (.integer 5)) := by
    refine ⟨trivial, fun db1 eq1 => ⟨⟨by decide, by decide, by decide, by decide⟩, ?_⟩⟩
    refine fun db2 eq2 => ⟨⟨by decide, ?_⟩, fun _ _ => trivial⟩
    obtain rfl := some.inj eq1
    obtain rfl := some.inj eq2
    intro r ok d defined _
    have defs :
        ∀ d ∈ definitions ((MapDatabase.empty.exec createNumbers).1.exec indexNumbers).1.store,
        d = ⟨ascii "i", ascii "t", ascii "c"⟩ := by decide +kernel
    obtain rfl := defs d defined
    obtain ⟨entry, found, aligned, -⟩ := insertedRow_ok ok
    obtain rfl : numbersTable = entry := Except.ok.inj found
    have columns : [(ascii "id", .integer 1), (ascii "c", .integer 5)] = r.2 :=
      Except.ok.inj aligned
    rw [← columns]
    exact ⟨rfl, rfl⟩
  obtain ⟨db, reached⟩ : ∃ db, Run.run MapDatabase.step .empty (indexedNumber (.integer 5)) =
      some db := isSome_iff_exists.mp (by decide +kernel)
  have facts : ∀ db ∈ Run.run MapDatabase.step .empty (indexedNumber (.integer 5)),
      answerCount (planFullScan db.context (ascii "t") (some (.ge (ascii "c") (.integer 5))) []) =
        some 1 ∧
      (ofStore db.store).tableRows (ascii "t") = [(ascii "t:1", ascii "id=1|c=5")] := by
    decide +kernel
  obtain ⟨count, rows⟩ := facts db reached
  have inOrder : InOrder db.store (ascii "t") (.ge (ascii "c") (.integer 5)) := by
    intro r there _ c comparison v valued
    obtain rfl := some.inj comparison
    rw [rows] at there
    obtain rfl := mem_singleton.mp there
    obtain rfl : .integer 5 = v := some.inj valued
    exact Int.le_refl 5
  exact ⟨db, reached, count, (index_access_eq_scan _ db safe reached (ascii "t") [] _ _ rfl
    (by decide) inOrder).1⟩

/-- A text that looks like a number is filed as a text and read back as a number. -/
theorem index_misses_retyped_text :
    ¬ ∀ (acts : List Act) (db : MapDatabase), Run.run MapDatabase.step .empty acts = some db →
      ∀ (table : Bytes) (columns : List Bytes) (filter : FilterExpr) (c : Bytes × Value),
        filter.comparison = some c → IsLiteral c.2 →
          SameRows (planFullScan db.context table (some filter) columns)
            (planFullScan db.withoutIndex table (some filter) columns) := by
  intro claim
  obtain ⟨db, reached⟩ : ∃ db, Run.run MapDatabase.step .empty
      (indexedNumber (.text (ascii "7"))) = some db :=
    isSome_iff_exists.mp (by decide +kernel)
  have counts : ∀ db ∈ Run.run MapDatabase.step .empty (indexedNumber (.text (ascii "7"))),
      answerCount (planFullScan db.context (ascii "t") (some (.eq (ascii "c") (.integer 7))) []) =
        some 0 ∧
      answerCount (planFullScan db.withoutIndex (ascii "t") (some (.eq (ascii "c") (.integer 7)))
        []) = some 1 := by
    decide +kernel
  obtain ⟨indexed, scanned⟩ := counts db reached
  have same := (claim _ db reached (ascii "t") [] (.eq (ascii "c") (.integer 7)) _ rfl
    (by decide)).count
  rw [indexed, scanned] at same
  cases same

end Queries

end GalaxDb.Sql
