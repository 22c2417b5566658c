import GalaxDb.Sql.Lineage
import Mathlib.Data.List.Perm.Subperm

/-!
# Lineage that stays

A recorded row stays in every run in which no later export has its number, no BULK INSERT and
no commit writes its key, and the system table is neither dropped nor declared otherwise. The
executor keeps the other statements away from it. A number comes again after a restart of the
process.
-/

namespace GalaxDb.Sql

open Std Bytes Executor SecondaryIndex CatalogStore AuthStore MapDatabase Store List Option

variable {table : Bytes} {n : Nat}

theorem not_colon_of_digit : (58 : UInt8) ∉ natDigits n :=
  fun h => absurd (natDigits_digit h) (by decide)

/-- A key of the system table with no further colon is under no other table. -/
theorem eq_of_tablePrefix {table tail : Bytes} (plain : (58 : UInt8) ∉ tail)
    (own : tablePrefix table <+: tablePrefix trainingExportsTable ++ tail) :
    table = trainingExportsTable := by
  obtain ⟨rest, eq⟩ := own
  have name : (58 : UInt8) ∉ trainingExportsTable := by decide
  have parts : trainingExportsTable ++ 58 :: tail = table ++ 58 :: rest := by
    simpa [tablePrefix] using eq.symm
  exact ((append_cons_inj_of_notMem name plain).mp parts).1.symm

theorem table_of_lineageKey {id : UInt64} (own : tablePrefix table <+: lineageKey id) :
    table = trainingExportsTable := eq_of_tablePrefix not_colon_of_digit own

theorem own_lineageKey (id : UInt64) : tablePrefix trainingExportsTable <+: lineageKey id :=
  prefix_append ..

theorem head_lineageKey (id : UInt64) : (lineageKey id).head? ≠ some 0 :=
  PlainName.head_of_row (by decide) (own_lineageKey id)

theorem lineageKey_inj {a b : UInt64} : lineageKey a = lineageKey b ↔ a = b := by
  constructor
  · intro same
    have digits := congrArg digitsToNat (append_cancel_left same)
    rw [digitsToNat_natDigits, digitsToNat_natDigits] at digits
    exact UInt64.toNat_inj.mp digits
  · exact congrArg lineageKey

/-- No row of the table is under the system table. -/
def Outside (table : Bytes) : Prop := ¬ tablePrefix trainingExportsTable <+: tablePrefix table

instance (table : Bytes) : Decidable (Outside table) := inferInstanceAs (Decidable (¬ _))

theorem Outside.excludes {k : Bytes} (outside : Outside table) (own : tablePrefix table <+: k) :
    ¬ tablePrefix trainingExportsTable <+: k := by
  intro under
  rcases prefix_or_prefix_of_prefix under own with inside | inside
  · exact outside inside
  · obtain rfl := @eq_of_tablePrefix table [] (by simp) (by simpa using inside)
    exact outside prefix_rfl

/-- The text is shown as it is, also where the next column follows. -/
def Readable (s : Bytes) : Prop := s.getLast? ≠ some 92 ∧ KeepsSpelling (.text s)

/-- The texts of the record read back from the row format. -/
structure TrainingExportLineage.ReadsBack (l : TrainingExportLineage) : Prop where
  tagName : Readable l.tagName
  filterExpr : ∀ s ∈ l.filterExpr, Readable s
  precision : Readable l.precision
  contentHash : KeepsSpelling (.text l.contentHash)

theorem shown_text {s : Bytes} (spelled : KeepsSpelling (.text s)) :
    valueDisplay (valueFromStr s) = s := by
  by_cases literal : s = ascii "NULL" ∨ s = ascii "true" ∨ s = ascii "false"
  · rcases literal with rfl | rfl | rfl <;> decide
  · have storable : Storable (.text s) := by simpa [Storable, not_or] using literal
    exact (valueDisplay_valueFromStr_iff storable).mpr spelled

theorem shown_integer (small : n < 2 ^ 64) :
    valueDisplay (valueFromStr (intDisplay (u64AsI64 n))) = intDisplay (u64AsI64 n) := by
  obtain ⟨low, high⟩ := u64AsI64_range small
  rw [valueFromStr_intDisplay low high]
  rfl

/-- Cells that are shown as they were and do not run into the next one. -/
theorem rendered_back (cols : Columns) (plain : ∀ c ∈ cols, 61 ∉ c.1 ∧ 124 ∉ c.1)
    (shown : ∀ c ∈ cols, valueDisplay (valueFromStr (valueDisplay c.2)) = valueDisplay c.2)
    (apart : ∀ c ∈ cols.dropLast, (valueDisplay c.2).getLast? ≠ some 92) :
    rendered (decodeRow (encodeRow cols)) = rendered cols := by
  induction cols with
  | nil => simp [encodeRow, joinWith, decodeRow, splitRespectingEscape, rendered]
  | cons c rest ih =>
    obtain ⟨name, v⟩ := c
    obtain ⟨equals, bars⟩ := plain _ mem_cons_self
    have ends : rest ≠ [] → (valueDisplay v).getLast? ≠ some 92 := by
      intro more
      exact apart (name, v) (by simp [dropLast_cons_of_ne_nil more])
    have later := ih (fun c hc => plain c (mem_cons_of_mem _ hc))
      (fun c hc => shown c (mem_cons_of_mem _ hc)) (by
        intro c hc
        have more : rest ≠ [] := by
          rintro rfl
          simp at hc
        exact apart c (by simp [dropLast_cons_of_ne_nil more, hc]))
    rw [decodeRow_encodeRow_cons equals bars ends]
    simp only [rendered, map_cons] at later ⊢
    rw [later, shown (name, v) mem_cons_self]

theorem rendered_lineageRow {l : TrainingExportLineage} (back : l.ReadsBack) (id : UInt64) :
    rendered (decodeRow (encodeRow (lineageRow id l))) = rendered (lineageRow id l) := by
  have digit : ∀ n : Int, (intDisplay n).getLast? ≠ some 92 := by
    intro n last
    have there := mem_of_getLast? last
    rw [intDisplay] at there
    split at there
    · rcases mem_cons.mp there with minus | there
      · exact absurd minus (by decide)
      · exact absurd (natDigits_digit there) (by decide)
    · exact absurd (natDigits_digit there) (by decide)
  apply rendered_back
  · simp only [lineageRow, forall_mem_cons]
    decide
  · simp only [lineageRow, forall_mem_cons, valueDisplay]
    refine ⟨shown_integer id.toNat_lt, shown_integer l.exportedAt.toNat_lt,
      shown_text back.tagName.2, ?_, shown_text back.precision.2, ?_, by decide,
      shown_integer l.rowCount.toNat_lt, shown_text back.contentHash, by simp⟩
    · cases filter : l.filterExpr with
      | none => decide
      | some s => exact shown_text (back.filterExpr s filter).2
    · cases l.dedup <;> decide
  · simp only [lineageRow, List.dropLast, forall_mem_cons, valueDisplay]
    refine ⟨digit _, digit _, back.tagName.1, ?_, back.precision.1, ?_, by decide, digit _, by simp⟩
    · cases filter : l.filterExpr with
      | none => decide
      | some s => exact (back.filterExpr s filter).1
    · cases l.dedup <;> decide

/-- The declared columns are those of the row, in its order. -/
theorem project_lineageRow (id : UInt64) (l : TrainingExportLineage) :
    project ((newTable trainingExportsTable trainingExportsColumns).entry.columns.map
      CatalogColumn.name) (lineageRow id l) = lineageRow id l := rfl

/-- What a statement of a transaction writes: a row of an INSERT, or rows that it has seen. -/
theorem requestEffect_writes {ctx : ExecutorContext} {store : Store} {r : Request} {effect : Effect}
    (reads : ctx.reader = Reader.ofStore store) (ok : requestEffect ctx r = .ok effect) :
    ∀ w ∈ effect.writes, ∃ table entry, getTable ctx.catalog table = .ok entry ∧
      tablePrefix table <+: w.1 ∧
      ((∃ columns values, r = .plan (.insert table columns values)) ∨
        Rewritable ctx.catalog store table w.1) := by
  cases r with
  | sorted table filter columns s =>
    intro w hw
    rw [(sortedScan_ok ok).1] at hw
    cases hw
  | plan p =>
  cases p with
  | insert table columns values =>
    obtain ⟨entry, ordered, key, found, -, built, rfl⟩ := planInsert_ok ok
    intro w hw
    obtain rfl := mem_singleton.mp hw
    exact ⟨table, entry, found, isPrefixOf_iff_prefix.mp (prefix_of_buildPrimaryKey built),
      Or.inl ⟨columns, values, rfl⟩⟩
  | bulkInsert table columns rows => cases ok
  | update table assignments filter =>
    rw [requestEffect, planEffect, planUpdate_eq] at ok
    · cases updatable : updatableRows ctx table assignments filter with
      | error e => simp [updatable, Except.map] at ok
      | ok rows =>
        obtain rfl : _ = effect := by simpa [updatable, Except.map] using ok
        intro w hw
        obtain ⟨r, hr, new, -, rfl⟩ := updateWrites_mem rows w hw
        obtain ⟨⟨entry, found, writable⟩, own, stored⟩ :=
          updatableRows_rewritable reads updatable r hr
        exact ⟨table, entry, found, own, Or.inr ⟨⟨entry, found, writable⟩, own, stored⟩⟩
    · simp
  | delete table filter =>
    rw [requestEffect, planEffect, planDelete_eq] at ok
    · cases doomed : doomedRows ctx table filter with
      | error e => simp [doomed, Except.map] at ok
      | ok rows =>
        obtain rfl : _ = effect := by simpa [doomed, Except.map] using ok
        intro w hw
        obtain ⟨r, hr, rfl⟩ := List.mem_map.mp hw
        obtain ⟨⟨entry, found, writable⟩, own, stored⟩ := doomedRows_rewritable reads doomed r hr
        exact ⟨table, entry, found, own, Or.inr ⟨⟨entry, found, writable⟩, own, stored⟩⟩
    · simp
  | fullScan table filter columns =>
    obtain ⟨entry, -, rfl⟩ := planFullScan_ok ok
    simp
  | pointLookup table key =>
    obtain ⟨entry, -, rfl⟩ := planPointLookup_ok ok
    simp

namespace LineageDb

/-- No step that can take a recorded row away: the system table is declared as it is meant to be
and stays declared, BULK INSERT and commits write no key of a recorded row, and an export has a
number of its own and texts that read back. -/
def Undisturbed (s : LineageDb) : Act → Prop
  | .statement op => op.Documented ∧ match op with
    | .createTable name columns => name = trainingExportsTable → columns = trainingExportsColumns
    | .dropTable name _ => name = trainingExportsTable → s.exported = []
    | .bulkInsert table columns rows =>
      match insertedRows s.db.context table columns rows with
      | .ok pairs => ∀ p ∈ pairs, ∀ e ∈ s.exported, p.1 ≠ lineageKey e.1
      | .error _ => True
    | _ => True
  | .commit i => ∀ t ∈ s.txns[i]?, ∀ e ∈ s.exported, t.writes[lineageKey e.1]? = none
  | .trainingDataset l => s.nextId ∉ s.exported.map Prod.fst ∧ l.ReadsBack
  | _ => True

/-- Rows are inserted into other tables only. -/
def InsertsElsewhere (_ : LineageDb) : Act → Prop
  | .statement (.insert table _ _) => Outside table
  | .statement (.bulkInsert table _ _) => Outside table
  | .exec _ (.plan (.insert table _ _)) _ => Outside table
  | _ => True

section Invariant

structure Sound (s : LineageDb) : Prop where
  cataloged : Cataloged s.db
  schema : ∀ t ∈ s.db.catalog, t.name = trainingExportsTable →
    t = newTable trainingExportsTable trainingExportsColumns
  declared : s.exported ≠ [] → newTable trainingExportsTable trainingExportsColumns ∈ s.db.catalog
  stored : ∀ e ∈ s.exported, s.db.store[lineageKey e.1]? = some (encodeRow (lineageRow e.1 e.2))
  distinct : (s.exported.map Prod.fst).Nodup
  readsBack : ∀ e ∈ s.exported, e.2.ReadsBack
  rowKeys : ∀ t ∈ s.txns, ∀ (k : Bytes) v, t.writes[k]? = some v → k.head? ≠ some 0

/-- Nothing but recorded rows is under the system table, nor will be after a commit. -/
structure Alone (s : LineageDb) : Prop where
  rows : ∀ k, tablePrefix trainingExportsTable <+: k → k ∈ s.db.store →
    ∃ e ∈ s.exported, k = lineageKey e.1
  snapshots : ∀ t ∈ s.txns, ∀ k, tablePrefix trainingExportsTable <+: k → k ∈ t.snapshot →
    ∃ id, k = lineageKey id
  buffers : ∀ t ∈ s.txns, ∀ (k : Bytes) v, t.writes[k]? = some (some v) →
    ¬ tablePrefix trainingExportsTable <+: k

theorem sound_fresh : Sound fresh where
  cataloged := cataloged_empty
  schema t listed := by simp [fresh, MapDatabase.empty] at listed
  declared none := absurd rfl none
  stored e there := by simp [fresh] at there
  distinct := by simp [fresh]
  readsBack e there := by simp [fresh] at there
  rowKeys t there := by simp [fresh] at there

theorem alone_fresh : Alone fresh where
  rows k _ there := by simp [fresh, MapDatabase.empty] at there
  snapshots t there := by simp [fresh] at there
  buffers t there := by simp [fresh] at there

variable {s : LineageDb}

variable {e : UInt64 × TrainingExportLineage} {k table : Bytes} {store : Store} {op : Op}

/-- UPDATE and DELETE do not reach the rows under the numbers. -/
theorem Sound.not_rewritable (h : Sound s) {id : UInt64} :
    ¬ Rewritable (s.db.catalog.map StoredTable.entry) store table (lineageKey id) := by
  rintro ⟨⟨entry, found, writable⟩, own, -⟩
  obtain rfl := table_of_lineageKey own
  obtain ⟨t, listed, name, rfl⟩ := getTable_ok found
  rw [h.schema t listed name] at writable
  exact absurd writable (by decide)

/-- An INSERT takes no key that is there. -/
theorem Sound.not_inserted (h : Sound s) {columns : List Bytes} {values : List Value}
    {r : Bytes × Columns} (there : e ∈ s.exported)
    (ok : insertedRow s.db.context table columns values = .ok r) : r.1 ≠ lineageKey e.1 := by
  intro same
  have own := insertedRow_own ok
  rw [same] at own
  obtain rfl := table_of_lineageKey own
  have found := h.cataloged.getTable_eq (h.declared (ne_nil_of_mem there))
  have planned := planInsert_eq s.db.context trainingExportsTable columns values
  rw [ok] at planned
  obtain ⟨key, bytes, effect, free⟩ := planInsert_fresh found (by decide) planned
  have key_eq : r.1 = key := by
    simp only [Effect.mk.injEq, cons.injEq, Prod.mk.injEq] at effect
    exact effect.2.1.1.1
  rw [← key_eq, same] at free
  exact absurd ((h.stored e there).symm.trans free) (by simp)

/-- A statement that leaves recorded rows alone writes none of their keys. -/
theorem Sound.not_writes (h : Sound s) (undisturbed : Undisturbed s (.statement op))
    (there : e ∈ s.exported) : ¬ op.Writes s.db (lineageKey e.1) := by
  cases op with
  | insert table columns values =>
    rintro ⟨r, ok, same⟩
    exact h.not_inserted there ok same
  | bulkInsert table columns rows =>
    rintro ⟨pairs, ok, p, hp, same⟩
    have other := undisturbed.2
    simp only [ok] at other
    exact other p hp e there same
  | update table assignments filter => exact h.not_rewritable
  | delete table filter => exact h.not_rewritable
  | _ => exact id

theorem Alone.rewritable (h : Sound s)
    (known : ∀ k, tablePrefix trainingExportsTable <+: k → k ∈ store → ∃ id, k = lineageKey id)
    (row : Rewritable (s.db.catalog.map StoredTable.entry) store table k) :
    ¬ tablePrefix trainingExportsTable <+: k := by
  intro under
  obtain ⟨id, rfl⟩ := known k under row.2.2
  exact h.not_rewritable row

/-- Without an INSERT into the system table no statement writes under it. -/
theorem Alone.not_writes (h : Sound s) (alone : Alone s)
    (elsewhere : InsertsElsewhere s (.statement op))
    (under : tablePrefix trainingExportsTable <+: k) : ¬ op.Writes s.db k := by
  have known : ∀ k, tablePrefix trainingExportsTable <+: k → k ∈ s.db.store →
      ∃ id, k = lineageKey id := by
    intro k inside stored
    obtain ⟨e, -, rfl⟩ := alone.rows k inside stored
    exact ⟨e.1, rfl⟩
  cases op with
  | insert table columns values =>
    rintro ⟨r, ok, rfl⟩
    exact Outside.excludes elsewhere (insertedRow_own ok) under
  | bulkInsert table columns rows =>
    rintro ⟨pairs, ok, p, hp, rfl⟩
    exact Outside.excludes elsewhere ((insertedRows_ok ok).2 p hp) under
  | update table assignments filter | delete table filter =>
    exact fun row => Alone.rewritable h known row under
  | _ => exact id

end Invariant

section Catalog

variable {db : MapDatabase}

/-- The table is declared by a statement that an existing table refuses. -/
theorem ensure_eq (db : MapDatabase) : ensureTrainingExportsTable db =
    (db.exec (.createTable trainingExportsTable trainingExportsColumns)).1 := by
  by_cases taken : db.tableExists trainingExportsTable
  · simp [ensureTrainingExportsTable, MapDatabase.exec, execCreateTable, taken]
  · simp [ensureTrainingExportsTable, taken]

end Catalog

section Steps

variable {s : LineageDb}

theorem Sound.statement (h : Sound s) {op : Op} (undisturbed : Undisturbed s (.statement op)) :
    Sound { s with db := (s.db.exec op).1 } where
  cataloged := h.cataloged.exec undisturbed.1
  schema := by
    rcases @exec_catalog s.db op with same | ⟨name, columns, rfl, made⟩ | ⟨name, ifExists, -, left⟩
    · rw [same]
      exact h.schema
    · simp only [made, mem_append, mem_singleton]
      rintro t (before | rfl) named
      · exact h.schema t before named
      · obtain rfl : name = trainingExportsTable := named
        rw [undisturbed.2 rfl]
    · simp only [left, mem_filter]
      exact fun t listed named => h.schema t listed.1 named
  declared := by
    intro some_exported
    have before := h.declared some_exported
    rcases @exec_catalog s.db op with same | ⟨name, columns, -, made⟩ | ⟨name, ifExists, rfl, left⟩
    · rwa [same]
    · simp [made, before]
    · simp only [left, mem_filter, decide_eq_true_eq]
      refine ⟨before, ?_⟩
      intro same
      exact some_exported (undisturbed.2 same.symm)
  stored e there :=
    (h.cataloged.exec_row (head_lineageKey e.1) (h.not_writes undisturbed there)).trans
    (h.stored e there)
  distinct := h.distinct
  readsBack := h.readsBack
  rowKeys := h.rowKeys

theorem Sound.ensured (h : Sound s) : Sound { s with db := ensureTrainingExportsTable s.db } ∧
    newTable trainingExportsTable trainingExportsColumns ∈
      (ensureTrainingExportsTable s.db).catalog := by
  constructor
  · rw [ensure_eq]
    exact h.statement ⟨by decide, fun _ => rfl⟩
  · rw [ensureTrainingExportsTable]
    split
    · rename_i taken
      obtain ⟨t, listed, named⟩ := List.any_eq_true.mp taken
      rw [← h.schema t listed (by simpa using named)]
      exact listed
    · rename_i absent
      simp [MapDatabase.exec, execCreateTable, absent]

theorem Sound.recordedRow (h : Sound s)
    (declared : newTable trainingExportsTable trainingExportsColumns ∈ s.db.catalog)
    {l : TrainingExportLineage} (new : s.nextId ∉ s.exported.map Prod.fst) (back : l.ReadsBack) :
    Sound (s.record l) where
  cataloged := h.cataloged.of_same rfl fun k inside => by
    have other : lineageKey s.nextId ≠ k := by
      rintro rfl
      exact not_prefix_of_head rfl (head_lineageKey _) inside
    simp [record, ExtTreeMap.getElem?_insert, other]
  schema := h.schema
  declared _ := declared
  stored e there := by
    simp only [record, ExtTreeMap.getElem?_insert]
    rcases mem_append.mp there with before | here
    · have other : s.nextId ≠ e.1 := fun same => new (List.mem_map.mpr ⟨e, before, same.symm⟩)
      simpa [lineageKey_inj, other] using h.stored e before
    · obtain rfl := mem_singleton.mp here
      simp
  distinct := by
    simpa [record, nodup_append, h.distinct] using fun id l there same =>
      new (List.mem_map.mpr ⟨(id, l), there, same⟩)
  readsBack e there := by
    rcases mem_append.mp there with before | here
    · exact h.readsBack e before
    · obtain rfl := mem_singleton.mp here
      exact back
  rowKeys := h.rowKeys

variable {t : OpenTxn} {i : Nat}

theorem OpenTxn.mem_buffer {writes : List (Bytes × Option Bytes)} {k : Bytes} {v : Option Bytes}
    (there : (t.buffer writes).writes[k]? = some v) : t.writes[k]? = some v ∨ (k, v) ∈ writes := by
  rw [OpenTxn.buffer] at there
  generalize t.writes = m at there ⊢
  induction writes generalizing m with
  | nil => exact Or.inl there
  | cons w rest ih =>
    rcases ih _ there with before | later
    · rw [ExtTreeMap.getElem?_insert] at before
      by_cases same : w.1 = k
      · simp only [same, Std.compare_self, if_true, some.injEq] at before
        exact Or.inr (mem_cons.mpr (Or.inl (Prod.ext same.symm before.symm)))
      · simp only [Std.compare_eq_iff_eq, same, if_false] at before
        exact Or.inl before
    · exact Or.inr (mem_cons_of_mem _ later)

theorem Sound.execInTxn (h : Sound s) (open_ : s.txns[i]? = some t) (r : Request) (kept : Nat) :
    Sound (s.execInTxn i t r kept) := by
  rw [LineageDb.execInTxn]
  split
  · exact h
  · rename_i effect ok
    refine { h with rowKeys := ?_ }
    intro t' there k v buffered
    rcases mem_or_eq_of_mem_set there with before | rfl
    · exact h.rowKeys t' before k v buffered
    · rcases OpenTxn.mem_buffer buffered with before | written
      · exact h.rowKeys t (mem_of_getElem? open_) k v before
      · obtain ⟨table, entry, found, own, -⟩ :=
          requestEffect_writes rfl ok _ (mem_of_mem_take written)
        exact (h.cataloged.plainName found).head_of_row own

theorem Sound.commitTxn (h : Sound s) (open_ : s.txns[i]? = some t)
    (clear : ∀ e ∈ s.exported, t.writes[lineageKey e.1]? = none) : Sound (s.commitTxn i t) := by
  have rowWrites : RowWrites t.writes.toList := by
    rintro ⟨k, v⟩ hw
    exact h.rowKeys t (mem_of_getElem? open_) k v
      (ExtTreeMap.mem_toList_iff_getElem?_eq_some.mp hw)
  constructor
  case cataloged => exact h.cataloged.of_same rfl fun k inside => rowWrites.untouched rfl inside
  case schema => exact h.schema
  case declared => exact h.declared
  case stored =>
    intro e there
    refine (getElem?_apply_of_not_mem ?_).trans (h.stored e there)
    rintro ⟨k, v⟩ hw rfl
    rw [ExtTreeMap.mem_toList_iff_getElem?_eq_some, clear e there] at hw
    cases hw
  case distinct => exact h.distinct
  case readsBack => exact h.readsBack
  case rowKeys => exact fun t' there => h.rowKeys t' (mem_of_mem_eraseIdx there)

/-- One step: what is recorded stays. -/
theorem Sound.step (h : Sound s) {a : Act} (undisturbed : Undisturbed s a) {s' : LineageDb}
    (next : s.step a = some s') : Sound s' := by
  cases a with
  | statement op =>
    obtain rfl := some.inj next
    exact h.statement undisturbed
  | begin =>
    obtain rfl := some.inj next
    refine { h with rowKeys := ?_ }
    intro t there k v buffered
    rcases mem_append.mp there with before | here
    · exact h.rowKeys t before k v buffered
    · obtain rfl := mem_singleton.mp here
      simp at buffered
  | exec i r kept =>
    obtain ⟨t, open_, rfl⟩ := map_eq_some_iff.mp next
    exact h.execInTxn open_ r kept
  | commit i =>
    obtain ⟨t, open_, rfl⟩ := map_eq_some_iff.mp next
    exact h.commitTxn open_ (undisturbed t open_)
  | rollback i =>
    obtain ⟨t, -, rfl⟩ := map_eq_some_iff.mp next
    exact { h with rowKeys := fun t there => h.rowKeys t (mem_of_mem_eraseIdx there) }
  | trainingDataset l =>
    obtain rfl := some.inj next
    exact h.ensured.1.recordedRow h.ensured.2 undisturbed.1 undisturbed.2
  | failedExport =>
    obtain rfl := some.inj next
    exact h.ensured.1
  | elsewhere =>
    obtain rfl := some.inj next
    exact { h with }
  | restart newProcess =>
    obtain ⟨db, opened, rfl⟩ := map_eq_some_iff.mp next
    obtain ⟨tables, reopened, -⟩ := h.cataloged.reopen
    rw [reopened] at opened
    obtain rfl := some.inj opened
    obtain ⟨cataloged, store, listed⟩ := h.cataloged.restarted reopened
    constructor
    case cataloged => exact cataloged
    case schema => exact fun t there => h.schema t ((listed t).mp there)
    case declared => exact fun some_exported => (listed _).mpr (h.declared some_exported)
    case stored => exact h.stored
    case distinct => exact h.distinct
    case readsBack => exact h.readsBack
    case rowKeys => exact fun t there => absurd there not_mem_nil

theorem Alone.statement (h : Sound s) (alone : Alone s) {op : Op}
    (elsewhere : InsertsElsewhere s (.statement op)) : Alone { s with db := (s.db.exec op).1 } where
  rows k under there := by
    have row : k.head? ≠ some 0 := PlainName.head_of_row (by decide) under
    have same := h.cataloged.exec_row row (alone.not_writes h elsewhere under)
    exact alone.rows k under ((mem_congr same).mp there)
  snapshots := alone.snapshots
  buffers := alone.buffers

theorem Alone.ensured (h : Sound s) (alone : Alone s) :
    Alone { s with db := ensureTrainingExportsTable s.db } := by
  rw [ensure_eq]
  exact alone.statement h trivial

theorem Alone.recordedRow (alone : Alone s) (l : TrainingExportLineage) : Alone (s.record l) where
  rows k under there := by
    rcases ExtTreeMap.mem_insert.mp there with here | before
    · exact ⟨(s.nextId, l), by simp [record], (Std.compare_eq_iff_eq.mp here).symm⟩
    · obtain ⟨e, listed, same⟩ := alone.rows k under before
      exact ⟨e, mem_append_left _ listed, same⟩
  snapshots := alone.snapshots
  buffers := alone.buffers

/-- What a transaction sees under the system table are numbers. -/
theorem Alone.seen (alone : Alone s) (open_ : t ∈ s.txns) :
    ∀ k, tablePrefix trainingExportsTable <+: k → k ∈ t.seen → ∃ id, k = lineageKey id := by
  intro k under there
  obtain ⟨v, found⟩ := mem_iff.mp there
  rcases apply_eq_some found with before | buffered
  · exact alone.snapshots t open_ k under (mem_iff.mpr ⟨v, before⟩)
  · exact absurd under (alone.buffers t open_ k v
      (ExtTreeMap.mem_toList_iff_getElem?_eq_some.mp buffered))

theorem Alone.execInTxn (h : Sound s) (alone : Alone s) (open_ : s.txns[i]? = some t) {r : Request}
    {kept : Nat} (elsewhere : InsertsElsewhere s (.exec i r kept)) :
    Alone (s.execInTxn i t r kept) := by
  have listed := mem_of_getElem? open_
  rw [LineageDb.execInTxn]
  split
  · exact alone
  · rename_i effect ok
    constructor
    case rows => exact alone.rows
    case snapshots =>
      intro t' there
      rcases mem_or_eq_of_mem_set there with before | rfl
      · exact alone.snapshots t' before
      · exact alone.snapshots t listed
    case buffers =>
      intro t' there k v buffered
      rcases mem_or_eq_of_mem_set there with before | rfl
      · exact alone.buffers t' before k v buffered
      · rcases OpenTxn.mem_buffer buffered with before | written
        · exact alone.buffers t listed k v before
        · obtain ⟨table, entry, -, own, ⟨columns, values, rfl⟩ | row⟩ :=
            requestEffect_writes rfl ok _ (mem_of_mem_take written)
          · exact Outside.excludes elsewhere own
          · exact Alone.rewritable h (alone.seen listed) row

theorem Alone.commitTxn (alone : Alone s) (open_ : s.txns[i]? = some t) :
    Alone (s.commitTxn i t) where
  rows k under there := by
    obtain ⟨v, found⟩ := mem_iff.mp there
    rcases apply_eq_some found with before | buffered
    · exact alone.rows k under (mem_iff.mpr ⟨v, before⟩)
    · exact absurd under (alone.buffers t (mem_of_getElem? open_) k v
        (ExtTreeMap.mem_toList_iff_getElem?_eq_some.mp buffered))
  snapshots t' there := alone.snapshots t' (mem_of_mem_eraseIdx there)
  buffers t' there := alone.buffers t' (mem_of_mem_eraseIdx there)

theorem Alone.step (h : Sound s) (alone : Alone s) {a : Act} (elsewhere : InsertsElsewhere s a)
    {s' : LineageDb} (next : s.step a = some s') : Alone s' := by
  cases a with
  | statement op =>
    obtain rfl := some.inj next
    exact alone.statement h elsewhere
  | begin =>
    obtain rfl := some.inj next
    constructor
    case rows => exact alone.rows
    case snapshots =>
      intro t there k under stored
      rcases mem_append.mp there with before | here
      · exact alone.snapshots t before k under stored
      · obtain rfl := mem_singleton.mp here
        obtain ⟨e, -, same⟩ := alone.rows k under stored
        exact ⟨e.1, same⟩
    case buffers =>
      intro t there k v buffered
      rcases mem_append.mp there with before | here
      · exact alone.buffers t before k v buffered
      · obtain rfl := mem_singleton.mp here
        simp at buffered
  | exec i r kept =>
    obtain ⟨t, open_, rfl⟩ := map_eq_some_iff.mp next
    exact alone.execInTxn h open_ elsewhere
  | commit i =>
    obtain ⟨t, open_, rfl⟩ := map_eq_some_iff.mp next
    exact alone.commitTxn open_
  | rollback i =>
    obtain ⟨t, -, rfl⟩ := map_eq_some_iff.mp next
    exact ⟨alone.rows, fun t there => alone.snapshots t (mem_of_mem_eraseIdx there),
      fun t there => alone.buffers t (mem_of_mem_eraseIdx there)⟩
  | trainingDataset l =>
    obtain rfl := some.inj next
    exact (alone.ensured h).recordedRow l
  | failedExport =>
    obtain rfl := some.inj next
    exact alone.ensured h
  | elsewhere =>
    obtain rfl := some.inj next
    exact ⟨alone.rows, alone.snapshots, alone.buffers⟩
  | restart newProcess =>
    obtain ⟨db, opened, rfl⟩ := map_eq_some_iff.mp next
    obtain ⟨tables, reopened, -⟩ := h.cataloged.reopen
    rw [reopened] at opened
    obtain rfl := some.inj opened
    exact ⟨alone.rows, fun t there => absurd there not_mem_nil,
      fun t there => absurd there not_mem_nil⟩

end Steps

section Answers

variable {s : LineageDb}

/-- The query returns the rows under the system table, in its columns. -/
theorem Sound.selected_eq (h : Sound s)
    (declared : newTable trainingExportsTable trainingExportsColumns ∈ s.db.catalog) :
    selected s.db = (s.db.store.scanPrefix (tablePrefix trainingExportsTable)).map fun r =>
      (r.1,
        rendered (project ((newTable trainingExportsTable trainingExportsColumns).entry.columns.map
        CatalogColumn.name) (decodeRow r.2))) := by
  have found := h.cataloged.getTable_eq declared
  have rows : scanBuffered s.db.context trainingExportsTable none =
      decodeRows (s.db.store.scanPrefix (tablePrefix trainingExportsTable)) := by
    simp [scanBuffered, accessRows, indexPks, matching, rowPasses, MapDatabase.context,
      Reader.ofStore]
  have planned : planFullScan s.db.context trainingExportsTable none [] =
      .ok ⟨(decodeRows (s.db.store.scanPrefix (tablePrefix trainingExportsTable))).map fun r =>
        (r.1, project ((newTable trainingExportsTable trainingExportsColumns).entry.columns.map
          CatalogColumn.name) r.2), [], [sireadSentinel trainingExportsTable], none⟩ := by
    rw [← rows]
    simp only [planFullScan, bind, Except.bind, if_true]
    rw [show getTable s.db.context.catalog trainingExportsTable = _ from found]
  simp only [selected, planned, decodeRows, List.map_map]
  rfl

theorem Sound.shown (h : Sound s) {e : UInt64 × TrainingExportLineage} (there : e ∈ s.exported) :
    (lineageKey e.1, rendered (lineageRow e.1 e.2)) ∈ selected s.db := by
  rw [h.selected_eq (h.declared (ne_nil_of_mem there))]
  refine List.mem_map.mpr ⟨(lineageKey e.1, encodeRow (lineageRow e.1 e.2)),
    mem_scanPrefix.mpr ⟨own_lineageKey e.1, h.stored e there⟩, ?_⟩
  have back := project_rendered (rendered_lineageRow (h.readsBack e there) e.1)
    ((newTable trainingExportsTable trainingExportsColumns).entry.columns.map CatalogColumn.name)
  rw [project_lineageRow] at back
  rw [back]

theorem Sound.nodup_recorded (h : Sound s) : s.recorded.Nodup := by
  apply List.Nodup.of_map Prod.fst
  rw [recorded, List.map_map]
  have keys := h.distinct.map (f := lineageKey) fun a b same => lineageKey_inj.mp same
  rwa [List.map_map] at keys

theorem Sound.complete (h : Sound s) : Complete s := by
  apply subperm_of_subset h.nodup_recorded
  intro row there
  obtain ⟨e, listed, rfl⟩ := List.mem_map.mp there
  exact h.shown listed

/-- With no other rows the query returns what was recorded. -/
theorem Alone.exact (h : Sound s) (alone : Alone s) : s.recorded.Perm (selected s.db) := by
  by_cases declared : newTable trainingExportsTable trainingExportsColumns ∈ s.db.catalog
  · have answer := h.selected_eq declared
    have distinct : (selected s.db).Nodup := by
      apply List.Nodup.of_map Prod.fst
      rw [answer, List.map_map]
      exact nodup_keys_of_ordered (s.db.store.scanPrefix_ordered _)
    apply (perm_ext_iff_of_nodup h.nodup_recorded distinct).mpr
    intro row
    constructor
    · intro there
      obtain ⟨e, listed, rfl⟩ := List.mem_map.mp there
      exact h.shown listed
    · intro there
      have keyed : ∀ r ∈ selected s.db, ∃ e ∈ s.exported, r.1 = lineageKey e.1 := by
        rw [answer]
        intro r hr
        obtain ⟨⟨k, v⟩, inside, rfl⟩ := List.mem_map.mp hr
        obtain ⟨under, stored⟩ := mem_scanPrefix.mp inside
        exact alone.rows k under (mem_iff.mpr ⟨v, stored⟩)
      obtain ⟨e, listed, same⟩ := keyed row there
      have once := inj_on_of_nodup_map (f := Prod.fst) (by
        rw [answer, List.map_map]
        exact nodup_keys_of_ordered (s.db.store.scanPrefix_ordered _)) there (h.shown listed) same
      exact List.mem_map.mpr ⟨e, listed, once.symm⟩
  · have none : s.exported = [] := by
      by_contra some_exported
      exact declared (h.declared some_exported)
    have absent : selected s.db = [] := by
      rw [selected]
      split
      · rename_i effect planned
        obtain ⟨entry, found, -⟩ := planFullScan_ok planned
        obtain ⟨t, listed, named, -⟩ := getTable_ok found
        rw [h.schema t listed named] at listed
        exact absurd listed declared
      · rfl
    rw [absent, recorded, none, map_nil]

/-- In every run that leaves recorded rows alone, `SELECT *` returns every recorded row as it was
recorded, and nothing else where no row was inserted into the system table. -/
theorem lineage_complete_of_run (acts : List Act) (s : LineageDb)
    (undisturbed : Run.Along LineageDb.step Undisturbed fresh acts)
    (reached : Run.run LineageDb.step fresh acts = some s) :
    Complete s ∧
      (Run.Along LineageDb.step InsertsElsewhere fresh acts → s.recorded.Perm (selected s.db)) := by
  have sound : Sound s := Run.invariant_of_run
    (fun s a s' h guard next => h.step guard next) sound_fresh undisturbed reached
  refine ⟨sound.complete, ?_⟩
  intro elsewhere
  have preserved : ∀ (s : LineageDb) (a : Act) (s' : LineageDb), Sound s ∧ Alone s →
      Undisturbed s a ∧ InsertsElsewhere s a → s.step a = some s' → Sound s' ∧ Alone s' :=
    fun s a s' h guard next => ⟨h.1.step guard.1 next, h.2.step h.1 guard.2 next⟩
  have both := Run.invariant_of_run preserved ⟨sound_fresh, alone_fresh⟩
    (undisturbed.and elsewhere) reached
  exact both.2.exact both.1

end Answers

instance (v : Value) : Decidable (KeepsSpelling v) :=
  match v with
  | .text s => decidable_of_iff ((∀ n ∈ parseI64 s, intDisplay n = s) ∧ ∀ f ∈ parseF64 s,
      parseI64 s = none → (46 ∈ s ∨ 101 ∈ s ∨ 69 ∈ s) → floatDisplay f = s)
    ⟨fun h => ⟨h.1, fun f whole found => h.2 f found whole⟩,
      fun h => ⟨h.1, fun f found whole => h.2 f whole found⟩⟩
  | .null | .integer _ | .float _ | .bool _ | .blob _ | .array _ => isTrue trivial

instance (s : Bytes) : Decidable (Readable s) := inferInstanceAs (Decidable (_ ∧ _))

instance (l : TrainingExportLineage) : Decidable l.ReadsBack :=
  decidable_of_iff (Readable l.tagName ∧ (∀ s ∈ l.filterExpr, Readable s) ∧ Readable l.precision ∧
      KeepsSpelling (.text l.contentHash))
    ⟨fun h => ⟨h.1, h.2.1, h.2.2.1, h.2.2.2⟩, fun h => ⟨h.1, h.2, h.3, h.4⟩⟩

instance (s : LineageDb) (a : Act) : Decidable (Undisturbed s a) := by
  unfold Undisturbed
  have (read : Except SqlError (List (Bytes × Columns))) : Decidable (match read with
      | .ok pairs => ∀ p ∈ pairs, ∀ e ∈ s.exported, p.1 ≠ lineageKey e.1
      | .error _ => True) := by
    rcases read <;> infer_instance
  rcases a with ⟨_ | _ | _ | _ | _ | _ | _ | _ | _ | _⟩ | _ <;> infer_instance

instance (s : LineageDb) (a : Act) : Decidable (InsertsElsewhere s a) := by
  unfold InsertsElsewhere
  split <;> infer_instance

def sampleExport (rows : UInt64) : TrainingExportLineage :=
  ⟨ascii "v1", none, ascii "float32", false, rows, 1700000000, ascii "c0ffee"⟩

/-- Two exports with statements and a restart of the database between them. -/
def sampleRun : List Act :=
  [.statement (.createTable (ascii "docs") [⟨⟨ascii "id", true, false⟩, ascii "INT", false⟩]),
    .statement (.insert (ascii "docs") [] [.integer 1]), .trainingDataset (sampleExport 1),
    .statement (.update trainingExportsTable [] none),
      .statement (.delete trainingExportsTable none),
    .begin, .exec 0 (.plan (.insert (ascii "docs") [] [.integer 2])) 1, .commit 0, .restart false,
    .trainingDataset (sampleExport 2)]

theorem lineage_complete_of_sample_run : ∃ s, Run.run LineageDb.step fresh sampleRun = some s ∧
    Complete s ∧ s.recorded.Perm (selected s.db) := by
  obtain ⟨s, reached⟩ : ∃ s, Run.run LineageDb.step fresh sampleRun = some s :=
    isSome_iff_exists.mp (by decide +kernel)
  obtain ⟨complete, exact⟩ := lineage_complete_of_run sampleRun s (by decide +kernel) reached
  exact ⟨s, reached, complete, exact (by decide +kernel)⟩

/-- After a restart of the process the second export takes the key of the first. -/
theorem lineage_lost_after_restart :
    ¬ ∀ (acts : List Act) (s : LineageDb), Run.run LineageDb.step fresh acts = some s →
      Complete s := by
  intro claim
  let acts : List Act := [.trainingDataset (sampleExport 1), .restart true,
    .trainingDataset (sampleExport 2)]
  obtain ⟨s, reached⟩ : ∃ s, Run.run LineageDb.step fresh acts = some s :=
    isSome_iff_exists.mp (by decide +kernel)
  have lengths : ∀ s ∈ Run.run LineageDb.step fresh acts,
      s.recorded.length = 2 ∧ (selected s.db).length = 1 := by
    decide +kernel
  obtain ⟨recorded, returned⟩ := lengths s reached
  have fits := (claim acts s reached).length_le
  omega

end LineageDb

end GalaxDb.Sql
