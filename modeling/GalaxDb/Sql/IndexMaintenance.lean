import GalaxDb.Sql.IndexKeys

/-!
# Index maintenance

Every row of an indexed table has an entry under its indexed value, and every entry belongs
to a definition and to a row key of its table. Each statement keeps this, as long as the
rows it writes read back with the values under which it files them.
-/

namespace GalaxDb.Sql

open Std Bytes Executor SecondaryIndex MapDatabase Store WriteLog List

namespace Store

variable {store store' : Store}

variable {writes : List (Bytes × Option Bytes)} {k v : Bytes}

theorem mem_iff : k ∈ store ↔ ∃ v, store[k]? = some v := by
  rw [ExtTreeMap.mem_iff_isSome_getElem?, Option.isSome_iff_exists]

theorem mem_congr (same : store'[k]? = store[k]?) : k ∈ store' ↔ k ∈ store := by
  rw [mem_iff, mem_iff, same]

theorem mem_scanPrefix {pfx : Bytes} :
    (k, v) ∈ store.scanPrefix pfx ↔ pfx <+: k ∧ store[k]? = some v := by
  rw [scanPrefix, mem_filter, ExtTreeMap.mem_toList_iff_getElem?_eq_some,
    isPrefixOf_iff_prefix, and_comm]

theorem scanPrefix_ordered (store : Store) (pfx : Bytes) :
    (store.scanPrefix pfx).Pairwise fun a b => compare a.1 b.1 = .lt :=
  ExtTreeMap.ordered_keys_toList.filter _

/-- A scan depends on the keys under its prefix alone. -/
theorem scanPrefix_congr {pfx : Bytes} (same : ∀ k, pfx <+: k → store'[k]? = store[k]?) :
    store'.scanPrefix pfx = store.scanPrefix pfx := by
  apply Bytes.eq_of_ordered_of_mem_iff Prod.fst (store'.scanPrefix_ordered pfx)
    (store.scanPrefix_ordered pfx)
  rintro ⟨k, v⟩
  rw [mem_scanPrefix, mem_scanPrefix]
  exact and_congr_right fun inside => by rw [same k inside]

theorem getElem?_overlayWrite (store : Store) (w : Bytes × Option Bytes) :
    (fun k => (Reader.overlayWrite store w)[k]?) = write (fun k => store[k]?) w := by
  obtain ⟨key, value⟩ := w
  funext k
  by_cases same : key = k
  · subst same
    rw [write_self]
    cases value <;> simp [Reader.overlayWrite]
  · rw [write_other _ _ (Ne.symm same)]
    cases value <;> simp [Reader.overlayWrite, ExtTreeMap.getElem?_insert,
      ExtTreeMap.getElem?_erase, same]

theorem getElem?_apply (store : Store) (writes : List (Bytes × Option Bytes)) (k : Bytes) :
    (store.apply writes)[k]? = (lastWrite writes k).getD store[k]? := by
  rw [← foldl_write]
  induction writes generalizing store with
  | nil => rfl
  | cons w rest ih =>
    rw [foldl_cons, ← getElem?_overlayWrite]
    exact ih _

theorem apply_append (store : Store) (writes later : List (Bytes × Option Bytes)) :
    store.apply (writes ++ later) = (store.apply writes).apply later := foldl_append ..

theorem apply_put (store : Store) (key value : Bytes) :
    store.apply [(key, some value)] = store.insert key value := rfl

/-- A key that nothing is written to. -/
theorem getElem?_apply_of_not_mem (untouched : ∀ w ∈ writes, w.1 ≠ k) :
    (store.apply writes)[k]? = store[k]? := by
  have none : lastWrite writes k = none := by
    by_contra written
    obtain ⟨w, there, same⟩ := mem_map.mp (lastWrite_ne_none_iff.mp written)
    exact untouched w there same
  rw [getElem?_apply, none]
  rfl

/-- A value comes from the store or from one of the writes. -/
theorem apply_eq_some (found : (store.apply writes)[k]? = some v) :
    store[k]? = some v ∨ (k, some v) ∈ writes := by
  rw [getElem?_apply] at found
  cases last : lastWrite writes k with
  | none => exact .inl (by simpa [last] using found)
  | some w =>
    obtain rfl : w = some v := by simpa [last] using found
    exact .inr (mem_of_lastWrite last)

theorem getElem?_apply_deletes (deletes : ∀ w ∈ writes, w.2 = none) (k : Bytes) :
    (store.apply writes)[k]? = if k ∈ writes.map Prod.fst then none else store[k]? := by
  rw [getElem?_apply]
  cases last : lastWrite writes k with
  | none =>
    have untouched : k ∉ writes.map Prod.fst :=
      fun there => lastWrite_ne_none_iff.mpr there last
    rw [if_neg untouched]
    rfl
  | some w =>
    have there := mem_of_lastWrite last
    have nothing : w = none := deletes _ there
    rw [if_pos (mem_map.mpr ⟨_, there, rfl⟩), nothing]
    rfl

/-- What is stored stays unless it is deleted. -/
theorem mem_apply_of_mem (stored : k ∈ store) (kept : (k, none) ∉ writes) :
    k ∈ store.apply writes := by
  rw [ExtTreeMap.mem_iff_isSome_getElem?] at stored ⊢
  rw [getElem?_apply]
  cases last : lastWrite writes k with
  | none => exact stored
  | some w =>
    cases w with
    | none => exact absurd (mem_of_lastWrite last) kept
    | some v => rfl

/-- What is written is stored unless it is deleted afterwards. -/
theorem mem_apply_of_write {before after : List (Bytes × Option Bytes)} (kept : (k, none) ∉ after) :
    k ∈ store.apply (before ++ (k, some v) :: after) := by
  obtain ⟨v', last⟩ := @lastWrite_of_no_delete _ _ _ before after k v kept
  rw [ExtTreeMap.mem_iff_isSome_getElem?, getElem?_apply, last]
  rfl

theorem mem_apply_of_write_mem (there : (k, some v) ∈ writes) (kept : (k, none) ∉ writes) :
    k ∈ store.apply writes := by
  obtain ⟨before, after, rfl⟩ := append_of_mem there
  apply mem_apply_of_write
  intro deleted
  exact kept (mem_append_right _ (mem_cons_of_mem _ deleted))

end Store

section Definitions

variable {store store' : Store}

theorem getDef_congr (same : ∀ k, defPrefix <+: k → store'[k]? = store[k]?) (name : Bytes) :
    getDef store' name = getDef store name := by
  rw [getDef, getDef, same _ (startsWith_defKey name)]

/-- All index definitions. -/
def definitions (store : Store) : List IndexDef :=
  (store.scanPrefix defPrefix).filterMap fun r => store[r.1]?.bind IndexDef.fromBytes

theorem definitions_congr (same : ∀ k, defPrefix <+: k → store'[k]? = store[k]?) :
    definitions store' = definitions store := by
  rw [definitions, definitions, scanPrefix_congr same]
  apply filterMap_congr
  rintro ⟨k, v⟩ there
  rw [same k (mem_scanPrefix.mp there).1]

theorem defsForTable_eq (store : Store) (table : Bytes) :
    defsForTable store table = (definitions store).filter fun d => d.table = table := rfl

theorem defsForTable_congr (same : ∀ k, defPrefix <+: k → store'[k]? = store[k]?) (table : Bytes) :
    defsForTable store' table = defsForTable store table := by
  rw [defsForTable_eq, defsForTable_eq, definitions_congr same]

/-- Keys of entries only. -/
def EntryWrites (writes : List (Bytes × Option Bytes)) : Prop := ∀ w ∈ writes, entryPrefix <+: w.1

variable {writes : List (Bytes × Option Bytes)} {w : Bytes × Option Bytes} {ordered : Columns}
  {pk : Bytes}

theorem EntryWrites.untouched (entries : EntryWrites writes) {k : Bytes}
    (other : ¬ entryPrefix <+: k) : (store.apply writes)[k]? = store[k]? := by
  apply getElem?_apply_of_not_mem
  rintro w there rfl
  exact other (entries w there)

theorem EntryWrites.defs (entries : EntryWrites writes) (k : Bytes) (inside : defPrefix <+: k) :
    (store.apply writes)[k]? = store[k]? :=
  entries.untouched (defPrefix_apart_entryPrefix.excludes inside)

variable {defs : List IndexDef}

theorem mem_insertEntries :
    w ∈ insertEntries defs ordered pk ↔ ∃ d ∈ defs, ∃ v, cell ordered d.column = some v ∧
      w = (entryKey d.name v pk, some pk) := by
  simp [insertEntries, insertEntry, eq_comm]

theorem mem_deleteEntries :
    w ∈ deleteEntries defs ordered pk ↔ ∃ d ∈ defs, ∃ v, cell ordered d.column = some v ∧
      w = (entryKey d.name v pk, none) := by
  simp [deleteEntries, deleteEntry, eq_comm]

theorem entryWrites_insertEntries (defs : List IndexDef) (ordered : Columns) (pk : Bytes) :
    EntryWrites (insertEntries defs ordered pk) := by
  intro w hw
  obtain ⟨d, -, v, -, rfl⟩ := mem_insertEntries.mp hw
  exact startsWith_entryKey ..

theorem entryWrites_deleteEntries (defs : List IndexDef) (ordered : Columns) (pk : Bytes) :
    EntryWrites (deleteEntries defs ordered pk) := by
  intro w hw
  obtain ⟨d, -, v, -, rfl⟩ := mem_deleteEntries.mp hw
  exact startsWith_entryKey ..

/-- Hooks that write entries leave the definitions alone, so they may be collected. -/
theorem foldl_hooks {α : Type*} (table : Bytes)
    (writes : List IndexDef → α → List (Bytes × Option Bytes))
    (entries : ∀ defs r, EntryWrites (writes defs r)) (rows : List α) (store : Store) :
    rows.foldl (fun (s : Store) r => s.apply (writes (defsForTable s table) r)) store =
      store.apply (rows.flatMap (writes (defsForTable store table))) := by
  induction rows generalizing store with
  | nil => rfl
  | cons r rest ih =>
    have same := @defsForTable_congr store _ (entries (defsForTable store table) r).defs table
    rw [foldl_cons, ih, same, flatMap_cons, apply_append]

end Definitions

section Invariant

/-- The value of an entry for a row: that of the row, except that an update may leave one
float for another that it takes for equal. -/
def Similar (w v : Value) : Prop := w = v ∨ ∃ f g, w = .float f ∧ v = .float g

structure Indexed (store : Store) : Prop where
  defs : ∀ k v, store[k]? = some v → defPrefix <+: k →
    ∃ d, IndexDef.fromBytes v = some d ∧ k = defKey d.name ∧ (0 : UInt8) ∉ d.name ∧
      PlainName d.table
  entries : ∀ k, k ∈ store → entryPrefix <+: k →
    ∃ d w pk, getDef store d.name = some d ∧ k = entryKey d.name w pk ∧ tablePrefix d.table <+: pk
  rows : ∀ d k bytes v, getDef store d.name = some d → store[k]? = some bytes →
    tablePrefix d.table <+: k → cell (decodeRow bytes) d.column = some v →
      ∃ w, Similar w v ∧ entryKey d.name w k ∈ store

/-- The row is in no other indexed table by its key, and reads back with its indexed cells. -/
def Lands (store : Store) (table : Bytes) (r : Bytes × Columns) : Prop :=
  ∀ d ∈ definitions store, tablePrefix d.table <+: r.1 →
    d.table = table ∧ cell (decodeRow (encodeRow r.2)) d.column = cell r.2 d.column

theorem indexed_empty : Indexed (∅ : Store) where
  defs k v found := by simp at found
  entries k there := by simp at there
  rows d k bytes v _ found := by simp at found

variable {store store' : Store}

variable {d : IndexDef}

theorem Indexed.of_getDef (h : Indexed store) {name : Bytes} (found : getDef store name = some d) :
    d.name = name ∧ (0 : UInt8) ∉ d.name ∧ PlainName d.table := by
  obtain ⟨bytes, stored, parsed⟩ := Option.bind_eq_some_iff.mp found
  obtain ⟨d', parsed', key, clean, plain⟩ := h.defs _ bytes stored (startsWith_defKey name)
  obtain rfl : d' = d := Option.some.inj (parsed'.symm.trans parsed)
  exact ⟨(append_cancel_left key).symm, clean, plain⟩

theorem Indexed.mem_definitions (h : Indexed store) :
    d ∈ definitions store ↔ getDef store d.name = some d := by
  rw [definitions, mem_filterMap]
  constructor
  · rintro ⟨⟨k, v⟩, there, parsed⟩
    obtain ⟨inside, stored⟩ := mem_scanPrefix.mp there
    obtain ⟨d', parsed', rfl, -⟩ := h.defs k v stored inside
    simp only [stored, Option.bind_some, parsed', Option.some.injEq] at parsed
    subst parsed
    rw [getDef, stored]
    exact parsed'
  · intro found
    obtain ⟨bytes, stored, -⟩ := Option.bind_eq_some_iff.mp found
    exact ⟨(defKey d.name, bytes), mem_scanPrefix.mpr ⟨startsWith_defKey _, stored⟩, found⟩

theorem Indexed.mem_defsForTable (h : Indexed store) {table : Bytes} :
    d ∈ defsForTable store table ↔ getDef store d.name = some d ∧ d.table = table := by
  rw [← h.mem_definitions, defsForTable_eq, mem_filter, decide_eq_true_iff]

/-- The rule for writes that leave the definitions alone. -/
theorem Indexed.rewritten (h : Indexed store)
    (sameDefs : ∀ k, defPrefix <+: k → store'[k]? = store[k]?)
    (entries : ∀ k, k ∈ store' → entryPrefix <+: k → k ∈ store ∨ ∃ d w pk,
      getDef store d.name = some d ∧ k = entryKey d.name w pk ∧ tablePrefix d.table <+: pk)
    (rows : ∀ d k bytes v, getDef store d.name = some d → store'[k]? = some bytes →
      tablePrefix d.table <+: k → cell (decodeRow bytes) d.column = some v →
        ∃ w, Similar w v ∧ entryKey d.name w k ∈ store') : Indexed store' where
  defs k v found inside := h.defs k v (sameDefs k inside ▸ found) inside
  entries k there inside := by
    have owned : ∃ d w pk, getDef store d.name = some d ∧ k = entryKey d.name w pk ∧
        tablePrefix d.table <+: pk := by
      rcases entries k there inside with before | new
      · exact h.entries k before inside
      · exact new
    obtain ⟨d, w, pk, defined, rest⟩ := owned
    exact ⟨d, w, pk, (getDef_congr sameDefs d.name).trans defined, rest⟩
  rows d k bytes v defined := rows d k bytes v ((getDef_congr sameDefs d.name).symm.trans defined)

/-- Row keys and index keys as they were. -/
theorem Indexed.of_same (h : Indexed store)
    (rows : ∀ k : Bytes, k.head? ≠ some 0 → store'[k]? = store[k]?)
    (defs : ∀ k, defPrefix <+: k → store'[k]? = store[k]?)
    (entries : ∀ k, entryPrefix <+: k → store'[k]? = store[k]?) : Indexed store' := by
  have mem : ∀ k, entryPrefix <+: k → (k ∈ store' ↔ k ∈ store) :=
    fun k inside => mem_congr (entries k inside)
  apply h.rewritten defs
  · intro k there inside
    exact .inl ((mem k inside).mp there)
  · intro d k bytes v defined found inside valued
    have row := (h.of_getDef defined).2.2.head_of_row inside
    obtain ⟨w, similar, there⟩ := h.rows d k bytes v defined (rows k row ▸ found) inside valued
    exact ⟨w, similar, (mem _ (startsWith_entryKey ..)).mpr there⟩

end Invariant

section Rows

variable {store : Store} {table : Bytes}

/-- Keys of rows only. -/
def RowWrites (writes : List (Bytes × Option Bytes)) : Prop := ∀ w ∈ writes, w.1.head? ≠ some 0

variable {writes : List (Bytes × Option Bytes)} {k : Bytes}

theorem RowWrites.untouched (rows : RowWrites writes) {pfx : Bytes} (zero : pfx.head? = some 0)
    (inside : pfx <+: k) : (store.apply writes)[k]? = store[k]? := by
  apply getElem?_apply_of_not_mem
  rintro w there rfl
  exact not_prefix_of_head zero (rows w there) inside

theorem RowWrites.mem_iff (rows : RowWrites writes) (inside : entryPrefix <+: k) :
    k ∈ store.apply writes ↔ k ∈ store :=
  mem_congr (rows.untouched rfl inside)

theorem EntryWrites.row (entries : EntryWrites writes) (row : k.head? ≠ some 0) :
    (store.apply writes)[k]? = store[k]? :=
  entries.untouched (not_prefix_of_head rfl row)

theorem entryWrites_flatMap {α : Type*} {rows : List α} {writes : α → List (Bytes × Option Bytes)}
    (entries : ∀ r, EntryWrites (writes r)) : EntryWrites (rows.flatMap writes) := by
  intro w hw
  obtain ⟨r, -, there⟩ := mem_flatMap.mp hw
  exact entries r w there

variable {rows : List (Bytes × Columns)}

theorem insertAll_eq (rowWrites : RowWrites (rows.map fun r => (r.1, some (encodeRow r.2)))) :
    insertAll store table rows = (putRows store rows).apply
      (rows.flatMap fun r => insertEntries (defsForTable store table) r.2 r.1) := by
  have same : defsForTable (putRows store rows) table = defsForTable store table :=
    defsForTable_congr (fun k inside => rowWrites.untouched rfl inside) table
  rw [← same]
  exact @foldl_hooks (Bytes × Columns) table (fun defs r => insertEntries defs r.2 r.1)
    (fun defs r => entryWrites_insertEntries defs r.2 r.1) rows _

theorem deleteAll_eq {rows : List BufferedRow}
    (rowWrites : RowWrites (rows.map fun r => (r.1, none))) :
    deleteAll store table rows = (store.apply (rows.map fun r => (r.1, none))).apply
      (rows.flatMap fun r => deleteEntries (defsForTable store table) r.2 r.1) := by
  have same : defsForTable (store.apply (rows.map fun r => (r.1, none))) table =
      defsForTable store table :=
    defsForTable_congr (fun k inside => rowWrites.untouched rfl inside) table
  rw [← same]
  exact @foldl_hooks BufferedRow table (fun defs r => deleteEntries defs r.2 r.1)
    (fun defs r => entryWrites_deleteEntries defs r.2 r.1) rows _

/-- The index follows the rows that are inserted. -/
theorem Indexed.insertAll (h : Indexed store) (plain : PlainName table)
    (own : ∀ r ∈ rows, tablePrefix table <+: r.1) (lands : ∀ r ∈ rows, Lands store table r) :
    Indexed (insertAll store table rows) := by
  have rowWrites : RowWrites (rows.map fun r => (r.1, some (encodeRow r.2))) := by
    intro w hw
    obtain ⟨r, hr, rfl⟩ := mem_map.mp hw
    exact plain.head_of_row (own r hr)
  have entryWrites : EntryWrites
      (rows.flatMap fun r => insertEntries (defsForTable store table) r.2 r.1) :=
    entryWrites_flatMap fun r => entryWrites_insertEntries _ r.2 r.1
  have inserts : ∀ k, (k, none) ∉
      rows.flatMap fun r => insertEntries (defsForTable store table) r.2 r.1 := by
    intro k there
    obtain ⟨r, -, there⟩ := mem_flatMap.mp there
    obtain ⟨d, -, v, -, eq⟩ := mem_insertEntries.mp there
    cases eq
  rw [insertAll_eq rowWrites]
  apply h.rewritten
  · intro k inside
    rw [entryWrites.defs k inside]
    exact rowWrites.untouched rfl inside
  · intro k there inside
    obtain ⟨v, found⟩ := mem_iff.mp there
    rcases apply_eq_some found with before | new
    · left
      apply (rowWrites.mem_iff inside).mp
      exact mem_iff.mpr ⟨v, before⟩
    · right
      obtain ⟨r, hr, new⟩ := mem_flatMap.mp new
      obtain ⟨d, listed, w, -, eq⟩ := mem_insertEntries.mp new
      obtain ⟨defined, rfl⟩ := h.mem_defsForTable.mp listed
      exact ⟨d, w, r.1, defined, (Prod.mk.inj eq).1, own r hr⟩
  · intro d k bytes v defined found inside valued
    have row := (h.of_getDef defined).2.2.head_of_row inside
    rw [entryWrites.row row] at found
    rcases apply_eq_some found with before | new
    · obtain ⟨w, similar, there⟩ := h.rows d k bytes v defined before inside valued
      have kept := (rowWrites.mem_iff (startsWith_entryKey ..)).mpr there
      exact ⟨w, similar, mem_apply_of_mem kept (inserts _)⟩
    · obtain ⟨r, hr, eq⟩ := mem_map.mp new
      obtain ⟨rfl, rfl⟩ : r.1 = k ∧ encodeRow r.2 = bytes := by simpa using eq
      obtain ⟨rfl, back⟩ := lands r hr d (h.mem_definitions.mpr defined) inside
      refine ⟨v, .inl rfl, mem_apply_of_write_mem (v := r.1) ?_ (inserts _)⟩
      refine mem_flatMap.mpr ⟨r, hr, mem_insertEntries.mpr ⟨d, ?_, v, ?_, rfl⟩⟩
      · exact h.mem_defsForTable.mpr ⟨defined, rfl⟩
      · rw [← back, valued]

/-- The index follows the rows that are deleted. -/
theorem Indexed.deleteAll (h : Indexed store) (plain : PlainName table) {rows : List BufferedRow}
    (own : ∀ r ∈ rows, tablePrefix table <+: r.1) : Indexed (deleteAll store table rows) := by
  have rowWrites : RowWrites (rows.map fun r => (r.1, none)) := by
    intro w hw
    obtain ⟨r, hr, rfl⟩ := mem_map.mp hw
    exact plain.head_of_row (own r hr)
  have entryWrites : EntryWrites
      (rows.flatMap fun r => deleteEntries (defsForTable store table) r.2 r.1) :=
    entryWrites_flatMap fun r => entryWrites_deleteEntries _ r.2 r.1
  have deletes : ∀ w ∈ rows.flatMap fun r => deleteEntries (defsForTable store table) r.2 r.1,
      ∃ r ∈ rows, ∃ (d : IndexDef) (v : Value), (0 : UInt8) ∉ d.name ∧
        w = (entryKey d.name v r.1, none) := by
    intro w hw
    obtain ⟨r, hr, there⟩ := mem_flatMap.mp hw
    obtain ⟨d, listed, v, -, eq⟩ := mem_deleteEntries.mp there
    exact ⟨r, hr, d, v, (h.of_getDef (h.mem_defsForTable.mp listed).1).2.1, eq⟩
  rw [deleteAll_eq rowWrites]
  apply h.rewritten
  · intro k inside
    rw [entryWrites.defs k inside]
    exact rowWrites.untouched rfl inside
  · intro k there inside
    left
    apply (rowWrites.mem_iff inside).mp
    obtain ⟨v, found⟩ := mem_iff.mp there
    rcases apply_eq_some found with before | new
    · exact mem_iff.mpr ⟨v, before⟩
    · obtain ⟨r, -, d, w, -, eq⟩ := deletes _ new
      cases eq
  · intro d k bytes v defined found inside valued
    obtain ⟨-, clean, plain'⟩ := h.of_getDef defined
    rw [entryWrites.row (plain'.head_of_row inside)] at found
    rw [getElem?_apply_deletes (by simp [eq_comm])] at found
    obtain ⟨kept, before⟩ := Option.ite_none_left_eq_some.mp found
    obtain ⟨w, similar, there⟩ := h.rows d k bytes v defined before inside valued
    refine ⟨w, similar,
      mem_apply_of_mem ((rowWrites.mem_iff (startsWith_entryKey ..)).mpr there) ?_⟩
    intro deleted
    obtain ⟨r, hr, d', v', clean', eq⟩ := deletes _ deleted
    obtain ⟨-, -, same⟩ := entryKey_inj clean clean' (Prod.mk.inj eq).1
    apply kept
    simp only [map_map, mem_map]
    exact ⟨r, hr, same.symm⟩

end Rows

variable {u v : Value}

theorem exists_text_of_cell {bytes column : Bytes} (valued :
    cell (decodeRow bytes) column = some v) :
    ∃ s, v = valueFromStr s := by
  obtain ⟨c, found, rfl⟩ := Option.map_eq_some_iff.mp valued
  obtain ⟨part, -, split⟩ := mem_filterMap.mp (mem_of_find?_eq_some found)
  obtain ⟨p, -, rfl⟩ := Option.map_eq_some_iff.mp split
  exact ⟨p.2, rfl⟩

theorem parseI64_fits {s : Bytes} {n : Int} (parsed : parseI64 s = some n) :
    FitsI64 (.integer n) := by
  simp only [parseI64] at parsed
  split at parsed
  · cases parsed
  · obtain ⟨fits, value⟩ := Option.ite_none_right_eq_some.mp parsed
    obtain rfl := Option.some.inj value
    exact fits

/-- A decoded value is no array, and its integers have 64 bits. -/
theorem valueFromStr_kind (s : Bytes) :
    FitsI64 (valueFromStr s) ∧ ∀ items, valueFromStr s ≠ .array items := by
  unfold valueFromStr
  split
  · exact ⟨trivial, by simp⟩
  split
  · exact ⟨trivial, by simp⟩
  split
  · exact ⟨trivial, by simp⟩
  split
  · rename_i parsed
    exact ⟨parseI64_fits parsed, by simp⟩
  split
  · split
    · exact ⟨trivial, by simp⟩
    · exact ⟨trivial, by simp⟩
  · exact ⟨trivial, by simp⟩

theorem eq_of_value_eq (same : u.eq v = true) (flat : ∀ items, v ≠ .array items) :
    u = v ∨ ∃ f g, u = .float f ∧ v = .float g := by
  cases v with
  | array items => exact absurd rfl (flat items)
  | float g => cases u <;> simp_all [Value.eq]
  | integer n => cases u <;> simp_all [Value.eq]
  | text s => cases u <;> simp_all [Value.eq]
  | bool b => cases u <;> simp_all [Value.eq]
  | null => cases u <;> simp_all [Value.eq]
  | blob bytes => cases u <;> simp_all [Value.eq]

theorem Similar.of_eq {w : Value} (similar : Similar w u) (same : u.eq v = true)
    (flat : ∀ items, v ≠ .array items) : Similar w v := by
  rcases eq_of_value_eq same flat with rfl | ⟨f, g, rfl, rfl⟩
  · exact similar
  · rcases similar with rfl | ⟨f', -, rfl, -⟩
    · exact .inr ⟨f, g, rfl, rfl⟩
    · exact .inr ⟨f', g, rfl, rfl⟩

section Updates

variable {store : Store} {table : Bytes} {defs : List IndexDef} {old new : Columns} {pk : Bytes}

/-- The definition's cell is not what it was. -/
def Changed (old new : Columns) (d : IndexDef) : Prop :=
  sameCell (cell old d.column) (cell new d.column) = false

theorem of_mem_moveEntries {w : Bytes × Option Bytes} (there : w ∈ moveEntries defs old new pk) :
    ∃ d ∈ defs, Changed old new d ∧ ∃ v, w = (entryKey d.name v pk, none) ∨
      w = (entryKey d.name v pk, some pk) := by
  obtain ⟨d, listed, there⟩ := mem_flatMap.mp there
  split at there
  · simp at there
  · rename_i changed
    refine ⟨d, listed, by simpa [Changed] using changed, ?_⟩
    rcases mem_append.mp there with deleted | inserted
    · obtain ⟨v, -, rfl⟩ := mem_map.mp deleted
      exact ⟨v, .inl rfl⟩
    · obtain ⟨v, -, rfl⟩ := mem_map.mp inserted
      exact ⟨v, .inr rfl⟩

theorem entryWrites_moveEntries (defs : List IndexDef) (old new : Columns) (pk : Bytes) :
    EntryWrites (moveEntries defs old new pk) := by
  intro w hw
  obtain ⟨d, -, -, v, rfl | rfl⟩ := of_mem_moveEntries hw
  · exact startsWith_entryKey ..
  · exact startsWith_entryKey ..

/-- The entry of a changed cell is there in the end: the deletes of other indexes have
other keys, and its own comes before it. -/
theorem mem_apply_moveEntries (clean : ∀ d ∈ defs, (0 : UInt8) ∉ d.name)
    (unique : ∀ d ∈ defs, ∀ d' ∈ defs, d.name = d'.name → d = d') {d : IndexDef} (listed : d ∈ defs)
    (changed : Changed old new d) {v : Value} (valued : cell new d.column = some v) :
    entryKey d.name v pk ∈ store.apply (moveEntries defs old new pk) := by
  obtain ⟨after, before, eq, last⟩ := eq_append_cons_of_mem (mem_reverse.mpr listed)
  obtain rfl : defs = before.reverse ++ d :: after.reverse := by
    simpa using congrArg List.reverse eq
  have split : moveEntries (before.reverse ++ d :: after.reverse) old new pk =
      (moveEntries before.reverse old new pk ++
        (cell old d.column).toList.map (deleteEntry d.name pk)) ++
        (entryKey d.name v pk, some pk) :: moveEntries after.reverse old new pk := by
    rw [Changed, valued] at changed
    simp [moveEntries, changed, valued, insertEntry]
  rw [split]
  apply mem_apply_of_write
  intro deleted
  obtain ⟨d', later, -, v', eq | eq⟩ := of_mem_moveEntries deleted
  · have listed' : d' ∈ before.reverse ++ d :: after.reverse := by simp_all
    obtain ⟨name, -⟩ := entryKey_inj (clean d listed) (clean d' listed') (Prod.mk.inj eq).1
    obtain rfl := unique d listed d' listed' name
    exact last (mem_reverse.mp later)
  · simp at eq

/-- The index follows a row that is updated. -/
theorem Indexed.updatedRow (h : Indexed store) (plain : PlainName table) {key bytes : Bytes}
    (own : tablePrefix table <+: key) (stored : store[key]? = some bytes)
    (lands : Lands store table (key, new)) :
    Indexed (onRowUpdated (store.insert key (encodeRow new)) table (decodeRow bytes) new key) := by
  have row : key.head? ≠ some 0 := plain.head_of_row own
  have rowWrites : RowWrites [(key, some (encodeRow new))] := by
    intro w hw
    rw [mem_singleton.mp hw]
    exact row
  have same : defsForTable (store.insert key (encodeRow new)) table = defsForTable store table :=
    defsForTable_congr (fun k inside => rowWrites.untouched rfl inside) table
  have names : ∀ d ∈ defsForTable store table, (0 : UInt8) ∉ d.name :=
    fun d listed => (h.of_getDef (h.mem_defsForTable.mp listed).1).2.1
  have entryWrites := entryWrites_moveEntries (defsForTable store table) (decodeRow bytes) new key
  rw [onRowUpdated, same, ← apply_put]
  apply h.rewritten
  · intro k inside
    rw [entryWrites.defs k inside]
    exact rowWrites.untouched rfl inside
  · intro k there inside
    obtain ⟨v, found⟩ := mem_iff.mp there
    rcases apply_eq_some found with before | moved
    · exact .inl ((rowWrites.mem_iff inside).mp (mem_iff.mpr ⟨v, before⟩))
    · obtain ⟨d, listed, -, w, eq | eq⟩ := of_mem_moveEntries moved
      · simp at eq
      · obtain ⟨defined, rfl⟩ := h.mem_defsForTable.mp listed
        exact .inr ⟨d, w, key, defined, (Prod.mk.inj eq).1, own⟩
  · intro d k bytes' v defined found inside valued
    obtain ⟨-, clean, plain'⟩ := h.of_getDef defined
    rw [entryWrites.row (plain'.head_of_row inside)] at found
    by_cases here : k = key
    · subst here
      obtain rfl : bytes' = encodeRow new := by
        simpa [apply_put] using found.symm
      obtain ⟨rfl, back⟩ := lands d (h.mem_definitions.mpr defined) inside
      have listed : d ∈ defsForTable store d.table := h.mem_defsForTable.mpr ⟨defined, rfl⟩
      have newCell : cell new d.column = some v := by rw [← valued, ← back]
      by_cases changed : Changed (decodeRow bytes) new d
      · refine ⟨v, .inl rfl, mem_apply_moveEntries names ?_ listed changed newCell⟩
        intro a ha b hb name
        have first := (h.mem_defsForTable.mp ha).1
        have second := (h.mem_defsForTable.mp hb).1
        exact Option.some.inj (first.symm.trans (name ▸ second))
      · -- the cell is the one it was, and so is its entry
        have equal : sameCell (cell (decodeRow bytes) d.column) (cell new d.column) = true := by
          simpa [Changed] using changed
        rw [newCell] at equal
        cases oldCell : cell (decodeRow bytes) d.column with
        | none => simp [oldCell, sameCell] at equal
        | some u =>
          obtain ⟨w, similar, there⟩ := h.rows d k bytes u defined stored inside oldCell
          obtain ⟨s, rfl⟩ := exists_text_of_cell valued
          rw [oldCell] at equal
          refine ⟨w, similar.of_eq equal (valueFromStr_kind s).2, ?_⟩
          apply mem_apply_of_mem ((rowWrites.mem_iff (startsWith_entryKey ..)).mpr there)
          intro deleted
          obtain ⟨d', listed', changed', v', eq | eq⟩ := of_mem_moveEntries deleted
          · obtain ⟨name, -⟩ := entryKey_inj clean (names d' listed') (Prod.mk.inj eq).1
            have defined' := (h.mem_defsForTable.mp listed').1
            obtain rfl : d = d' := Option.some.inj (defined.symm.trans (name ▸ defined'))
            exact changed changed'
          · simp at eq
    · have before : store[k]? = some bytes' := by
        rw [getElem?_apply_of_not_mem] at found
        · exact found
        · intro w hw
          rw [mem_singleton.mp hw]
          exact Ne.symm here
      obtain ⟨w, similar, there⟩ := h.rows d k bytes' v defined before inside valued
      refine ⟨w, similar, ?_⟩
      apply mem_apply_of_mem ((rowWrites.mem_iff (startsWith_entryKey ..)).mpr there)
      intro deleted
      obtain ⟨d', listed', -, v', eq | eq⟩ := of_mem_moveEntries deleted
      · obtain ⟨-, -, key'⟩ := entryKey_inj clean (names d' listed') (Prod.mk.inj eq).1
        exact here key'
      · simp at eq

end Updates

section NewIndexes

variable {store : Store}

variable {d : IndexDef}

theorem mem_buildEntries {w : Bytes × Option Bytes} :
    w ∈ buildEntries store d ↔ ∃ k bytes, tablePrefix d.table <+: k ∧ store[k]? = some bytes ∧
      ∃ v, cell (decodeRow bytes) d.column = some v ∧ w = (entryKey d.name v k, some k) := by
  simp only [buildEntries, mem_flatMap, Prod.exists, mem_scanPrefix, mem_map,
    Option.mem_toList, insertEntry, and_assoc, eq_comm]

theorem getDef_insert (store : Store) (parsed : IndexDef.fromBytes d.toBytes = some d)
    (name : Bytes) : getDef (store.insert (defKey d.name) d.toBytes) name =
      if d.name = name then some d else getDef store name := by
  by_cases same : d.name = name
  · subst same
    simp [getDef, parsed]
  · have other : defKey d.name ≠ defKey name := fun eq => same (append_cancel_left eq)
    simp [getDef, ExtTreeMap.getElem?_insert, other, same]

/-- A new index covers the rows that are there; nothing was filed under its name. -/
theorem Indexed.createdIndex (h : Indexed store) (clean : (0 : UInt8) ∉ d.name)
    (plain : PlainName d.table) (parsed : IndexDef.fromBytes d.toBytes = some d)
    (free : getDef store d.name = none) :
    Indexed (buildFromTable (store.insert (defKey d.name) d.toBytes) d) := by
  have entryWrites : EntryWrites (buildEntries (store.insert (defKey d.name) d.toBytes) d) := by
    intro w hw
    obtain ⟨k, bytes, -, -, v, -, rfl⟩ := mem_buildEntries.mp hw
    exact startsWith_entryKey ..
  have inserts : ∀ k, (k, none) ∉ buildEntries (store.insert (defKey d.name) d.toBytes) d := by
    intro k there
    obtain ⟨k, bytes, -, -, v, -, eq⟩ := mem_buildEntries.mp there
    simp at eq
  have other : ∀ k, ¬ defPrefix <+: k →
      (store.insert (defKey d.name) d.toBytes)[k]? = store[k]? := by
    intro k outside
    have apart : defKey d.name ≠ k := fun eq => outside (eq ▸ startsWith_defKey d.name)
    simp [ExtTreeMap.getElem?_insert, apart]
  have row : ∀ {table k : Bytes}, PlainName table → tablePrefix table <+: k →
      (buildFromTable (store.insert (defKey d.name) d.toBytes) d)[k]? = store[k]? := by
    intro table k plain' inside
    have head := plain'.head_of_row inside
    rw [buildFromTable, entryWrites.row head]
    exact other k (not_prefix_of_head rfl head)
  have defined : ∀ name, getDef (buildFromTable (store.insert (defKey d.name) d.toBytes) d) name =
      if d.name = name then some d else getDef store name := by
    intro name
    rw [← getDef_insert store parsed]
    exact getDef_congr entryWrites.defs name
  constructor
  case defs =>
    intro k v found inside
    rw [buildFromTable, entryWrites.defs k inside] at found
    by_cases here : defKey d.name = k
    · subst here
      obtain rfl : d.toBytes = v := by simpa using found
      exact ⟨d, parsed, rfl, clean, plain⟩
    · rw [ExtTreeMap.getElem?_insert] at found
      exact h.defs k v (by simpa [here] using found) inside
  case entries =>
    intro k there inside
    obtain ⟨v, found⟩ := mem_iff.mp there
    rcases apply_eq_some found with before | new
    · rw [other k (defPrefix_apart_entryPrefix.symm.excludes inside)] at before
      obtain ⟨d', w, pk, defined', rest⟩ := h.entries k (mem_iff.mpr ⟨v, before⟩) inside
      have apart : d.name ≠ d'.name := fun eq => by simp [← eq, free] at defined'
      exact ⟨d', w, pk, by rw [defined, if_neg apart, defined'], rest⟩
    · obtain ⟨k', bytes, under, -, w, -, eq⟩ := mem_buildEntries.mp new
      exact ⟨d, w, k', by rw [defined, if_pos rfl], (Prod.mk.inj eq).1, under⟩
  case rows =>
    intro d' k bytes v defined' found inside valued
    rw [defined] at defined'
    by_cases same : d.name = d'.name
    · obtain rfl : d = d' := by simpa [same] using defined'
      rw [row plain inside] at found
      have before : (store.insert (defKey d.name) d.toBytes)[k]? = some bytes := by
        rw [other k (not_prefix_of_head rfl (plain.head_of_row inside)), found]
      have new := mem_buildEntries.mpr ⟨k, bytes, inside, before, v, valued, rfl⟩
      exact ⟨v, .inl rfl, mem_apply_of_write_mem new (inserts _)⟩
    · rw [if_neg same] at defined'
      rw [row (h.of_getDef defined').2.2 inside] at found
      obtain ⟨w, similar, there⟩ := h.rows d' k bytes v defined' found inside valued
      have outside := defPrefix_apart_entryPrefix.symm.excludes (startsWith_entryKey d'.name w k)
      have kept := (mem_congr (other _ outside)).mpr there
      exact ⟨w, similar, mem_apply_of_mem kept (inserts _)⟩

theorem getElem?_dropEntries (store : Store) (name k : Bytes) : (dropEntries store name)[k]? =
      if entryPrefixForIndex name <+: k ∨ k = defKey name then none else store[k]? := by
  have deletes : ∀ w ∈ ((store.scanPrefix (entryPrefixForIndex name)).map fun r =>
      ((r.1, none) : Bytes × Option Bytes)) ++ [(defKey name, none)], w.2 = none := by
    intro w hw
    rcases mem_append.mp hw with entry | last
    · obtain ⟨r, -, rfl⟩ := mem_map.mp entry
      rfl
    · rw [mem_singleton.mp last]
  rw [dropEntries, getElem?_apply_deletes deletes]
  by_cases dropped : entryPrefixForIndex name <+: k ∨ k = defKey name
  · split
    · rfl
    · rename_i listed
      cases stored : store[k]? with
      | none => rfl
      | some v =>
        refine absurd ?_ listed
        rcases dropped with inside | rfl
        · have scanned := mem_scanPrefix.mpr ⟨inside, stored⟩
          simp only [map_append, map_map, mem_append, mem_map]
          exact .inl ⟨(k, v), scanned, rfl⟩
        · simp
  · rw [if_neg dropped, if_neg]
    intro listed
    apply dropped
    simp only [map_append, map_map, mem_append, mem_map, map_cons, map_nil, mem_singleton] at listed
    rcases listed with ⟨⟨k', v⟩, scanned, rfl⟩ | rfl
    · exact .inl (mem_scanPrefix.mp scanned).1
    · exact .inr rfl

/-- The other indexes stay when the entries of one are dropped. -/
theorem Indexed.droppedIndex (h : Indexed store) {name : Bytes} (clean : (0 : UInt8) ∉ name) :
    Indexed (dropEntries store name) := by
  have prefixed : entryPrefix <+: entryPrefixForIndex name := by
    simp [entryPrefixForIndex, append_assoc]
  have stays : ∀ {k : Bytes}, ¬ entryPrefixForIndex name <+: k → k ≠ defKey name →
      (dropEntries store name)[k]? = store[k]? := by
    intro k outside other
    rw [getElem?_dropEntries, if_neg (not_or.mpr ⟨outside, other⟩)]
  have before : ∀ {k v : Bytes}, (dropEntries store name)[k]? = some v → store[k]? = some v ∧
      ¬ entryPrefixForIndex name <+: k ∧ k ≠ defKey name := by
    intro k v found
    rw [getElem?_dropEntries] at found
    obtain ⟨kept, stored⟩ := Option.ite_none_left_eq_some.mp found
    exact ⟨stored, not_or.mp kept⟩
  have defined : ∀ {other : Bytes}, other ≠ name →
      getDef (dropEntries store name) other = getDef store other := by
    intro other apart
    rw [getDef, getDef, stays]
    · intro inside
      exact defPrefix_apart_entryPrefix.excludes (startsWith_defKey other) (prefixed.trans inside)
    · exact fun eq => apart (append_cancel_left eq)
  constructor
  case defs => exact fun k v found inside => h.defs k v (before found).1 inside
  case entries =>
    intro k there inside
    obtain ⟨v, found⟩ := mem_iff.mp there
    obtain ⟨stored, outside, -⟩ := before found
    obtain ⟨d, w, pk, defined', rfl, under⟩ := h.entries k (mem_iff.mpr ⟨v, stored⟩) inside
    refine ⟨d, w, pk, (defined ?_).trans defined', rfl, under⟩
    rintro rfl
    apply outside
    rw [entryKey_eq]
    exact prefix_append ..
  case rows =>
    intro d k bytes v defined' found inside valued
    have other : d.name ≠ name := by
      rintro rfl
      rw [getDef, getElem?_dropEntries, if_pos (Or.inr rfl)] at defined'
      simp at defined'
    rw [defined other] at defined'
    obtain ⟨w, similar, there⟩ := h.rows d k bytes v defined' (before found).1 inside valued
    refine ⟨w, similar, (mem_congr (stays ?_ ?_)).mpr there⟩
    · intro inside'
      exact other (name_of_entryKey clean (h.of_getDef defined').2.1 inside').symm
    · intro eq
      exact defPrefix_apart_entryPrefix.excludes (eq ▸ startsWith_defKey name)
        (startsWith_entryKey ..)

end NewIndexes

end GalaxDb.Sql
