import Mathlib.Data.List.Sort
import GalaxDb.Lib.StableSort
import GalaxDb.Sql.Statement
import GalaxDb.Sql.StoredKeys

/-!
# Sorted reads of a transaction

ORDER BY, LIMIT and OFFSET over the rows that a transaction sees. A read is a window of the
one stable sort of these rows, where a key names what the select list calls by its name or
else a column of the table.
-/

namespace GalaxDb.Sql.SortedReads

open Std Bytes Executor Database StableSort List Option

/-- The types that an ORDER BY is about here. -/
def plainValue : Value → Bool
  | .integer _ => true
  | .text _ => true
  | .bool _ => true
  | .null => true
  | _ => false

def PlainColumns (cols : Columns) : Prop := ∀ c ∈ cols, plainValue c.2 = true

instance (cols : Columns) : Decidable (PlainColumns cols) :=
  inferInstanceAs (Decidable (∀ c ∈ cols, plainValue c.2 = true))

/-- The value of a column, unless it is NULL or missing. -/
def present (cols : Columns) (column : Bytes) : Option Value :=
  match cell cols column with
  | some .null => none
  | value => value

/-- False before true, numbers by size, texts bytewise; booleans before numbers before texts. -/
def ValueBefore : Value → Value → Prop
  | .integer a, .integer b => a < b
  | .text a, .text b => compare a b = .lt
  | .bool a, .bool b => a = false ∧ b = true
  | a, b => valueTypeRank a < valueTypeRank b

/-- NULLs go where the key says, whatever its direction. -/
def KeyBefore (key : SortKey) (a b : Columns) : Prop :=
  match present a key.column, present b key.column with
  | none, none => False
  | none, some _ => key.nullsFirst = true
  | some _, none => key.nullsFirst = false
  | some x, some y => if key.descending then ValueBefore y x else ValueBefore x y

/-- The first key that separates two rows decides. -/
def Before : List SortKey → Columns → Columns → Prop
  | [], _, _ => False
  | key :: rest, a, b => KeyBefore key a b ∨ (¬ KeyBefore key b a ∧ Before rest a b)

section Comparison

/-- Plain values as rank, number and text, to be compared one after the other. -/
def valueForm : Value → Nat × Int × Bytes
  | .bool b => (1, if b then 1 else 0, [])
  | .integer n => (2, n, [])
  | .text s => (3, 0, s)
  | _ => (0, 0, [])

def formCmp : Nat × Int × Bytes → Nat × Int × Bytes → Ordering :=
  compareLex (compareOn Prod.fst) (compareLex (compareOn fun x => x.2.1) (compareOn fun x => x.2.2))

instance : TransCmp formCmp :=
  inferInstanceAs (TransCmp (compareLex _ (compareLex _ _)))

theorem valueCmp_eq {a b : Value} (plainA : plainValue a = true) (plainB : plainValue b = true)
    (presentA : a ≠ .null) (presentB : b ≠ .null) :
    valueCmp a b = formCmp (valueForm a) (valueForm b) := by
  cases a <;> cases b <;> try contradiction
  all_goals try rfl
  case integer.integer m n => simp [valueCmp, formCmp, valueForm, compareLex, compareOn]
  case bool.bool p q => cases p <;> cases q <;> rfl

theorem valueBefore_iff {a b : Value} (plainA : plainValue a = true)
    (plainB : plainValue b = true) (presentA : a ≠ .null) (presentB : b ≠ .null) :
    ValueBefore a b ↔ valueCmp a b = .lt := by
  cases a <;> cases b <;> try contradiction
  all_goals try exact Nat.compare_eq_lt.symm
  case integer.integer m n => exact Int.compare_eq_lt.symm
  case text.text s t => exact Iff.rfl
  case bool.bool p q => cases p <;> cases q <;> simp only [ValueBefore, valueCmp] <;> decide

/-- NULLs before or after the values. -/
def placement (key : SortKey) (cols : Columns) : Nat :=
  match present cols key.column with
  | some _ => 1
  | none => if key.nullsFirst then 0 else 2

def cellForm (key : SortKey) (cols : Columns) : Nat × Int × Bytes :=
  ((present cols key.column).map valueForm).getD (0, 0, [])

def directedCmp (descending : Bool) (x y : Nat × Int × Bytes) : Ordering :=
  if descending then formCmp y x else formCmp x y

instance (descending : Bool) : TransCmp (directedCmp descending) := by
  cases descending
  · exact inferInstanceAs (TransCmp formCmp)
  · exact inferInstanceAs (TransCmp fun x y => formCmp y x)

theorem transCmp_comap {α β : Type*} (cmp : β → β → Ordering) [TransCmp cmp] (f : α → β) :
    TransCmp fun a b => cmp (f a) (f b) where
  eq_swap := OrientedCmp.eq_swap
  isLE_trans := TransCmp.isLE_trans

def keyCmp (key : SortKey) : Columns → Columns → Ordering :=
  compareLex (compareOn (placement key))
    fun a b => directedCmp key.descending (cellForm key a) (cellForm key b)

instance (key : SortKey) : TransCmp (keyCmp key) :=
  have := transCmp_comap (directedCmp key.descending) (cellForm key)
  inferInstanceAs (TransCmp (compareLex _ _))

def rowCmp : List SortKey → Columns → Columns → Ordering
  | [] => fun _ _ => .eq
  | key :: rest => compareLex (keyCmp key) (rowCmp rest)

instance (keys : List SortKey) : TransCmp (rowCmp keys) := by
  induction keys with
  | nil => exact { eq_swap := rfl, isLE_trans := fun _ _ => rfl }
  | cons key rest ih => exact inferInstanceAs (TransCmp (compareLex _ _))

variable {cols : Columns} {column : Bytes} {v : Value}

theorem present_some (found : present cols column = some v) :
    cell cols column = some v ∧ v ≠ .null := by
  simp only [present] at found
  split at found
  · cases found
  · rename_i apart
    exact ⟨found, fun null => apart (null ▸ found)⟩

theorem present_none (absent : present cols column = none) :
    (cell cols column).getD .null = .null := by
  simp only [present] at absent
  split at absent
  · rename_i null
    rw [null]
    rfl
  · rw [absent]
    rfl

theorem isNull_null : Scalar.isNull .null = true := rfl

theorem isNull_eq_false (apart : v ≠ .null) : Scalar.isNull v = false := by
  cases v <;> first | rfl | contradiction

theorem PlainColumns.present (plain : PlainColumns cols) (found : present cols column = some v) :
    plainValue v = true := by
  obtain ⟨c, first, rfl⟩ := map_eq_some_iff.mp (present_some found).1
  exact plain c (mem_of_find?_eq_some first)

theorem sortKeyCmp_present (key : SortKey) (a b : Columns) : sortKeyCmp key a b =
      match present a key.column, present b key.column with
      | none, none => .eq
      | none, some _ => if key.nullsFirst then .lt else .gt
      | some _, none => if key.nullsFirst then .gt else .lt
      | some x, some y => if key.descending then (valueCmp x y).swap else valueCmp x y := by
  simp only [sortKeyCmp]
  cases foundA : present a key.column with
  | none =>
    cases foundB : present b key.column with
    | none => simp [present_none foundA, present_none foundB, isNull_null]
    | some y =>
      obtain ⟨cellB, apartB⟩ := present_some foundB
      simp [present_none foundA, cellB, isNull_null, isNull_eq_false apartB]
  | some x =>
    obtain ⟨cellA, apartA⟩ := present_some foundA
    cases foundB : present b key.column with
    | none => simp [present_none foundB, cellA, isNull_null, isNull_eq_false apartA]
    | some y =>
      obtain ⟨cellB, apartB⟩ := present_some foundB
      simp [cellA, cellB, isNull_eq_false apartA, isNull_eq_false apartB]

variable {a b : Columns}

theorem sortKeyCmp_eq (plainA : PlainColumns a) (plainB : PlainColumns b) (key : SortKey) :
    sortKeyCmp key a b = keyCmp key a b := by
  rw [sortKeyCmp_present]
  simp only [keyCmp, compareLex, compareOn, placement, cellForm]
  cases foundA : present a key.column with
  | none =>
    cases foundB : present b key.column with
    | none =>
      have tie : directedCmp key.descending (0, 0, []) (0, 0, []) = .eq :=
        ReflCmp.compare_self
      simp [tie]
    | some y => cases key.nullsFirst <;> rfl
  | some x =>
    cases foundB : present b key.column with
    | none => cases key.nullsFirst <;> rfl
    | some y =>
      have forward := valueCmp_eq (plainA.present foundA) (plainB.present foundB)
        (present_some foundA).2 (present_some foundB).2
      have backward : (valueCmp x y).swap = formCmp (valueForm y) (valueForm x) := by
        rw [forward, ← OrientedCmp.eq_swap]
      cases descends : key.descending with
      | false => simpa [directedCmp] using forward
      | true => simpa [directedCmp] using backward

theorem keyBefore_iff (plainA : PlainColumns a) (plainB : PlainColumns b) (key : SortKey) :
    KeyBefore key a b ↔ keyCmp key a b = .lt := by
  rw [← sortKeyCmp_eq plainA plainB, sortKeyCmp_present, KeyBefore]
  cases foundA : present a key.column with
  | none =>
    cases foundB : present b key.column with
    | none => simp
    | some y => cases key.nullsFirst <;> simp
  | some x =>
    cases foundB : present b key.column with
    | none => cases key.nullsFirst <;> simp
    | some y =>
      obtain ⟨-, apartA⟩ := present_some foundA
      obtain ⟨-, apartB⟩ := present_some foundB
      have forward := valueBefore_iff (plainA.present foundA) (plainB.present foundB) apartA apartB
      have backward :=
        valueBefore_iff (plainB.present foundB) (plainA.present foundA) apartB apartA
      have swapped : (valueCmp x y).swap = valueCmp y x := by
        rw [valueCmp_eq (plainA.present foundA) (plainB.present foundB) apartA apartB,
          valueCmp_eq (plainB.present foundB) (plainA.present foundA) apartB apartA,
          ← OrientedCmp.eq_swap]
      cases descends : key.descending with
      | false => simpa using forward
      | true => simpa [swapped] using backward

theorem foldl_then {keys : List SortKey} (ord : Ordering) :
    keys.foldl (fun ord key => ord.then (sortKeyCmp key a b)) ord =
      ord.then (sortCmp keys a b) := by
  induction keys generalizing ord with
  | nil => simp [sortCmp]
  | cons key rest ih =>
    have first : sortCmp (key :: rest) a b = (sortKeyCmp key a b).then (sortCmp rest a b) := by
      rw [sortCmp, foldl_cons, ih]
      rfl
    rw [foldl_cons, ih, first, Ordering.then_assoc]

theorem sortCmp_eq (plainA : PlainColumns a) (plainB : PlainColumns b) (keys : List SortKey) :
    sortCmp keys a b = rowCmp keys a b := by
  induction keys with
  | nil => rfl
  | cons key rest ih =>
    rw [sortCmp, foldl_cons, foldl_then, ih, sortKeyCmp_eq plainA plainB]
    rfl

theorem before_iff (plainA : PlainColumns a) (plainB : PlainColumns b) (keys : List SortKey) :
    Before keys a b ↔ rowCmp keys a b = .lt := by
  induction keys with
  | nil => simp [Before, rowCmp]
  | cons key rest ih =>
    have flipped : keyCmp key b a = .lt ↔ keyCmp key a b = .gt := OrientedCmp.gt_iff_lt.symm
    rw [Before, keyBefore_iff plainA plainB, keyBefore_iff plainB plainA, ih, rowCmp, compareLex,
      flipped]
    cases keyCmp key a b <;> simp

end Comparison

/-- Clauses that a parsed SELECT may have and that nothing here looks at. -/
inductive UnreadClause where
  | withTables
  | top
  | into
  | lateralView
  | clusterBy
  | distributeBy
  | sortBy
  | qualify
  | limitBy
  | fetch
  | forUpdate
  deriving DecidableEq

structure SelectStatement where
  query : Query
  unread : List UnreadClause

/-- What the client calls the column of an item. -/
def outputName : SelectItem → Option Bytes
  | .wildcard => none
  | .unnamedExpr e => columnNameFromExpr e
  | .exprWithAlias _ name => some name

/-- A bare name in ORDER BY is that of an output column, or else of a column of the table. -/
def meantColumn (items : List SelectItem) : Expr → Bytes
  | .identifier name =>
    ((items.find? fun item => outputName item = some name).bind itemColumn).getD name
  | e => (columnNameFromExpr e).getD []

def meantKey (items : List SelectItem) (o : OrderByExpr) : SortKey :=
  let descending := o.asc == some false
  ⟨meantColumn items o.expr, descending, o.nullsFirst.getD descending⟩

/-- `*` alone, or a list of columns. -/
def PlainItems (items : List SelectItem) : Prop :=
  items = [.wildcard] ∨ (items ≠ [] ∧ ∀ item ∈ items, (itemColumn item).isSome = true)

/-- The forms of the select list, the WHERE clause and the rest that the read carries out. -/
def Implemented (stmt : SelectStatement) (select : Select) : Prop :=
  stmt.unread = [] ∧ PlainItems select.projection ∧
    ∀ e ∈ select.selection, (filterFromExpr e).isSome = true

/-- The values that the select list asks for. -/
def selected (items : List SelectItem) (cols : Columns) : List Value :=
  if items = [.wildcard] then cols.map Prod.snd
  else items.map fun item => ((itemColumn item).bind (cell cols)).getD .null

/-- What a transaction sees of a table: the rows that pass the filter, in the order of keys,
with the columns that the table declares. -/
def filteredRows (ctx : ExecutorContext) (q : Query) (entry : TableEntry) : List BufferedRow :=
  (scanBuffered ctx (extractTable q) (extractProjectionAndFilter q).2).map fun r =>
    (r.1, project (entry.columns.map CatalogColumn.name) r.2)

/-- The rows of the answer, each with its key. -/
def answer (ctx : ExecutorContext) (q : Query) : Option (List (Bytes × List Value)) :=
  match Database.execSelect ctx q .inTxn with
  | .native effect => some (effect.rows.map fun r => (r.1, r.2.map Prod.snd))
  | _ => none

def Rejected (ctx : ExecutorContext) (q : Query) : Prop :=
  ∃ e, Database.execSelect ctx q .inTxn = .error e

/-- The query with other LIMIT and OFFSET clauses. -/
def SameRead (q q' : Query) : Prop := q'.body = q.body ∧ q'.orderBy = q.orderBy

/-- Every page of the query is a window of one stable sort of the filtered rows, and the
pages of one size follow each other without gap or overlap. -/
structure Windows (ctx : ExecutorContext) (q : Query) (select : Select) (rows : List BufferedRow)
    (sorted : List BufferedRow) : Prop where
  sort : IsStableSort (fun a b => Before (q.orderBy.map (meantKey select.projection)) a.2 b.2)
    rows sorted
  page : ∀ q' s, SameRead q q' → simpleSortLimit q' = some s →
    answer ctx q' = some ((window (s.offset.getD 0) s.limit sorted).map fun r =>
      (r.1, selected select.projection r.2))
  consecutive : ∀ (pages : Nat → Query) (size count : Nat),
    (∀ i, SameRead q (pages i) ∧ ∃ s, simpleSortLimit (pages i) = some s ∧
      s.limit = some size ∧ s.offset = some (i * size)) →
    ((List.range count).flatMap fun i => (answer ctx (pages i)).getD []) =
      (sorted.take (count * size)).map fun r => (r.1, selected select.projection r.2)

/-- What it does not carry out it rejects, and what it carries out it answers exactly. -/
structure Faithful (ctx : ExecutorContext) (stmt : SelectStatement) : Prop where
  unaccepted : simpleSortLimit stmt.query = none → Rejected ctx stmt.query
  unimplemented : ∀ select, stmt.query.body = some select → ¬ Implemented stmt select →
    Rejected ctx stmt.query
  windows : ∀ s select entry, simpleSortLimit stmt.query = some s →
    stmt.query.body = some select → getTable ctx.catalog (extractTable stmt.query) = .ok entry →
    Implemented stmt select →
    ∃ sorted, Windows ctx stmt.query select (filteredRows ctx stmt.query entry) sorted

/-- The statement has an implemented form, and its keys as they are named invert the same
pairs of rows as the keys that the names stand for. -/
def Supported (ctx : ExecutorContext) (stmt : SelectStatement) : Prop :=
  ∀ s select entry, simpleSortLimit stmt.query = some s → stmt.query.body = some select →
    queryHasSemanticMatch stmt.query = false →
    getTable ctx.catalog (extractTable stmt.query) = .ok entry →
    Implemented stmt select ∧ ∀ u v, Ahead (filteredRows ctx stmt.query entry) u v →
        (Before s.orderBy v.2 u.2 ↔
          Before (stmt.query.orderBy.map (meantKey select.projection)) v.2 u.2)

section Answers

variable {ctx : ExecutorContext} {q q' : Query} {s s' : SortLimit} {select : Select}
  {entry : TableEntry}

theorem accepted_cases (accepted : simpleSortLimit q = some s) :
    bodyIsNativeSingleTable q = true ∧ q.orderBy.mapM sortKeyFromExpr = some s.orderBy ∧
      clauseCount q.limit = some s.limit ∧ clauseCount q.offset = some s.offset := by
  simp only [simpleSortLimit] at accepted
  split at accepted
  · cases accepted
  split at accepted
  · cases accepted
  rename_i native
  obtain ⟨keys, sortKeys, accepted⟩ := bind_eq_some_iff.mp accepted
  obtain ⟨limit, limited, accepted⟩ := bind_eq_some_iff.mp accepted
  obtain ⟨offset, skipped, rfl⟩ := map_eq_some_iff.mp accepted
  exact ⟨by simpa using native, sortKeys, limited, skipped⟩

theorem page_eq (s : SortLimit) (rows : List BufferedRow) :
    page s rows = window (s.offset.getD 0) s.limit
      (rows.mergeSort fun a b => sortCmp s.orderBy a.2 b.2 ≠ .gt) := by
  cases limit : s.limit <;> simp [page, window, limit]

variable {items : List SelectItem}

theorem mapM_itemColumn (columns : ∀ item ∈ items, (itemColumn item).isSome = true) :
    items.mapM itemColumn = some (items.map fun item => (itemColumn item).getD []) := by
  induction items with
  | nil => rfl
  | cons item rest ih =>
    obtain ⟨name, named⟩ := isSome_iff_exists.mp (columns item (by simp))
    rw [mapM_cons, named, ih fun i member => columns i (mem_cons_of_mem _ member)]
    simp [named]

theorem selected_eq (plain : PlainItems items) (cols : Columns) :
    (if (items.mapM itemColumn).getD [] = [] then cols
      else project ((items.mapM itemColumn).getD []) cols).map Prod.snd = selected items cols := by
  rcases plain with rfl | ⟨some, columns⟩
  · rfl
  · have apart : items ≠ [.wildcard] := by
      rintro rfl
      exact absurd (columns .wildcard (by simp)) (by decide)
    rw [mapM_itemColumn columns, getD_some, if_neg (by simpa using some), selected,
      if_neg apart, project, List.map_map, List.map_map]
    refine map_congr_left fun item member => ?_
    obtain ⟨name, named⟩ := isSome_iff_exists.mp (columns item member)
    simp [named]

theorem execSelect_accepted (accepted : simpleSortLimit q = some s)
    (quiet : queryHasSemanticMatch q = false)
    (found : getTable ctx.catalog (extractTable q) = .ok entry) :
    Database.execSelect ctx q .inTxn = .native ⟨if (extractProjectionAndFilter q).1 = [] then
        page s (filteredRows ctx q entry)
      else (page s (filteredRows ctx q entry)).map fun r =>
        (r.1, project (extractProjectionAndFilter q).1 r.2), [],
      [sireadSentinel (extractTable q)], none⟩ := by
  simp only [Database.execSelect, quiet, accepted, sortedScan, planFullScan, found, bind,
    Except.bind, Except.map, Outcome.of, filteredRows]
  rfl

theorem answer_accepted (accepted : simpleSortLimit q = some s) (body : q.body = some select)
    (quiet : queryHasSemanticMatch q = false)
    (found : getTable ctx.catalog (extractTable q) = .ok entry)
    (plain : PlainItems select.projection) :
    answer ctx q = some ((window (s.offset.getD 0) s.limit ((filteredRows ctx q entry).mergeSort
      fun a b => sortCmp s.orderBy a.2 b.2 ≠ .gt)).map fun r =>
        (r.1, selected select.projection r.2)) := by
  have columns : (extractProjectionAndFilter q).1 =
      (select.projection.mapM itemColumn).getD [] := by
    simp [extractProjectionAndFilter, body]
  have values := selected_eq plain
  rw [answer, execSelect_accepted accepted quiet found, columns, ← page_eq]
  split at values
  · rename_i all
    simp only [if_pos all, values]
  · rename_i some
    simp only [if_neg some, List.map_map, Function.comp_def, values]

theorem rejected_of_unaccepted (sorts : (hasOrderBy q || q.limit.isSome || q.offset.isSome) = true)
    (refused : simpleSortLimit q = none) : Rejected ctx q := by
  have analytical : classifyQuery q = .analytical := by
    rw [classifyQuery, if_pos sorts]
  simp only [Rejected, Database.execSelect, refused, analytical]
  split
  · exact ⟨_, rfl⟩
  · exact ⟨_, rfl⟩

theorem answered_of_accepted (accepted : simpleSortLimit q = some s)
    (quiet : queryHasSemanticMatch q = false)
    (found : getTable ctx.catalog (extractTable q) = .ok entry) : ¬ Rejected ctx q := by
  rintro ⟨e, failed⟩
  rw [execSelect_accepted accepted quiet found] at failed
  cases failed

/-- Outside of its cases the sorted read fails. -/
theorem rejected_of_missing (accepted : simpleSortLimit q = some s)
    (missing : queryHasSemanticMatch q = true ∨
      ∃ e, getTable ctx.catalog (extractTable q) = .error e) : Rejected ctx q := by
  rcases missing with semantic | ⟨e, missing⟩
  · exact ⟨semanticInTxn, by simp [Database.execSelect, semantic]⟩
  · simp only [Rejected, Database.execSelect, accepted, sortedScan, planFullScan, missing, bind,
      Except.bind, Except.map, Outcome.of]
    split
    · exact ⟨_, rfl⟩
    · exact ⟨_, rfl⟩

theorem filteredRows_keys (catalog : List TableEntry) (e : Engine) (order : IterOrder)
    (txn : TxnHandle) (q : Query) (entry : TableEntry) :
    ((filteredRows (.inTxn catalog e order txn) q entry).map Prod.fst).Nodup := by
  have scanned := scanBuffered_sublist catalog (.snapshot e order txn) (extractTable q)
    (extractProjectionAndFilter q).2
  have keys : ((decodeRows ((Reader.snapshot e order txn).tableRows (extractTable q))).map
      Prod.fst).Nodup := by
    rw [decodeRows, List.map_map]
    exact pairwise_map.mpr (ExtTreeMap.distinct_keys_toList.imp fun apart same =>
      apart (Std.compare_eq_iff_eq.mpr same))
  rw [filteredRows, List.map_map]
  exact (scanned.map Prod.fst).nodup keys

theorem filteredRows_nodup (catalog : List TableEntry) (e : Engine) (order : IterOrder)
    (txn : TxnHandle) (q : Query) (entry : TableEntry) :
    (filteredRows (.inTxn catalog e order txn) q entry).Nodup :=
  (filteredRows_keys catalog e order txn q entry).of_map

end Answers

section Stability

variable {ctx : ExecutorContext} {q q' : Query} {s s' : SortLimit} {select : Select}
  {entry : TableEntry} {rows : List BufferedRow}

/-- On plain rows the sort of the read is the stable sort by its keys. -/
theorem isStableSort_sortCmp (plain : ∀ r ∈ rows, PlainColumns r.2) (keys : List SortKey) :
    IsStableSort (fun a b => Before keys a.2 b.2) rows
      (rows.mergeSort fun a b => sortCmp keys a.2 b.2 ≠ .gt) := by
  have := transCmp_comap (rowCmp keys) (Prod.snd : BufferedRow → Columns)
  rw [mergeSort_congr fun a memberA b memberB =>
    sortCmp_eq (plain a memberA) (plain b memberB) keys]
  exact (isStableSort_mergeSort rows).congr fun a memberA b memberB =>
    (before_iff (plain a memberA) (plain b memberB) keys).symm

theorem before_asymm (plain : ∀ r ∈ rows, PlainColumns r.2) (keys : List SortKey) :
    ∀ a ∈ rows, ∀ b ∈ rows, Before keys a.2 b.2 → ¬ Before keys b.2 a.2 := by
  intro a memberA b memberB
  rw [before_iff (plain a memberA) (plain b memberB),
    before_iff (plain b memberB) (plain a memberA)]
  intro less back
  rw [OrientedCmp.gt_of_lt less] at back
  cases back

theorem sameRead_eqs (same : SameRead q q') : extractTable q' = extractTable q ∧
    extractProjectionAndFilter q' = extractProjectionAndFilter q ∧
    queryHasSemanticMatch q' = queryHasSemanticMatch q := by
  simp only [extractTable, extractProjectionAndFilter, queryHasSemanticMatch, querySelection,
    same.1, and_self]

theorem answer_sameRead (same : SameRead q q') (accepted : simpleSortLimit q = some s)
    (accepted' : simpleSortLimit q' = some s') (body : q.body = some select)
    (quiet : queryHasSemanticMatch q = false)
    (found : getTable ctx.catalog (extractTable q) = .ok entry)
    (plain : PlainItems select.projection) :
    answer ctx q' = some ((window (s'.offset.getD 0) s'.limit ((filteredRows ctx q entry).mergeSort
      fun a b => sortCmp s.orderBy a.2 b.2 ≠ .gt)).map fun r =>
        (r.1, selected select.projection r.2)) := by
  obtain ⟨table, clauses, semantic⟩ := sameRead_eqs same
  have keys : s'.orderBy = s.orderBy := by
    have named := (accepted_cases accepted').2.1
    rw [same.2, (accepted_cases accepted).2.1] at named
    exact (some.inj named).symm
  have rows : filteredRows ctx q' entry = filteredRows ctx q entry := by
    rw [filteredRows, table, clauses, filteredRows]
  rw [answer_accepted accepted' (same.1.trans body) (semantic.trans quiet) (table ▸ found) plain,
    rows, keys]

/-- The same read without LIMIT, from the first row on. -/
def wholeRead (q : Query) : Query :=
  { q with limit := none, offset := some (.value (.number (ascii "0"))) }

theorem wholeRead_accepted (accepted : simpleSortLimit q = some s) :
    simpleSortLimit (wholeRead q) = some ⟨s.orderBy, none, some 0⟩ := by
  obtain ⟨native, keys, -, -⟩ := accepted_cases accepted
  have sorts : (hasOrderBy (wholeRead q) || (wholeRead q).limit.isSome ||
      (wholeRead q).offset.isSome) = true := by simp [wholeRead]
  have native' : bodyIsNativeSingleTable (wholeRead q) = true := native
  have keys' : (wholeRead q).orderBy.mapM sortKeyFromExpr = some s.orderBy := keys
  rw [simpleSortLimit, if_neg (by simp [sorts]), if_neg (by simp [native']), keys']
  rfl

theorem not_semantic_of_translated (e : Expr) (translated : (filterFromExpr e).isSome = true) :
    exprHasSemanticMatch e = false := by
  induction e with
  | binaryOp left op right ihLeft ihRight =>
    cases op with
    | and =>
      obtain ⟨f, both⟩ := isSome_iff_exists.mp translated
      obtain ⟨l, first, both⟩ := bind_eq_some_iff.mp both
      obtain ⟨r, second, -⟩ := map_eq_some_iff.mp both
      rw [exprHasSemanticMatch, ihLeft (by simp [first]), ihRight (by simp [second])]
      rfl
    | _ => rfl
  | function name hasOver args text => simp [filterFromExpr] at translated
  | _ => rfl

theorem eq_of_map_eq {α β : Type*} {f : α → β} {l l' : List α}
    (inj : ∀ a ∈ l, ∀ b ∈ l', f a = f b → a = b) (same : l.map f = l'.map f) : l = l' := by
  induction l generalizing l' with
  | nil => exact (map_eq_nil_iff.mp same.symm).symm
  | cons a rest ih =>
    obtain ⟨b, rest', rfl, head, tail⟩ := map_eq_cons_iff.mp same.symm
    rw [inj a (by simp) b (by simp) head.symm, ih (fun x member y member' =>
      inj x (mem_cons_of_mem _ member) y (mem_cons_of_mem _ member')) tail.symm]

/-- A sorted or windowed read answers as the statement says, exactly for the supported ones. -/
theorem sorted_reads_exact (catalog : List TableEntry) (e : Engine) (order : IterOrder)
    (txn : TxnHandle) (stmt : SelectStatement)
    (sorts : (hasOrderBy stmt.query || stmt.query.limit.isSome || stmt.query.offset.isSome) = true)
    (plain : ∀ entry, getTable catalog (extractTable stmt.query) = .ok entry →
      ∀ r ∈ filteredRows (.inTxn catalog e order txn) stmt.query entry, PlainColumns r.2) :
    Faithful (.inTxn catalog e order txn) stmt ↔ Supported (.inTxn catalog e order txn) stmt := by
  constructor
  · intro faithful s select entry accepted body quiet found
    have answered := answered_of_accepted accepted quiet found
    have implemented : Implemented stmt select := by
      by_contra missing
      exact answered (faithful.unimplemented select body missing)
    obtain ⟨sorted, exact⟩ := faithful.windows s select entry accepted body found implemented
    have once := filteredRows_nodup catalog e order txn stmt.query entry
    have own := isStableSort_sortCmp (plain entry found) s.orderBy
    refine ⟨implemented, (own.eq_iff_same_inversions once
      (before_asymm (plain entry found) _) exact.sort).mp ?_⟩
    have same : SameRead stmt.query (wholeRead stmt.query) := ⟨rfl, rfl⟩
    have whole := wholeRead_accepted accepted
    have answers := answer_sameRead same accepted whole body quiet found implemented.2.1
    rw [exact.page _ _ same whole] at answers
    have keys := congrArg (List.map Prod.fst) (some.inj answers)
    simp only [window, getD_some, drop_zero, List.map_map] at keys
    refine eq_of_map_eq (f := Prod.fst) (fun a memberA b memberB key => ?_) keys.symm
    exact inj_on_of_nodup_map (filteredRows_keys catalog e order txn stmt.query entry)
      (own.mem_iff.mp memberA) (exact.sort.mem_iff.mp memberB) key
  · intro supported
    refine ⟨rejected_of_unaccepted sorts, fun select body missing => ?_,
      fun s select entry accepted body found implemented => ?_⟩
    · cases accepted : simpleSortLimit stmt.query with
      | none => exact rejected_of_unaccepted sorts accepted
      | some s =>
        cases quiet : queryHasSemanticMatch stmt.query with
        | true => exact rejected_of_missing accepted (Or.inl quiet)
        | false =>
          cases found : getTable catalog (extractTable stmt.query) with
          | error failure => exact rejected_of_missing accepted (Or.inr ⟨failure, found⟩)
          | ok entry => exact absurd (supported s select entry accepted body quiet found).1 missing
    · have quiet : queryHasSemanticMatch stmt.query = false := by
        rw [queryHasSemanticMatch, querySelection, body, bind_some]
        cases where_ : select.selection with
        | none => rfl
        | some e => exact not_semantic_of_translated e (implemented.2.2 e where_)
      have pages {q' : Query} {s' : SortLimit} (same : SameRead stmt.query q')
          (accepted' : simpleSortLimit q' = some s') :=
        answer_sameRead same accepted accepted' body quiet found implemented.2.1
      refine ⟨_, (isStableSort_sortCmp (plain entry found) s.orderBy).of_same_inversions
        (filteredRows_nodup catalog e order txn stmt.query entry)
          (before_asymm (plain entry found) _)
        (supported s select entry accepted body quiet found).2, fun q' s' => pages,
        fun reads size count turn => ?_⟩
      rw [← consecutive_windows, map_flatMap]
      refine flatMap_congr fun i _ => ?_
      obtain ⟨same, s', accepted', limit, offset⟩ := turn i
      rw [pages same accepted', limit, offset]
      rfl

/-- As long as no item of the select list gives a column another name, the keys mean what
they name. -/
theorem meantKeys_of_own_names {items : List SelectItem}
    (own : ∀ item ∈ items, ∀ name, outputName item = some name → itemColumn item = some name)
    (accepted : simpleSortLimit q = some s) : q.orderBy.map (meantKey items) = s.orderBy := by
  have named := (accepted_cases accepted).2.1
  have each (o : OrderByExpr) (key : SortKey) (of : sortKeyFromExpr o = some key) :
      meantKey items o = key := by
    obtain ⟨column, found, rfl⟩ := map_eq_some_iff.mp of
    have meant : meantColumn items o.expr = column := by
      cases expr : o.expr with
      | identifier name =>
        rw [expr, columnNameFromExpr, some.injEq] at found
        subst found
        rw [meantColumn]
        cases first : items.find? fun item => outputName item = some name with
        | none => rfl
        | some item =>
          have calls : outputName item = some name := by simpa using find?_some first
          simp [own item (mem_of_find?_eq_some first) name calls]
      | _ => simp [meantColumn, ← expr, found]
    rw [meantKey, meant]
  have all (os : List OrderByExpr) (keys : List SortKey)
      (collected : os.mapM sortKeyFromExpr = some keys) : os.map (meantKey items) = keys := by
    induction os generalizing keys with
    | nil => exact some.inj collected
    | cons o rest ih =>
      rw [mapM_cons] at collected
      obtain ⟨key, head, collected⟩ := bind_eq_some_iff.mp collected
      obtain ⟨keys', tail, same⟩ := bind_eq_some_iff.mp collected
      rw [map_cons, each o key head, ih keys' tail]
      exact some.inj same
  exact all _ _ named

theorem supported_of_own_names {stmt : SelectStatement}
    (implemented : ∀ select, stmt.query.body = some select → Implemented stmt select ∧
      ∀ item ∈ select.projection, ∀ name, outputName item = some name →
        itemColumn item = some name) : Supported ctx stmt := by
  intro s select entry accepted body _ _
  obtain ⟨form, own⟩ := implemented select body
  exact ⟨form, fun u v _ => by rw [meantKeys_of_own_names own accepted]⟩

def sampleRow (id : Int) (c : Value) : Columns := [(ascii "id", .integer id), (ascii "c", c)]

/-- A transaction that has written three rows, one with NULL. -/
def sampleTxn : TxnHandle where
  readTs := 1
  txnId := 2
  writes := .ofList [(ascii "t:1", some (encodeRow (sampleRow 1 (.integer 20)))),
    (ascii "t:2", some (encodeRow (sampleRow 2 .null))),
    (ascii "t:3", some (encodeRow (sampleRow 3 (.integer 10))))] compare
  reads := []
  serializable := false

def sampleContext : ExecutorContext :=
  .inTxn [numbersTable] (Engine.fresh .plain .default) .byId sampleTxn

def sampleSelect (items : List SelectItem) : Select :=
  ⟨items, [⟨ascii "t", true, 0⟩], none, false, false, some 0⟩

/-- `SELECT id FROM t ORDER BY c DESC LIMIT 1 OFFSET 1`. -/
def samplePage : SelectStatement where
  query := ⟨some (sampleSelect [.unnamedExpr (.identifier (ascii "id"))]),
    [⟨.identifier (ascii "c"), some false, none⟩], some (.value (.number (ascii "1"))),
    some (.value (.number (ascii "1")))⟩
  unread := []

/-- `SELECT c AS x FROM t ORDER BY x`. -/
def sampleAlias : SelectStatement where
  query := ⟨some (sampleSelect [.exprWithAlias (.identifier (ascii "c")) (ascii "x")]),
    [⟨.identifier (ascii "x"), none, none⟩], none, none⟩
  unread := []

theorem sample_plain : ∀ stmt ∈ [samplePage, sampleAlias], ∀ entry,
    getTable [numbersTable] (extractTable stmt.query) = .ok entry →
      ∀ r ∈ filteredRows sampleContext stmt.query entry, PlainColumns r.2 := by
  have scanned : ∀ stmt ∈ [samplePage, sampleAlias],
      getTable [numbersTable] (extractTable stmt.query) = .ok numbersTable ∧
        ∀ r ∈ filteredRows sampleContext stmt.query numbersTable, PlainColumns r.2 := by
    decide +kernel
  intro stmt member entry found
  obtain ⟨own, plain⟩ := scanned stmt member
  rw [own] at found
  exact Except.ok.inj found ▸ plain

theorem sorted_reads_exact_sample : Faithful sampleContext samplePage ∧
    (simpleSortLimit samplePage.query).map SortLimit.limit = some (some 1) := by
  refine ⟨(sorted_reads_exact _ _ _ _ samplePage (by decide)
    (sample_plain samplePage (by simp))).mpr (supported_of_own_names fun select body => ?_),
    by decide +kernel⟩
  cases body
  refine ⟨⟨rfl, Or.inr ⟨by simp [sampleSelect], by decide⟩, fun e absent => nomatch absent⟩, ?_⟩
  intro item member name calls
  obtain rfl := mem_singleton.mp member
  exact calls

/-- The rows come back in the order of their keys, whatever the column holds. -/
theorem alias_unsorted : (answer sampleContext sampleAlias.query).map (List.map Prod.fst) =
      some [ascii "t:1", ascii "t:2", ascii "t:3"] ∧ ¬ Faithful sampleContext sampleAlias := by
  have accepted : simpleSortLimit sampleAlias.query =
      some ⟨[⟨ascii "x", false, false⟩], none, none⟩ := by decide
  have found : getTable sampleContext.catalog (extractTable sampleAlias.query) =
      .ok numbersTable := by decide
  have items : PlainItems [.exprWithAlias (.identifier (ascii "c")) (ascii "x")] :=
    Or.inr ⟨by simp, by decide⟩
  have plain := sample_plain sampleAlias (by simp) numbersTable found
  have tied : (filteredRows sampleContext sampleAlias.query numbersTable).Pairwise
      fun a b => sortCmp [⟨ascii "x", false, false⟩] a.2 b.2 ≠ .gt := by decide +kernel
  have scanned := answer_accepted accepted rfl (by decide) found items
  rw [mergeSort_of_pairwise (by simpa using tied)] at scanned
  have keys : (filteredRows sampleContext sampleAlias.query numbersTable).map Prod.fst =
      [ascii "t:1", ascii "t:2", ascii "t:3"] := by decide +kernel
  refine ⟨?_, fun faithful => ?_⟩
  · rw [scanned, ← keys]
    simp [window, Function.comp_def]
  · obtain ⟨sorted, exact⟩ := faithful.windows _ _ numbersTable accepted rfl found
      ⟨rfl, items, by rintro e ⟨⟩⟩
    have answers := exact.page sampleAlias.query _ ⟨rfl, rfl⟩ accepted
    rw [scanned] at answers
    have same := congrArg (List.map Prod.fst) (some.inj answers)
    simp only [window, getD_none, drop_zero, List.map_map] at same
    have unmoved := eq_of_map_eq (f := Prod.fst) (fun a memberA b memberB key =>
      inj_on_of_nodup_map (filteredRows_keys _ _ _ _ _ numbersTable) memberA
        (exact.sort.mem_iff.mp memberB) key) same
    have ordered := exact.sort.ordered
    rw [← unmoved] at ordered
    have sorts : (filteredRows sampleContext sampleAlias.query numbersTable).Pairwise fun a b =>
        rowCmp [⟨ascii "c", false, false⟩] b.2 a.2 ≠ .lt :=
      ordered.imp_of_mem fun memberA memberB apart less =>
        apart ((before_iff (plain _ memberB) (plain _ memberA) _).mpr less)
    exact absurd sorts (by decide +kernel)

end Stability

end GalaxDb.Sql.SortedReads
