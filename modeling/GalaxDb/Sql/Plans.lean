import GalaxDb.Sql.Executor

/-!
# What plans read and write

The effect of every plan as a function of the rows it reads, and the values it writes,
which are never empty.
-/

namespace GalaxDb.Sql

open Bytes Executor List

section Effects

variable {ctx : ExecutorContext} {columns : List Bytes} {filter : Option FilterExpr} {table : Bytes}
  {rows : List (List Bytes)} {effect : Effect} {entry : TableEntry}

variable {assignments : List (Bytes × ScalarExpr)} {values : List Value} {key : Bytes}

theorem prefix_of_buildPrimaryKey {cols : Columns}
    (built : buildPrimaryKey table entry cols = .ok key) :
    (tablePrefix table).isPrefixOf key = true := by
  simp only [buildPrimaryKey] at built
  split at built
  · cases built
    simp
  · cases built

theorem planInsert_ok (ok : planInsert ctx table columns values = .ok effect) :
    ∃ entry ordered key, getTable ctx.catalog table = .ok entry ∧
      alignValues entry columns values = .ok ordered ∧
      buildPrimaryKey table entry ordered = .ok key ∧
      effect = ⟨[], [(key, some (encodeRow ordered))], [], none⟩ := by
  simp only [planInsert, bind, Except.bind] at ok
  cases found : getTable ctx.catalog table with
  | error e => simp [found] at ok
  | ok entry =>
  cases aligned : alignValues entry columns values with
  | error e => simp [found, aligned] at ok
  | ok ordered =>
  cases built : buildPrimaryKey table entry ordered with
  | error e => simp [found, aligned, built] at ok
  | ok key =>
  simp only [found, aligned, built] at ok
  refine ⟨entry, ordered, key, rfl, aligned, built, ?_⟩
  split at ok
  · split at ok
    · cases ok
    · exact (Except.ok.inj ok).symm
  · exact (Except.ok.inj ok).symm

/-- With a primary key an accepted row is new. -/
theorem planInsert_fresh (found : getTable ctx.catalog table = .ok entry)
    (keyed : entry.columns.find? CatalogColumn.primaryKey ≠ none)
    (ok : planInsert ctx table columns values = .ok effect) :
    ∃ key bytes, effect = ⟨[], [(key, some bytes)], [], none⟩ ∧ ctx.reader.get key = none := by
  obtain ⟨entry', ordered, key, found', aligned, built, rfl⟩ := planInsert_ok ok
  obtain rfl : entry = entry' := Except.ok.inj (found.symm.trans found')
  obtain ⟨pk, declared⟩ := Option.ne_none_iff_exists'.mp keyed
  simp only [planInsert, found, aligned, built, declared, bind, Except.bind] at ok
  split at ok
  · cases ok
  · rename_i absent
    simpa using absent

theorem bulkPair_ok {tokens : List Bytes} {pair : Bytes × Bytes}
    (ok : bulkPair entry table columns tokens = .ok pair) :
    ∃ ordered, alignValues entry columns (tokens.map valueFromStr) = .ok ordered ∧
      buildPrimaryKey table entry ordered = .ok pair.1 ∧ pair.2 = encodeRow ordered := by
  simp only [bulkPair, bind, Except.bind] at ok
  cases aligned : alignValues entry columns (tokens.map valueFromStr) with
  | error e => simp [aligned] at ok
  | ok ordered =>
  cases built : buildPrimaryKey table entry ordered with
  | error e => simp [aligned, built] at ok
  | ok key =>
  simp only [aligned, built] at ok
  cases ok
  exact ⟨ordered, rfl, built, rfl⟩

theorem bulkPairs_ok {pairs : List (Bytes × Bytes)}
    (ok : bulkPairs entry table columns rows = .ok pairs) :
    ∀ pair ∈ pairs, ∃ tokens ∈ rows, bulkPair entry table columns tokens = .ok pair := by
  induction rows generalizing pairs with
  | nil =>
    cases ok
    simp
  | cons tokens rest ih =>
    simp only [bulkPairs] at ok
    cases first : bulkPair entry table columns tokens with
    | error e => simp [first, Except.bind] at ok
    | ok pair =>
      cases later : bulkPairs entry table columns rest with
      | error e => simp [first, later, Except.bind, Except.map] at ok
      | ok more =>
        simp only [first, later, Except.bind, Except.map, Except.ok.injEq] at ok
        subst ok
        intro p hp
        rcases mem_cons.mp hp with rfl | hp
        · exact ⟨tokens, mem_cons_self, first⟩
        · obtain ⟨tokens, there, one⟩ := ih later p hp
          exact ⟨tokens, mem_cons_of_mem _ there, one⟩

theorem checkBulkCounts_ok {expected : Nat} (full : ∀ cells ∈ rows, cells.length = expected)
    (i : Nat) : checkBulkCounts expected i rows = .ok () := by
  induction rows generalizing i with
  | nil => rfl
  | cons cells rest ih =>
    obtain ⟨first, later⟩ := forall_mem_cons.mp full
    rw [checkBulkCounts, if_neg (by simp [first])]
    exact ih later (i + 1)

theorem planBulkInsert_ok (ok : planBulkInsert ctx table columns rows = .ok effect) :
    ∃ (entry : TableEntry) (pairs : List (Bytes × Bytes)), getTable ctx.catalog table = .ok entry ∧
      (∀ pair ∈ pairs, ∃ tokens ∈ rows, bulkPair entry table columns tokens = .ok pair) ∧
      effect = ⟨[], pairs.map fun p => (p.1, some p.2), [], none⟩ := by
  simp only [planBulkInsert, bind, Except.bind] at ok
  split at ok
  · cases ok
  rename_i entry found
  split at ok
  · cases ok
    exact ⟨entry, [], found, fun pair h => absurd h not_mem_nil, rfl⟩
  split at ok
  · cases ok
  split at ok
  · cases ok
  split at ok
  · cases ok
  · rename_i pairs encoded
    exact ⟨entry, pairs, found, bulkPairs_ok encoded, (Except.ok.inj ok).symm⟩

theorem planUpdate_ok (ok : planUpdate ctx table assignments filter = .ok effect) :
    effect = ⟨[], (updateWrites assignments (matching filter (decodeRows
        (ctx.reader.tableRows table)))).1, [],
      (updateWrites assignments (matching filter (decodeRows (ctx.reader.tableRows table)))).2⟩ :=
        by
  simp only [planUpdate, bind, Except.bind] at ok
  split at ok
  · cases ok
  split at ok
  · cases ok
  split at ok
  · cases ok
  · exact (Except.ok.inj ok).symm

theorem planDelete_ok (ok : planDelete ctx table filter = .ok effect) :
    effect = ⟨[], (matching filter (decodeRows (ctx.reader.tableRows table))).map
      fun r => (r.1, none), [], none⟩ := by
  simp only [planDelete, bind, Except.bind] at ok
  split at ok
  · cases ok
  split at ok
  · cases ok
  · exact (Except.ok.inj ok).symm

theorem planFullScan_ok (ok : planFullScan ctx table filter columns = .ok effect) :
    ∃ entry, getTable ctx.catalog table = .ok entry ∧
      effect = ⟨(scanBuffered ctx table filter).map fun r => (r.1, project
        (if columns = [] then entry.columns.map CatalogColumn.name else columns) r.2), [],
        [sireadSentinel table], none⟩ := by
  simp only [planFullScan, bind, Except.bind] at ok
  split at ok
  · cases ok
  · rename_i entry found
    exact ⟨entry, found, (Except.ok.inj ok).symm⟩

theorem planPointLookup_ok (ok : planPointLookup ctx table key = .ok effect) :
    ∃ entry, getTable ctx.catalog table = .ok entry ∧
      effect = ⟨(ctx.reader.get key).toList.map fun value => (key, project
        (entry.columns.map CatalogColumn.name) (decodeRow value)), [], [key], none⟩ := by
  simp only [planPointLookup, bind, Except.bind] at ok
  split at ok
  · cases ok
  · rename_i entry found
    exact ⟨entry, found, (Except.ok.inj ok).symm⟩

/-- A sorted scan writes nothing. -/
theorem sortedScan_ok {order : SortLimit}
    (ok : sortedScan ctx table filter columns order = .ok effect) :
    effect.writes = [] ∧ effect.failure = none := by
  simp only [sortedScan] at ok
  cases scanned : planFullScan ctx table filter [] with
  | error e => simp [scanned, Except.map] at ok
  | ok scan =>
    obtain ⟨entry, -, rfl⟩ := planFullScan_ok scanned
    simp only [scanned, Except.map, Except.ok.injEq] at ok
    subst ok
    exact ⟨rfl, rfl⟩

theorem updateWrites_keys (assignments : List (Bytes × ScalarExpr)) (rows : List BufferedRow)
    (complete : (updateWrites assignments rows).2 = none) :
    (updateWrites assignments rows).1.map Prod.fst = rows.map Prod.fst := by
  induction rows with
  | nil => simp [updateWrites]
  | cons r rest ih =>
    simp only [updateWrites] at complete ⊢
    split at complete
    · cases complete
    · simp only [map_cons, ih complete]

theorem updateWrites_mem (rows : List BufferedRow) :
    ∀ w ∈ (updateWrites assignments rows).1, ∃ r ∈ rows, ∃ new,
      updateRow assignments r.2 = .ok new ∧ w = (r.1, some (encodeRow new)) := by
  induction rows with
  | nil => simp [updateWrites]
  | cons r rest ih =>
    obtain ⟨key, cols⟩ := r
    simp only [updateWrites]
    split
    · simp
    · rename_i new evaluated
      intro w hw
      rcases mem_cons.mp hw with rfl | hw
      · exact ⟨(key, cols), mem_cons_self, new, evaluated, rfl⟩
      · obtain ⟨r, there, rest⟩ := ih w hw
        exact ⟨r, mem_cons_of_mem _ there, rest⟩

theorem updateWrites_sublist (assignments : List (Bytes × ScalarExpr)) (rows : List BufferedRow) :
    ((updateWrites assignments rows).1.map Prod.fst).Sublist (rows.map Prod.fst) := by
  induction rows with
  | nil => simp [updateWrites]
  | cons r rest ih =>
    simp only [updateWrites]
    split
    · simp
    · simpa using ih

end Effects

/-- An UPDATE assigns something. -/
def PlanOk : QueryPlan → Prop
  | .update _ assignments _ => assignments ≠ []
  | _ => True

instance (p : QueryPlan) : Decidable (PlanOk p) := by
  cases p <;> unfold PlanOk <;> infer_instance

variable {assignments : List (Bytes × ScalarExpr)} {cols : Columns}

theorem encodeRow_ne_nil (h : cols ≠ []) : encodeRow cols ≠ [] := by
  obtain ⟨c, rest, rfl⟩ := exists_cons_of_ne_nil h
  cases rest <;> simp [encodeRow, joinWith, encodeCell]

theorem setCell_ne_nil (name : Bytes) (value : Value) (cols : Columns) :
    setCell name value cols ≠ [] := by
  cases cols with
  | nil => simp [setCell]
  | cons c rest =>
    simp only [setCell]
    split <;> simp

theorem foldl_setCell_ne_nil (new cols : Columns) (h : new ≠ []) :
    new.foldl (fun cols c => setCell c.1 c.2 cols) cols ≠ [] := by
  induction new using List.reverseRecOn with
  | nil => exact absurd rfl h
  | append_singleton new c =>
    rw [foldl_append]
    exact setCell_ne_nil _ _ _

theorem newValues_ne_nil {new : Columns} (given : assignments ≠ [])
    (h : newValues cols assignments = .ok new) : new ≠ [] := by
  obtain ⟨⟨name, e⟩, rest, rfl⟩ := exists_cons_of_ne_nil given
  simp only [newValues] at h
  cases evaluated : e.eval cols with
  | error err => simp [evaluated, Except.bind] at h
  | ok v =>
    cases later : newValues cols rest with
    | error err => simp [evaluated, later, Except.bind, Except.map] at h
    | ok vs =>
      simp only [evaluated, later, Except.bind, Except.map, Except.ok.injEq] at h
      subst h
      simp

theorem updateWrites_values (given : assignments ≠ []) (rows : List BufferedRow) :
    ∀ w ∈ (updateWrites assignments rows).1, w.2 ≠ some [] := by
  induction rows with
  | nil => simp [updateWrites]
  | cons r rest ih =>
    obtain ⟨key, cols⟩ := r
    simp only [updateWrites]
    split
    · simp
    · rename_i new evaluated
      intro w hw
      rcases mem_cons.mp hw with rfl | hw
      · simp only [updateRow] at evaluated
        cases values : newValues cols assignments with
        | error err => simp [values, Except.map] at evaluated
        | ok vs =>
          simp only [values, Except.map, Except.ok.injEq] at evaluated
          subst evaluated
          simpa using encodeRow_ne_nil
            (foldl_setCell_ne_nil vs cols (newValues_ne_nil given values))
      · exact ih w hw

theorem ordered_ne_nil {table : Bytes} {entry : TableEntry} {ordered : Columns} {key : Bytes}
    (built : buildPrimaryKey table entry ordered = .ok key) : ordered ≠ [] := by
  rintro rfl
  simp only [buildPrimaryKey, primaryKeyValue] at built
  split at built
  · rename_i value found
    split at found <;> simp [cell] at found
  · cases built

theorem planEffect_values {ctx : ExecutorContext} {p : QueryPlan} {effect : Effect}
    (fine : PlanOk p) (ok : planEffect ctx p = .ok effect) : ∀ w ∈ effect.writes,
      w.2 ≠ some [] := by
  cases p with
  | insert table columns values =>
    obtain ⟨entry, ordered, key, -, -, built, rfl⟩ := planInsert_ok ok
    simpa using encodeRow_ne_nil (ordered_ne_nil built)
  | bulkInsert table columns rows =>
    obtain ⟨entry, pairs, -, encoded, rfl⟩ := planBulkInsert_ok ok
    intro w hw
    obtain ⟨pair, there, rfl⟩ := mem_map.mp hw
    obtain ⟨tokens, -, one⟩ := encoded pair there
    obtain ⟨ordered, -, built, value⟩ := bulkPair_ok one
    simpa [value] using encodeRow_ne_nil (ordered_ne_nil built)
  | update table assignments filter =>
    rw [planUpdate_ok ok]
    exact updateWrites_values fine _
  | delete table filter =>
    rw [planDelete_ok ok]
    intro w hw
    obtain ⟨r, -, rfl⟩ := mem_map.mp hw
    simp
  | fullScan table filter columns =>
    obtain ⟨entry, -, rfl⟩ := planFullScan_ok ok
    simp
  | pointLookup table key =>
    obtain ⟨entry, -, rfl⟩ := planPointLookup_ok ok
    simp

end GalaxDb.Sql
