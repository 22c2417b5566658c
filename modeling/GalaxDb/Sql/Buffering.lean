import GalaxDb.Sql.FailedStatement
import GalaxDb.Sql.Statement

/-!
# A transaction that nobody disturbs

The statements of a transaction see its snapshot under its buffer and write into the buffer.
Run one after another with nobody else writing, they return what they would return straight
on the engine, and the commit leaves what they would have left.
-/

namespace GalaxDb.Sql

open Std Bytes Executor WriteLog Engine List

section Statements

/-- Where the rows of an INSERT come from. -/
inductive InsertSource where
  | absent
  | values (rows : List (List Expr))
  | query

inductive SessionStatement where
  | insert (table : Bytes) (columns : List Bytes) (source : InsertSource)
  | other (s : Statement)

def insertSelectInTxn : SqlError :=
  .featureNotSupported (ascii "INSERT ... SELECT is not supported inside a transaction (v1)")

variable {σ : Type} (T : Target σ)

def execUpdateStatement (s : σ) (table : Bytes) (assignments : List (Bytes × Expr))
    (selection : Option Expr) : Option (Done σ (List Columns × Nat)) :=
  match assignmentsFromExprs assignments with
  | .error e => some ⟨s, [], .error e⟩
  | .ok a => execPlan T s (.update table a (selection.bind filterFromExpr))

def execNativeSelect (s : σ) (q : Query) : Option (Done σ (List Columns × Nat)) :=
  execPlan T s (.fullScan (extractTable q) (extractProjectionAndFilter q).2
    (extractProjectionAndFilter q).1)

/-- `Database::execute`. Queries that are not native are answered by another engine. -/
def executeStatement (cfg : Settings) (elsewhere : Engine → Query → Response) (e : Engine) :
    SessionStatement → Option (Done Engine (List Columns × Nat))
  | .insert table columns source =>
    match source with
    | .values rows => exec (autocommitTarget cfg) e (.insert table columns rows)
    | _ => some ⟨e, [], ((autocommitTarget cfg).opening table).map fun _ => ([], 0)⟩
  | .other (.select q) =>
    if isFromLessSelect q || queryHasSemanticMatch q then some ⟨e, [], elsewhere e q⟩
    else if !queryHasNotDuplicate q && classifyQuery q == .analytical then
      some ⟨e, [], elsewhere e q⟩
    else execNativeSelect (autocommitTarget cfg) e q
  | .other (.update table assignments selection) =>
    execUpdateStatement (autocommitTarget cfg) e table assignments selection
  | .other (.delete tables selection) =>
    if tables.head?.getD [] = [] then some ⟨e, [], .ok ([], 0)⟩
    else execPlan (autocommitTarget cfg) e
      (.delete (tables.head?.getD []) (selection.bind filterFromExpr))

/-- `exec_stmt_in_txn`, over an engine that nobody else writes to. -/
def execStmtInTxn (cfg : Settings) (e : Engine) (s : TransactionManager × TxnHandle) :
    SessionStatement → Option (Done (TransactionManager × TxnHandle) (List Columns × Nat))
  | .insert table columns source =>
    match source with
    | .absent => some ⟨s, [], .ok ([], 0)⟩
    | .query => some ⟨s, [], .error insertSelectInTxn⟩
    | .values rows => exec (txnTarget cfg e) s (.insert table columns rows)
  | .other (.select q) =>
    if queryHasSemanticMatch q then some ⟨s, [], .error Database.semanticInTxn⟩
    else
      match simpleSortLimit q with
      | some order =>
        match sortedScan ((txnTarget cfg e).context s) (extractTable q)
          (extractProjectionAndFilter q).2 (extractProjectionAndFilter q).1 order with
        | .error err => some ⟨s, [], .error err⟩
        | .ok effect => some ⟨(txnTarget cfg e).record s effect.reads, [],
            .ok (effect.rows.map Prod.snd, 0)⟩
      | none =>
        if classifyQuery q = .analytical then some ⟨s, [], .error Database.analyticalInTxn⟩
        else execNativeSelect (txnTarget cfg e) s q
  | .other (.update table assignments selection) =>
    execUpdateStatement (txnTarget cfg e) s table assignments selection
  | .other (.delete tables selection) =>
    execPlan (txnTarget cfg e) s (.delete (tables.head?.getD []) (selection.bind filterFromExpr))

/-- Statements one after another, with what they return. -/
def runStatements {τ : Type} (step : σ → τ → Option (Done σ (List Columns × Nat))) :
    σ → List τ → Option (σ × List Response)
  | s, [] => some (s, [])
  | s, stmt :: rest => (step s stmt).bind fun d =>
      (runStatements step d.state rest).map fun r => (r.1, d.result :: r.2)

/-- `begin_transaction`, with nobody between its steps. -/
def beginTransaction (e : Engine) (m : TransactionManager) (serializable : Bool) :
    TransactionManager × TxnHandle :=
  (m.drawId.1.register m.drawId.2, .new e.latestCommitTs m.drawId.2 serializable)

/-- `commit_transaction`: the manager certifies, then the writes are applied in key order. -/
def commitTransaction (cfg : Settings) (e : Engine) (s : TransactionManager × TxnHandle) :
    Option (Except SqlError (Engine × TransactionManager)) :=
  match s.1.commitSerializable s.2.txnId s.2.reads (writeKeys s.2.writes) s.2.serializable with
  | .error err => some (.error err)
  | .ok r => (carryOut (autocommitTarget cfg) e s.2.writes.toList).map fun d => .ok (d.state, r.1)

def rollbackTransaction (e : Engine) (s : TransactionManager × TxnHandle) :
    Engine × TransactionManager :=
  (e, s.1.abort s.2.txnId)

end Statements

section Mirrors

/-- The engine of the direct run and the state of the transaction show the same. -/
structure Mirrors (e0 e : Engine) (s : TransactionManager × TxnHandle) : Prop where
  recorded : ∃ rows, e.Recorded rows
  same : e.get = buffered e0.get s.2.writes
  snapshot : s.2.readTs = e0.latestCommitTs
  free : ∀ k, lockFree s.1 s.2.txnId k = true
  ring : ∀ c ∈ s.1.committedWrites, c.1 ≤ s.2.txnId
  clean : ∀ (k : Bytes) (v : Option Bytes), s.2.writes[k]? = some v → (0 : UInt8) ∉ k ∧ v ≠ some []

variable {e0 e : Engine} {s : TransactionManager × TxnHandle} {rows0 : List (Row Bytes Bytes)}

theorem contentsAt_latest {rows : List (Row Bytes Bytes)} (recorded : e.Recorded rows) :
    contentsAt rows e.latestCommitTs = e.get := by
  have all : contentsAt rows e.latestCommitTs = contents (ofRows rows) :=
    contentsAt_of_le fun x hx => Nat.le_sub_one_of_lt (recorded.past x hx)
  rw [all]
  exact (funext recorded.get_eq).symm

theorem latest_shows (recorded : ∃ rows, e.Recorded rows) (order : IterOrder) :
    Shows (Reader.latest e order) e.get := by
  obtain ⟨rows, recorded⟩ := recorded
  have shows := shows_latest recorded order
  rw [← funext recorded.get_eq] at shows
  exact shows

/-- Both runs read the same. -/
theorem Mirrors.reader (mirrors : Mirrors e0 e s) (start : e0.Recorded rows0) (order : IterOrder) :
    Reader.snapshot e0 order s.2 = Reader.latest e order := by
  have shows := shows_snapshot start order s.2
  rw [mirrors.snapshot, contentsAt_latest start, ← mirrors.same] at shows
  exact shows.unique (latest_shows mirrors.recorded order)

theorem Mirrors.record (cfg : Settings) (mirrors : Mirrors e0 e s) (keys : List Bytes) :
    Mirrors e0 e ((txnTarget cfg e0).record s keys) := by
  obtain ⟨readTs, id, writes, -⟩ := recordRead_foldl s.2 keys
  exact ⟨mirrors.recorded, writes ▸ mirrors.same, readTs ▸ mirrors.snapshot,
    id ▸ mirrors.free, id ▸ mirrors.ring, writes ▸ mirrors.clean⟩

theorem buffered_insert (m : Bytes → Option Bytes) (writes : WriteBuffer) (w :
    Bytes × Option Bytes) :
    buffered m (writes.insert w.1 w.2) = write (buffered m writes) w := by
  funext k
  simp only [buffered, write, ExtTreeMap.getElem?_insert]
  by_cases same : w.1 = k
  · subst same
    simp
  · simp [same, Function.update_of_ne (Ne.symm same), buffered]

/-- One write, straight on the engine and into the buffer. A delete finds something. -/
theorem Mirrors.write (cfg : Settings) (mirrors : Mirrors e0 e s) {w : Bytes × Option Bytes}
    (clean : (0 : UInt8) ∉ w.1 ∧ w.2 ≠ some []) (hit : w.2 = none → e.get w.1 ≠ none) :
    ∃ e' s', (autocommitTarget cfg).write e w.1 w.2 = some (.ok (e', true)) ∧
      (txnTarget cfg e0).write s w.1 w.2 = some (.ok (s', true)) ∧ Mirrors e0 e' s' ∧
      e'.get = WriteLog.write e.get w := by
  obtain ⟨rows, recorded⟩ := mirrors.recorded
  have direct : ∃ e', (autocommitTarget cfg).write e w.1 w.2 = some (.ok (e', true)) := by
    cases value : w.2 with
    | some v =>
      obtain ⟨e', put, -⟩ := recorded.put cfg.env clean.1 (by simpa [value] using clean.2)
      exact ⟨e', by simp [autocommitTarget, put]⟩
    | none =>
      have live := hit value
      rw [recorded.get_eq] at live
      obtain ⟨missing, -⟩ | ⟨-, e', deleted, -⟩ := recorded.delete cfg.env w.1
      · exact absurd missing live
      · exact ⟨e', by simp [autocommitTarget, deleted]⟩
  obtain ⟨e', direct⟩ := direct
  obtain ⟨recorded', look⟩ := (autocommit_tracks cfg).written e w (e', true) mirrors.recorded clean
    direct
  obtain ⟨m', locked⟩ : ∃ m', s.1.acquireWriteLock w.1 s.2.txnId = .ok m' := by
    cases lock : s.1.acquireWriteLock w.1 s.2.txnId with
    | ok m' => exact ⟨m', rfl⟩
    | error err =>
      have busy := (acquireWriteLock_error lock).2
      rw [mirrors.free w.1] at busy
      cases busy
  obtain ⟨able, rfl⟩ := acquireWriteLock_ok locked
  refine ⟨e', _, direct, by simp only [txnTarget, TxnHandle.bufferWrite, locked]; rfl, ?_, look⟩
  exact {
    recorded := recorded'
    same := by
      rw [buffered_insert, ← mirrors.same]
      exact look
    snapshot := mirrors.snapshot
    free := by
      intro k
      rw [lockFree_insert s.1 able]
      exact mirrors.free k
    ring := mirrors.ring
    clean := by
      intro k v found
      rw [ExtTreeMap.getElem?_insert] at found
      by_cases same : w.1 = k
      · subst same
        simp only [ReflCmp.compare_self, if_true, Option.some.injEq] at found
        exact ⟨clean.1, found ▸ clean.2⟩
      · exact mirrors.clean k v (by simpa [same] using found) }

/-- Every delete of the list finds something. -/
def Hits (m : Bytes → Option Bytes) : List (Bytes × Option Bytes) → Prop
  | [] => True
  | w :: rest => (w.2 = none → m w.1 ≠ none) ∧ Hits (write m w) rest

variable {writes : List (Bytes × Option Bytes)}

theorem hits_of_values (m : Bytes → Option Bytes) (values : ∀ w ∈ writes, w.2 ≠ none) :
    Hits m writes := by
  induction writes generalizing m with
  | nil => trivial
  | cons w rest ih =>
    refine ⟨fun none_ => absurd none_ (values w mem_cons_self), ih _ ?_⟩
    exact fun w' hw' => values w' (mem_cons_of_mem _ hw')

theorem hits_of_nodup {m : Bytes → Option Bytes} (distinct : (writes.map Prod.fst).Nodup)
    (live : ∀ w ∈ writes, m w.1 ≠ none) : Hits m writes := by
  induction writes generalizing m with
  | nil => trivial
  | cons w rest ih =>
    obtain ⟨once, distinct⟩ := nodup_cons.mp distinct
    refine ⟨fun _ => live w mem_cons_self, ih distinct ?_⟩
    intro w' hw'
    have other : w'.1 ≠ w.1 := fun same => once (same ▸ mem_map_of_mem hw')
    rw [WriteLog.write, Function.update_of_ne other]
    exact live w' (mem_cons_of_mem _ hw')

theorem Mirrors.carryOut (cfg : Settings) (mirrors : Mirrors e0 e s)
    (clean : ∀ w ∈ writes, (0 : UInt8) ∉ w.1 ∧ w.2 ≠ some []) (hits : Hits e.get writes) :
    ∃ e' s', Sql.carryOut (autocommitTarget cfg) e writes = some ⟨e', writes, .ok writes.length⟩ ∧
      Sql.carryOut (txnTarget cfg e0) s writes = some ⟨s', writes, .ok writes.length⟩ ∧
      Mirrors e0 e' s' := by
  induction writes generalizing e s with
  | nil => exact ⟨e, s, rfl, rfl, mirrors⟩
  | cons w rest ih =>
    obtain ⟨e1, s1, direct, inTxn, mirrors1, look⟩ :=
      mirrors.write cfg (clean w mem_cons_self) hits.1
    obtain ⟨e', s', later, later', mirrors'⟩ := ih mirrors1
      (fun w' hw' => clean w' (mem_cons_of_mem _ hw')) (look ▸ hits.2)
    refine ⟨e', s', ?_, ?_, mirrors'⟩
    · simp [Sql.carryOut, direct, later, Except.map]
    · simp [Sql.carryOut, inTxn, later', Except.map]

end Mirrors

section Plans

variable {cfg : Settings} {e0 e : Engine} {s : TransactionManager × TxnHandle}
  {rows0 : List (Row Bytes Bytes)}

/-- The row that an INSERT makes of its values has a key without a zero byte. -/
def InsertClean (cfg : Settings) (table : Bytes) (columns : List Bytes) (values : List Value) :
    Prop :=
  ∀ entry, getTable cfg.catalog table = .ok entry → ∀ ordered,
    alignValues entry columns values = .ok ordered → ∀ key,
      buildPrimaryKey table entry ordered = .ok key → (0 : UInt8) ∉ key

/-- No index covers the filter. -/
def Unindexed (cfg : Settings) (table : Bytes) (filter : Option FilterExpr) : Prop :=
  ∀ f ∈ filter, filterHasNotDuplicate f = false → cfg.index table f = none

/-- Plans that a transaction takes and carries out as they are. -/
def QueryPlan.Plain (cfg : Settings) : QueryPlan → Prop
  | .insert table columns values => InsertClean cfg table columns values
  | .update _ assignments _ => assignments ≠ []
  | .delete _ _ => True
  | .fullScan table filter _ => Unindexed cfg table filter
  | _ => False

variable {p : QueryPlan} {table : Bytes}

theorem indexPks_unindexed {filter : Option FilterExpr} (unindexed : Unindexed cfg table filter)
    (reader : Reader) : indexPks ⟨cfg.catalog, cfg.index, reader⟩ table filter = none := by
  simp only [indexPks]
  cases filter with
  | none => simp
  | some f =>
    cases dedup : filterHasNotDuplicate f with
    | true => simp [dedup]
    | false => simp [dedup, unindexed f rfl dedup]

/-- Without its indexes a plain plan does the same. -/
theorem planEffect_unindexed (plain : p.Plain cfg) (reader : Reader) :
    planEffect ⟨cfg.catalog, fun _ _ => none, reader⟩ p =
      planEffect ⟨cfg.catalog, cfg.index, reader⟩ p := by
  cases p with
  | insert table columns values => rfl
  | update table assignments filter => rfl
  | delete table filter => rfl
  | fullScan table filter columns =>
    have access : accessRows ⟨cfg.catalog, fun _ _ => none, reader⟩ table filter =
        accessRows ⟨cfg.catalog, cfg.index, reader⟩ table filter := by
      have none_ : indexPks ⟨cfg.catalog, fun _ _ => none, reader⟩ table filter = none := by
        simp [indexPks]
      simp only [accessRows, indexPks_unindexed plain, none_]
    simp only [planEffect, planFullScan, scanBuffered, access]
  | bulkInsert table columns rows => exact plain.elim
  | pointLookup table key => exact plain.elim

theorem clean_of_live {rows : List (Row Bytes Bytes)} (recorded : e.Recorded rows) {k : Bytes}
    (live : e.get k ≠ none) : (0 : UInt8) ∉ k := by
  rw [recorded.get_eq] at live
  obtain ⟨x, hx, rfl⟩ := exists_row_of_contents live
  exact recorded.keys x hx

/-- What a plain plan writes can be written, and its deletes find their rows. -/
theorem planEffect_plain (recorded : ∃ rows, e.Recorded rows) (plain : p.Plain cfg)
    {effect : Effect} (ok : planEffect ((autocommitTarget cfg).context e) p = .ok effect) :
    (∀ w ∈ effect.writes, (0 : UInt8) ∉ w.1 ∧ w.2 ≠ some []) ∧ Hits e.get effect.writes := by
  have shows := latest_shows recorded cfg.order
  obtain ⟨rows, recorded⟩ := recorded
  have listed : ∀ table, ∀ r ∈ decodeRows ((Reader.latest e cfg.order).tableRows table),
      e.get r.1 ≠ none := by
    intro table r hr
    obtain ⟨row, there, rfl⟩ := mem_map.mp hr
    rw [((shows.rows table row.1 row.2).mp there).2]
    simp
  cases p with
  | insert table columns values =>
    obtain ⟨entry, ordered, key, found, aligned, built, rfl⟩ := planInsert_ok ok
    refine ⟨?_, hits_of_values _ (by simp)⟩
    intro w hw
    rw [mem_singleton.mp hw]
    exact ⟨plain entry found ordered aligned key built, by
      simpa using encodeRow_ne_nil (ordered_ne_nil built)⟩
  | update table assignments filter =>
    have values := planEffect_values (p := .update table assignments filter) plain ok
    have own : ∀ w ∈ effect.writes, ∃ r ∈ decodeRows ((Reader.latest e cfg.order).tableRows table),
        ∃ new, w = (r.1, some (encodeRow new)) := by
      intro w hw
      rw [planUpdate_ok ok] at hw
      obtain ⟨r, matched, new, -, eq⟩ := updateWrites_mem _ w hw
      exact ⟨r, (mem_filter.mp matched).1, new, eq⟩
    refine ⟨fun w hw => ⟨?_, values w hw⟩, hits_of_values _ ?_⟩
    · obtain ⟨r, there, new, rfl⟩ := own w hw
      exact clean_of_live recorded (listed table r there)
    · intro w hw
      obtain ⟨r, there, new, rfl⟩ := own w hw
      simp
  | delete table filter =>
    rw [planDelete_ok ok]
    have live :
        ∀ w ∈ (matching filter (decodeRows ((Reader.latest e cfg.order).tableRows table))).map
        fun r => ((r.1, none) : Bytes × Option Bytes), e.get w.1 ≠ none := by
      intro w hw
      obtain ⟨r, matched, rfl⟩ := mem_map.mp hw
      exact listed table r (mem_filter.mp matched).1
    refine ⟨?_, hits_of_nodup ?_ live⟩
    · intro w hw
      refine ⟨clean_of_live recorded (live w hw), ?_⟩
      obtain ⟨r, matched, rfl⟩ := mem_map.mp hw
      simp
    · have keys := nodup_keys_of_ordered (shows.ordered table)
      have decoded : (decodeRows ((Reader.latest e cfg.order).tableRows table)).map Prod.fst =
          ((Reader.latest e cfg.order).tableRows table).map Prod.fst := by simp [decodeRows]
      rw [← decoded] at keys
      apply List.Nodup.sublist _ keys
      rw [map_map]
      exact filter_sublist.map _
  | fullScan table filter columns =>
    obtain ⟨entry, -, rfl⟩ := planFullScan_ok ok
    exact ⟨by simp, trivial⟩
  | bulkInsert table columns rows => exact plain.elim
  | pointLookup table key => exact plain.elim

theorem Mirrors.execPlan (mirrors : Mirrors e0 e s) (start : e0.Recorded rows0)
    (plain : p.Plain cfg) :
    ∃ e' s' log result, Sql.execPlan (autocommitTarget cfg) e p = some ⟨e', log, result⟩ ∧
      Sql.execPlan (txnTarget cfg e0) s p = some ⟨s', log, result⟩ ∧ Mirrors e0 e' s' := by
  have admitted : (txnTarget cfg e0).refuses p = none := by
    cases p with
    | bulkInsert table columns rows => exact plain.elim
    | _ => rfl
  have planned : planEffect ((txnTarget cfg e0).context s) p =
      planEffect ((autocommitTarget cfg).context e) p := by
    simp only [txnTarget, autocommitTarget, ExecutorContext.inTxn, mirrors.reader start]
    exact planEffect_unindexed plain _
  simp only [Sql.execPlan, admitted, planned]
  cases ok : planEffect ((autocommitTarget cfg).context e) p with
  | error err => exact ⟨e, s, [], .error err, by simp [autocommitTarget], rfl, mirrors⟩
  | ok effect =>
    obtain ⟨clean, hits⟩ := planEffect_plain mirrors.recorded plain ok
    obtain ⟨e', s', direct, inTxn, mirrors'⟩ :=
      (mirrors.record cfg effect.reads).carryOut cfg clean hits
    refine ⟨e', s', effect.writes, effect.finish effect.writes.length, ?_, ?_, mirrors'⟩
    · have same : (autocommitTarget cfg).record e effect.reads = e := rfl
      simp only [same, direct]
      rfl
    · simp only [inTxn]
      rfl

theorem Mirrors.insertRows (start : e0.Recorded rows0) {columns : List Bytes}
    {rows : List (List Expr)} (clean : ∀ row ∈ rows, ∀ values, rowValues row = .ok values →
      InsertClean cfg table columns values) (mirrors : Mirrors e0 e s) :
    ∃ e' s' log result,
      Sql.insertRows (autocommitTarget cfg) table columns e rows = some ⟨e', log, result⟩ ∧
      Sql.insertRows (txnTarget cfg e0) table columns s rows = some ⟨s', log, result⟩ ∧
      Mirrors e0 e' s' := by
  induction rows generalizing e s with
  | nil => exact ⟨e, s, [], .ok 0, rfl, rfl, mirrors⟩
  | cons row rest ih =>
    simp only [Sql.insertRows]
    cases evaluated : rowValues row with
    | error err => exact ⟨e, s, [], .error err, rfl, rfl, mirrors⟩
    | ok values =>
      obtain ⟨e1, s1, log, result, direct, inTxn, mirrors1⟩ := mirrors.execPlan start
        (p := .insert table columns values) (clean row mem_cons_self values evaluated)
      simp only [direct, inTxn]
      cases result with
      | error err => exact ⟨e1, s1, log, .error err, rfl, rfl, mirrors1⟩
      | ok r =>
        obtain ⟨e', s', log', result', later, later', mirrors'⟩ := ih
          (fun row hrow => clean row (mem_cons_of_mem _ hrow)) mirrors1
        refine ⟨e', s', log ++ log', result'.map fun n => n + r.2, ?_, ?_, mirrors'⟩
        · simp [later]
        · simp [later']

end Plans

section Runs

variable {cfg : Settings} {e0 e : Engine} {s : TransactionManager × TxnHandle}
  {rows0 : List (Row Bytes Bytes)}

/-- Statements that a transaction runs as `execute` does: INSERTs of values into a table that
is there, or whose first row can be evaluated; UPDATEs and DELETEs; and scans of one table
that no index serves. -/
def SessionStatement.Native (cfg : Settings) : SessionStatement → Prop
  | .insert table _ .absent => (getTable cfg.catalog table).isOk = true
  | .insert _ _ .query => False
  | .insert table columns (.values rows) =>
    ((getTable cfg.catalog table).isOk = true ∨ ∃ row ∈ rows.head?, (rowValues row).isOk = true) ∧
    ∀ row ∈ rows, ∀ values, rowValues row = .ok values → InsertClean cfg table columns values
  | .other (.select q) => classifyQuery q = .native ∧ queryHasSemanticMatch q = false ∧
      Unindexed cfg (extractTable q) (extractProjectionAndFilter q).2
  | .other (.update _ assignments _) => assignments ≠ []
  | .other (.delete tables _) => tables.head?.getD [] ≠ []

theorem assignmentsFromExprs_ne_nil {assignments : List (Bytes × Expr)}
    {a : List (Bytes × ScalarExpr)} (given : assignments ≠ [])
    (ok : assignmentsFromExprs assignments = .ok a) : a ≠ [] := by
  obtain ⟨⟨name, x⟩, rest, rfl⟩ := exists_cons_of_ne_nil given
  simp only [assignmentsFromExprs] at ok
  cases first : scalarFromExpr x with
  | error err => simp [first, Except.bind] at ok
  | ok scalar =>
    cases later : assignmentsFromExprs rest with
    | error err => simp [first, later, Except.bind, Except.map] at ok
    | ok more =>
      simp only [first, later, Except.bind, Except.map, Except.ok.injEq] at ok
      simp [← ok]

theorem native_select {q : Query} (native : classifyQuery q = .native) :
    isFromLessSelect q = false ∧ simpleSortLimit q = none := by
  simp only [classifyQuery] at native
  split at native
  · cases native
  · rename_i plain
    refine ⟨?_, by simp [simpleSortLimit, Bool.eq_false_iff.mpr plain]⟩
    split at native
    · rename_i single
      simp only [bodyIsNativeSingleTable] at single
      simp only [isFromLessSelect]
      split at single
      · cases single
      · rename_i select body
        rw [body]
        split at single
        · rename_i one
          simp [one]
        · cases single
    · cases native

/-- An INSERT into a table that is not there fails alike if its first row can be evaluated. -/
theorem Mirrors.insert (mirrors : Mirrors e0 e s) (start : e0.Recorded rows0) {table : Bytes}
    {columns : List Bytes} {rows : List (List Expr)}
    (opens : (getTable cfg.catalog table).isOk = true ∨
      ∃ row ∈ rows.head?, (rowValues row).isOk = true)
    (clean : ∀ row ∈ rows, ∀ values, rowValues row = .ok values →
      InsertClean cfg table columns values) :
    ∃ e' s' log result,
      exec (autocommitTarget cfg) e (.insert table columns rows) = some ⟨e', log, result⟩ ∧
      exec (txnTarget cfg e0) s (.insert table columns rows) = some ⟨s', log, result⟩ ∧
      Mirrors e0 e' s' := by
  obtain ⟨e', s', log, result, direct, inTxn, mirrors'⟩ := mirrors.insertRows start clean
  have opened : (txnTarget cfg e0).opening table = .ok () := rfl
  cases found : getTable cfg.catalog table with
  | ok entry =>
    have exists_ : (autocommitTarget cfg).opening table = .ok () := by
      simp [autocommitTarget, found, Except.map]
    refine ⟨e', s', log, result.map fun n => ([], n), ?_, ?_, mirrors'⟩
    · simp [exec, exists_, direct]
    · simp [exec, opened, inTxn]
  | error err =>
    have missing : (autocommitTarget cfg).opening table = .error err := by
      simp [autocommitTarget, found, Except.map]
    obtain ⟨row, head, evaluated⟩ :=
      opens.resolve_left (by simp [found, Except.isOk, Except.toBool])
    obtain ⟨rest, rfl⟩ := head?_eq_some_iff.mp head
    obtain ⟨values, evaluated⟩ : ∃ values, rowValues row = .ok values := by
      cases one : rowValues row with
      | error err => simp [one, Except.isOk, Except.toBool] at evaluated
      | ok values => exact ⟨values, rfl⟩
    have failed : planInsert ((txnTarget cfg e0).context s) table columns values = .error err := by
      simp [planInsert, txnTarget, ExecutorContext.inTxn, found, bind, Except.bind]
    refine ⟨e, s, [], .error err, ?_, ?_, mirrors⟩
    · simp [exec, missing]
    · have admitted : (txnTarget cfg e0).refuses (.insert table columns values) = none := rfl
      simp only [exec, opened, Sql.insertRows, evaluated, Sql.execPlan, admitted, planEffect,
        failed]
      rfl

theorem Mirrors.statement (mirrors : Mirrors e0 e s) (start : e0.Recorded rows0)
    (elsewhere : Engine → Query → Response) {stmt : SessionStatement} (native : stmt.Native cfg) :
    ∃ e' s' log result, executeStatement cfg elsewhere e stmt = some ⟨e', log, result⟩ ∧
      execStmtInTxn cfg e0 s stmt = some ⟨s', log, result⟩ ∧ Mirrors e0 e' s' := by
  cases stmt with
  | insert table columns source =>
    cases source with
    | absent =>
      refine ⟨e, s, [], .ok ([], 0), ?_, rfl, mirrors⟩
      cases found : getTable cfg.catalog table with
      | error err => simp [SessionStatement.Native, found, Except.isOk, Except.toBool] at native
      | ok entry => simp [executeStatement, autocommitTarget, found, Except.map]
    | query => exact native.elim
    | values rows => exact mirrors.insert start native.1 native.2
  | other stmt =>
    cases stmt with
    | select q =>
      obtain ⟨native, semantic, unindexed⟩ := native
      obtain ⟨base, unsorted⟩ := native_select native
      obtain ⟨e', s', log, result, direct, inTxn, mirrors'⟩ := mirrors.execPlan start
        (p := .fullScan (extractTable q) (extractProjectionAndFilter q).2
          (extractProjectionAndFilter q).1) unindexed
      refine ⟨e', s', log, result, ?_, ?_, mirrors'⟩
      · simpa [executeStatement, base, semantic, native, execNativeSelect] using direct
      · simpa [execStmtInTxn, semantic, unsorted, native, execNativeSelect] using inTxn
    | update table assignments selection =>
      simp only [executeStatement, execStmtInTxn, execUpdateStatement]
      cases translated : assignmentsFromExprs assignments with
      | error err => exact ⟨e, s, [], .error err, rfl, rfl, mirrors⟩
      | ok a =>
        exact mirrors.execPlan start (p := .update table a (selection.bind filterFromExpr))
          (assignmentsFromExprs_ne_nil native translated)
    | delete tables selection =>
      simp only [executeStatement, execStmtInTxn]
      rw [if_neg native]
      exact mirrors.execPlan start
        (p := .delete (tables.head?.getD []) (selection.bind filterFromExpr)) trivial

theorem Mirrors.statements (start : e0.Recorded rows0) (elsewhere : Engine → Query → Response)
    {stmts : List SessionStatement} (native : ∀ stmt ∈ stmts, stmt.Native cfg)
    (mirrors : Mirrors e0 e s) :
    ∃ e' s' answers, runStatements (executeStatement cfg elsewhere) e stmts = some (e', answers) ∧
      runStatements (execStmtInTxn cfg e0) s stmts = some (s', answers) ∧ Mirrors e0 e' s' := by
  induction stmts generalizing e s with
  | nil => exact ⟨e, s, [], rfl, rfl, mirrors⟩
  | cons stmt rest ih =>
    obtain ⟨e1, s1, log, result, direct, inTxn, mirrors1⟩ := mirrors.statement start elsewhere
      (native stmt mem_cons_self)
    obtain ⟨e', s', answers, later, later', mirrors'⟩ := ih
      (fun stmt h => native stmt (mem_cons_of_mem _ h)) mirrors1
    refine ⟨e', s', result :: answers, ?_, ?_, mirrors'⟩
    · simp [runStatements, direct, later]
    · simp [runStatements, inTxn, later']

theorem lastWrite_toList (writes : WriteBuffer) (k : Bytes) :
    lastWrite writes.toList k = writes[k]? := by
  cases last : lastWrite writes.toList k with
  | some v =>
    exact (ExtTreeMap.mem_toList_iff_getElem?_eq_some.mp (mem_of_lastWrite last)).symm
  | none =>
    cases found : writes[k]? with
    | none => rfl
    | some v =>
      have there := ExtTreeMap.mem_toList_iff_getElem?_eq_some.mpr found
      exact absurd last (lastWrite_ne_none_iff.mpr (mem_map_of_mem there))

/-- The writes of a commit all go through. -/
theorem carryOut_clean {rows : List (Row Bytes Bytes)} (recorded : e.Recorded rows)
    {writes : List (Bytes × Option Bytes)}
    (clean : ∀ w ∈ writes, (0 : UInt8) ∉ w.1 ∧ w.2 ≠ some []) :
    ∃ d, carryOut (autocommitTarget cfg) e writes = some d ∧ (∃ rows, d.state.Recorded rows) ∧
      d.state.get = writes.foldl write e.get := by
  induction writes generalizing e rows with
  | nil => exact ⟨_, rfl, ⟨rows, recorded⟩, rfl⟩
  | cons w rest ih =>
    have first := clean w mem_cons_self
    obtain ⟨r, written⟩ : ∃ r, (autocommitTarget cfg).write e w.1 w.2 = some (.ok r) := by
      cases value : w.2 with
      | none => exact ⟨_, rfl⟩
      | some v =>
        obtain ⟨e', put, -⟩ := recorded.put cfg.env first.1 (by simpa [value] using first.2)
        exact ⟨(e', true), by simp [autocommitTarget, put]⟩
    obtain ⟨⟨rows', recorded'⟩, look⟩ :=
      (autocommit_tracks cfg).written e w r ⟨rows, recorded⟩ first
      written
    obtain ⟨d, later, final, get⟩ := ih recorded' fun w' hw' => clean w' (mem_cons_of_mem _ hw')
    have look : r.1.get = write e.get w := look
    refine ⟨⟨d.state, w :: d.log, d.result.map fun n => n + r.2.toNat⟩, ?_, final, ?_⟩
    · simp only [carryOut, written, later]
      rfl
    · rw [foldl_cons, ← look]
      exact get

theorem Mirrors.commit (mirrors : Mirrors e0 e s) (start : e0.Recorded rows0) :
    ∃ e' m', commitTransaction cfg e0 s = some (.ok (e', m')) ∧
      Reader.latest e' cfg.order = Reader.latest e cfg.order := by
  have accepted : s.1.conflicting s.2.txnId s.2.reads = false := by
    rw [TransactionManager.conflicting, any_eq_false]
    intro c hc
    simp [Nat.not_lt_of_le (mirrors.ring c hc)]
  obtain ⟨r, certified⟩ : ∃ r, s.1.commitSerializable s.2.txnId s.2.reads (writeKeys s.2.writes)
      s.2.serializable = .ok r := by
    simp [TransactionManager.commitSerializable, TransactionManager.certify, accepted, Except.map]
  obtain ⟨d, applied, recorded, get⟩ := @carryOut_clean cfg e0 rows0 start s.2.writes.toList (by
    rintro ⟨k, v⟩ hw
    exact mirrors.clean k v (ExtTreeMap.mem_toList_iff_getElem?_eq_some.mp hw))
  refine ⟨d.state, r.1, by simp [commitTransaction, certified, applied], ?_⟩
  have same : d.state.get = e.get := by
    rw [get, mirrors.same]
    funext k
    rw [foldl_write, lastWrite_toList, buffered]
  have shows := latest_shows recorded cfg.order
  rw [same] at shows
  exact shows.unique (latest_shows mirrors.recorded cfg.order)

theorem mirrors_begin (start : e.Recorded rows0) {m : TransactionManager} (serializable : Bool)
    (unlocked : m.writeLocks = ∅) (ring : ∀ c ∈ m.committedWrites, c.1 < m.nextTimestamp) :
    Mirrors e e (beginTransaction e m serializable) where
  recorded := ⟨rows0, start⟩
  same := by
    funext k
    simp [buffered, beginTransaction, TxnHandle.new]
  snapshot := rfl
  free k := by
    simp [lockFree, beginTransaction, TransactionManager.register, TransactionManager.drawId,
      unlocked]
  ring c hc := Nat.le_of_lt (ring c hc)
  clean k v found := by simp [beginTransaction, TxnHandle.new] at found

/-- Native statements in a transaction that nobody disturbs return what they return straight
on the engine; after the commit every read is as after the direct run, after a rollback as
at the start. -/
theorem buffering_is_transparent (cfg : Settings) (elsewhere : Engine → Query → Response)
    {e : Engine} {rows : List (Row Bytes Bytes)} (start : e.Recorded rows) {m : TransactionManager}
    (unlocked : m.writeLocks = ∅) (ring : ∀ c ∈ m.committedWrites, c.1 < m.nextTimestamp)
    (serializable : Bool) {stmts : List SessionStatement}
    (native : ∀ stmt ∈ stmts, stmt.Native cfg) :
    ∃ e' s' answers, runStatements (executeStatement cfg elsewhere) e stmts = some (e', answers) ∧
      runStatements (execStmtInTxn cfg e) (beginTransaction e m serializable) stmts =
        some (s', answers) ∧
      (∃ e'' m', commitTransaction cfg e s' = some (.ok (e'', m')) ∧
        Reader.latest e'' cfg.order = Reader.latest e' cfg.order) ∧
      Reader.latest (rollbackTransaction e s').1 cfg.order = Reader.latest e cfg.order := by
  obtain ⟨e', s', answers, direct, inTxn, mirrors⟩ := Mirrors.statements start elsewhere native
    (mirrors_begin start serializable unlocked ring)
  exact ⟨e', s', answers, direct, inTxn, mirrors.commit start, rfl⟩

instance (cfg : Settings) (stmt : SessionStatement) : Decidable (stmt.Native cfg) := by
  unfold SessionStatement.Native InsertClean Unindexed
  rcases stmt with ⟨_, _, _ | _ | _⟩ | (_ | _ | _) <;> infer_instance

/-- `SELECT * FROM t`, or `SELECT DISTINCT * FROM t` -/
def selectAll (distinct : Bool) : SessionStatement :=
  .other
    (.select ⟨some ⟨[.wildcard], [⟨ascii "t", true, 0⟩], none, distinct, false, some 0⟩, [], none,
    none⟩)

/-- Two rows, a key that is there, an update, a delete and a scan. -/
def fiveStatements : List SessionStatement :=
  [.insert (ascii "t") [] (.values [[numberLiteral "1", numberLiteral "5"],
      [numberLiteral "2", numberLiteral "6"]]),
    .insert (ascii "t") [] (.values [[numberLiteral "2", numberLiteral "7"]]),
    .other (.update (ascii "t") [(ascii "c", numberLiteral "8")] none),
    .other (.delete [ascii "t"] none), selectAll false]

theorem buffering_of_five_statements : ∃ e' s' answers,
      runStatements (executeStatement .numbers fun _ _ => .ok ([], 0)) (fresh .plain .default)
        fiveStatements = some (e', answers) ∧
      runStatements (execStmtInTxn .numbers (fresh .plain .default))
        (beginTransaction (fresh .plain .default) .new false) fiveStatements =
          some (s', answers) ∧ answers.length = 5 ∧
      ∃ e'' m', commitTransaction .numbers (fresh .plain .default) s' = some (.ok (e'', m')) ∧
        Reader.latest e'' .byId = Reader.latest e' .byId := by
  obtain ⟨e', s', answers, direct, inTxn, commit, -⟩ := @buffering_is_transparent .numbers
    (fun _ _ => .ok ([], 0)) _ _ (recorded_fresh .plain .default) .new rfl (by
      simp [TransactionManager.new]) false fiveStatements (by decide +kernel)
  refine ⟨e', s', answers, direct, inTxn, ?_, commit⟩
  have five : ∃ r ∈ runStatements (executeStatement .numbers fun _ _ => .ok ([], 0))
      (fresh .plain .default) fiveStatements, r.2.length = 5 := by decide +kernel
  obtain ⟨r, run, five⟩ := five
  obtain rfl := Option.some.inj (direct.symm.trans run)
  exact five

/-- A transaction refuses INSERT ... SELECT, and analytical queries whatever they return
outside of it. -/
theorem transaction_refuses_queries :
    ((runStatements (executeStatement .numbers fun _ _ => .ok ([], 0)) (fresh .plain .default)
        [.insert (ascii "t") [] .query]).map Prod.snd = some [.ok ([], 0)] ∧
      (runStatements (execStmtInTxn .numbers (fresh .plain .default))
        (beginTransaction (fresh .plain .default) .new false)
        [.insert (ascii "t") [] .query]).map Prod.snd = some [.error insertSelectInTxn]) ∧
    ∀ (elsewhere : Engine → Query → Response) (answer : List Columns × Nat),
      (∀ e q, elsewhere e q = .ok answer) →
      (runStatements (executeStatement .numbers elsewhere) (fresh .plain .default)
        [selectAll true]).map Prod.snd = some [.ok answer] ∧
      (runStatements (execStmtInTxn .numbers (fresh .plain .default))
        (beginTransaction (fresh .plain .default) .new false)
        [selectAll true]).map Prod.snd = some [.error Database.analyticalInTxn] := by
  refine ⟨⟨rfl, rfl⟩, ?_⟩
  intro elsewhere answer answers
  refine ⟨?_, rfl⟩
  simp [runStatements, executeStatement, selectAll, isFromLessSelect, queryHasSemanticMatch,
    querySelection, queryHasNotDuplicate, classifyQuery, hasOrderBy, bodyIsNativeSingleTable,
      answers]

end Runs

end GalaxDb.Sql
