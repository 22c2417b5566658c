import GalaxDb.Server.CopyText
import GalaxDb.Server.Blocks
import GalaxDb.Sql.RowRoundTrip
import Mathlib.Data.List.Dedup

/-!
# A table copied through the wire

COPY TO STDOUT of one table and COPY FROM STDIN into an empty one with the same columns, with
the stream cut into frames in any way. The text of the stream keeps every row but a single
empty cell; what the second table then shows is what its row codec makes of the cells.
-/

namespace GalaxDb.Server

open Bytes Sql Executor Run WriteLog List

section Bulk

variable (entry : TableEntry)

def columnNames : List Bytes := entry.columns.map CatalogColumn.name

/-- The cells of a COPY line, typed by their spelling. -/
def orderedCells (cells : List Bytes) : Columns := (columnNames entry).zip (cells.map valueFromStr)

def storedKey (table : Bytes) (cells : List Bytes) : Bytes :=
  tablePrefix table ++ valueDisplay ((primaryKeyValue entry (orderedCells entry cells)).getD .null)

/-- What `SELECT *` shows of a stored row. -/
def cellsShown (value : Bytes) : List Bytes :=
  (project (columnNames entry) (decodeRow value)).map fun c => valueDisplay c.2

/-- A row after it has been stored and read again. -/
def storedCells (cells : List Bytes) : List Bytes :=
  cellsShown entry (encodeRow (orderedCells entry cells))

/-- What `SELECT *` shows of a table. -/
def shownRows (cfg : Settings) (e : Engine) (table : Bytes) : List (List Bytes) :=
  ((Reader.latest e cfg.order).tableRows table).map fun r => cellsShown entry r.2

variable {entry} {table : Bytes} {cells : List Bytes}

theorem length_cellsShown (value : Bytes) :
    (cellsShown entry value).length = entry.columns.length := by
  simp [cellsShown, project, columnNames]

theorem length_orderedCells (full : cells.length = entry.columns.length) :
    (orderedCells entry cells).length = cells.length := by
  simp [orderedCells, columnNames, full]

theorem encodeRow_orderedCells_ne_nil (full : cells.length = entry.columns.length)
    (some_ : cells ≠ []) : encodeRow (orderedCells entry cells) ≠ [] := by
  have length := length_orderedCells full
  cases ordered : orderedCells entry cells with
  | nil =>
    rw [ordered] at length
    exact absurd (length_eq_zero_iff.mp length.symm) some_
  | cons first rest =>
    rw [encodeRow_cons]
    simp

theorem primaryKeyValue_ne_none (full : cells.length = entry.columns.length) (some_ : cells ≠ []) :
    primaryKeyValue entry (orderedCells entry cells) ≠ none := by
  have long : (columnNames entry).length = (cells.map valueFromStr).length := by
    simp [columnNames, full]
  unfold primaryKeyValue
  split
  · next column declared =>
    have listed : column.name ∈ columnNames entry :=
      mem_map_of_mem (mem_of_find?_eq_some declared)
    have firsts : (orderedCells entry cells).map Prod.fst = columnNames entry :=
      map_fst_zip (Nat.le_of_eq long)
    rw [← firsts] at listed
    obtain ⟨c, there, name⟩ := mem_map.mp listed
    rw [cell, ne_eq, Option.map_eq_none_iff, find?_eq_none]
    intro absent
    exact absent c there (by simpa using name)
  · have length := length_orderedCells full
    cases first : orderedCells entry cells with
    | nil =>
      rw [first] at length
      exact absurd (length_eq_zero_iff.mp length.symm) some_
    | cons c rest => simp

theorem bulkPair_cells (full : cells.length = entry.columns.length) (some_ : cells ≠ []) :
    bulkPair entry table [] cells =
      .ok (storedKey entry table cells, encodeRow (orderedCells entry cells)) := by
  have aligned : alignValues entry [] (cells.map valueFromStr) =
      .ok (orderedCells entry cells) := by
    rw [alignValues, if_pos rfl, if_neg (by simp [full])]
    rfl
  obtain ⟨v, found⟩ := Option.ne_none_iff_exists'.mp (primaryKeyValue_ne_none full some_)
  simp only [bulkPair, bind, Except.bind, aligned, buildPrimaryKey, found, storedKey,
    Option.getD_some]

theorem bulkPairs_cells {rows : List (List Bytes)}
    (full : ∀ cells ∈ rows, cells.length = entry.columns.length ∧ cells ≠ []) :
    bulkPairs entry table [] rows = .ok (rows.map fun cells =>
      (storedKey entry table cells, encodeRow (orderedCells entry cells))) := by
  induction rows with
  | nil => rfl
  | cons cells rest ih =>
    obtain ⟨first, later⟩ := forall_mem_cons.mp full
    rw [bulkPairs, bulkPair_cells first.1 first.2, ih later]
    rfl

theorem planBulkInsert_cells {ctx : ExecutorContext} (found :
    getTable ctx.catalog table = .ok entry)
    {rows : List (List Bytes)}
    (full : ∀ cells ∈ rows, cells.length = entry.columns.length ∧ cells ≠ []) :
    planBulkInsert ctx table [] rows = .ok ⟨[], rows.map fun cells =>
      (storedKey entry table cells, some (encodeRow (orderedCells entry cells))), [], none⟩ := by
  have counted := checkBulkCounts_ok (fun cells there => (full cells there).1) 0
  simp only [planBulkInsert, found, bind, Except.bind, if_true, counted, checkBulkColumns,
    bulkPairs_cells full, map_map]
  split
  · next none_ => simp [none_]
  · rfl

theorem planFullScan_all {ctx : ExecutorContext} (found : getTable ctx.catalog table = .ok entry) :
    planFullScan ctx table none [] = .ok ⟨(ctx.reader.tableRows table).map fun r =>
      (r.1, project (columnNames entry) (decodeRow r.2)), [], [sireadSentinel table], none⟩ := by
  simp only [planFullScan, found, bind, Except.bind, if_true, scanBuffered, accessRows, indexPks,
    matching, decodeRows, rowPasses]
  simp [columnNames]

end Bulk

section Contents

variable {cfg : Settings} {entry : TableEntry} {table : Bytes} {rows : List (List Bytes)}

/-- The writes of a bulk insert. -/
def bulkWrites (entry : TableEntry) (table : Bytes) (rows : List (List Bytes)) :
    List (Bytes × Option Bytes) :=
  rows.map fun cells => (storedKey entry table cells, some (encodeRow (orderedCells entry cells)))

theorem isPrefixOf_storedKey (cells : List Bytes) :
    (tablePrefix table).isPrefixOf (storedKey entry table cells) = true := by
  simp [storedKey]

variable {m : Bytes → Option Bytes} {r : Reader}

/-- The rows that a reader lists after the writes went to a table that showed nothing. -/
theorem mem_tableRows_bulk (shows : Shows r ((bulkWrites entry table rows).foldl write m))
    (empty : ∀ k, (tablePrefix table).isPrefixOf k = true → m k = none) (k v : Bytes) :
    (k, v) ∈ r.tableRows table ↔ lastWrite (bulkWrites entry table rows) k = some (some v) := by
  rw [shows.rows, foldl_write]
  constructor
  · rintro ⟨inside, found⟩
    rw [empty k inside] at found
    cases last : lastWrite (bulkWrites entry table rows) k with
    | none => simp [last] at found
    | some w => simpa [last] using found
  · intro last
    obtain ⟨cells, _, same⟩ := mem_map.mp (mem_of_lastWrite last)
    obtain ⟨rfl, _⟩ := Prod.mk.inj same
    exact ⟨isPrefixOf_storedKey cells, by simp [last]⟩

theorem keys_tableRows_bulk (shows : Shows r ((bulkWrites entry table rows).foldl write m))
    (empty : ∀ k, (tablePrefix table).isPrefixOf k = true → m k = none) (k : Bytes) :
    k ∈ (r.tableRows table).map Prod.fst ↔ k ∈ rows.map (storedKey entry table) := by
  have written : (bulkWrites entry table rows).map Prod.fst = rows.map (storedKey entry table) := by
    simp [bulkWrites]
  rw [← written, ← lastWrite_ne_none_iff]
  constructor
  · intro there
    obtain ⟨⟨k, v⟩, listed, rfl⟩ := mem_map.mp there
    rw [(mem_tableRows_bulk shows empty k v).mp listed]
    nofun
  · intro last
    obtain ⟨w, found⟩ := Option.ne_none_iff_exists'.mp last
    obtain ⟨cells, _, same⟩ := mem_map.mp (mem_of_lastWrite found)
    obtain ⟨_, rfl⟩ := Prod.mk.inj same
    exact mem_map.mpr ⟨_, (mem_tableRows_bulk shows empty k _).mpr found, rfl⟩

/-- With distinct keys every row is there once. -/
theorem tableRows_bulk_perm (shows : Shows r ((bulkWrites entry table rows).foldl write m))
    (empty : ∀ k, (tablePrefix table).isPrefixOf k = true → m k = none)
    (distinct : (rows.map (storedKey entry table)).Nodup) :
    (r.tableRows table).Perm (rows.map fun cells =>
      (storedKey entry table cells, encodeRow (orderedCells entry cells))) := by
  have listed : (r.tableRows table).Nodup := (nodup_keys_of_ordered (shows.ordered table)).of_map _
  have written : (rows.map fun cells =>
      (storedKey entry table cells, encodeRow (orderedCells entry cells))).Nodup := by
    apply List.Nodup.of_map Prod.fst
    rw [map_map]
    exact distinct
  refine (perm_ext_iff_of_nodup listed written).mpr ?_
  rintro ⟨k, v⟩
  rw [mem_tableRows_bulk shows empty]
  constructor
  · intro last
    obtain ⟨cells, there, same⟩ := mem_map.mp (mem_of_lastWrite last)
    obtain ⟨rfl, value⟩ := Prod.mk.inj same
    rw [← Option.some.inj value]
    exact mem_map_of_mem there
  · intro there
    obtain ⟨cells, here, same⟩ := mem_map.mp there
    obtain ⟨rfl, rfl⟩ := Prod.mk.inj same
    have key : storedKey entry table cells ∈ (bulkWrites entry table rows).map Prod.fst := by
      simp only [bulkWrites, map_map]
      exact mem_map_of_mem here
    obtain ⟨w, last⟩ := Option.ne_none_iff_exists'.mp (lastWrite_ne_none_iff.mpr key)
    obtain ⟨cells', there', same⟩ := mem_map.mp (mem_of_lastWrite last)
    obtain ⟨keys, rfl⟩ := Prod.mk.inj same
    rw [inj_on_of_nodup_map distinct there' here keys] at last
    exact last

theorem nodup_of_length {l l' : List Bytes} (distinct : l.Nodup) (same : ∀ k, k ∈ l ↔ k ∈ l')
    (length : l.length = l'.length) : l'.Nodup := by
  have perm : l.Perm l'.dedup := by
    refine (perm_ext_iff_of_nodup distinct (nodup_dedup l')).mpr ?_
    intro k
    rw [same, mem_dedup]
  have whole : l'.dedup = l' :=
    (dedup_sublist l').eq_of_length (by rw [← perm.length_eq, length])
  rw [← whole]
  exact nodup_dedup l'

/-- What the table shows after the bulk insert are the rows, exactly if their keys are
distinct and storing them gives them back. -/
theorem shown_bulk_perm_iff (shows : Shows r ((bulkWrites entry table rows).foldl write m))
    (empty : ∀ k, (tablePrefix table).isPrefixOf k = true → m k = none) :
    ((r.tableRows table).map fun x => cellsShown entry x.2).Perm rows ↔
      (rows.map (storedKey entry table)).Nodup ∧ (rows.map (storedCells entry)).Perm rows := by
  have cells : (rows.map (storedKey entry table)).Nodup →
      ((r.tableRows table).map fun x => cellsShown entry x.2).Perm (rows.map (storedCells entry)) :=
        by
    intro distinct
    have perm := (tableRows_bulk_perm shows empty distinct).map fun x => cellsShown entry x.2
    rw [map_map] at perm
    exact perm
  constructor
  · intro shown
    have distinct : (rows.map (storedKey entry table)).Nodup := by
      refine nodup_of_length (nodup_keys_of_ordered (shows.ordered table))
        (keys_tableRows_bulk shows empty) ?_
      have length := shown.length_eq
      simpa using length
    exact ⟨distinct, (cells distinct).symm.trans shown⟩
  · rintro ⟨distinct, back⟩
    exact (cells distinct).trans back

end Contents

section Conversation

variable {σ τ : Type}

/-- A plan as an autocommit statement. -/
def executePlan (cfg : Settings) (report : SqlError → ErrorInfo) (e : Engine) (p : QueryPlan) :
    Engine × Worker (List Columns × Nat) :=
  match execPlan (autocommitTarget cfg) e p with
  | none => (e, none)
  | some d => (d.state, some (d.result.mapError report))

/-- The calls that COPY makes. `plan` is how the parser and the planner read a SELECT; what
is no plain scan, and the other calls, are as in any database. -/
def copyDatabase (D : Database Engine σ τ) (cfg : Settings) (report : SqlError → ErrorInfo)
    (plan : Bytes → Option QueryPlan) : Database Engine σ τ :=
  { D with
    execute := fun e sql =>
      match plan sql with
      | some (.fullScan table filter columns) =>
        let r := executePlan cfg report e (.fullScan table filter columns)
        (r.1, r.2.map fun result => result.map fun found => .rows (found.1.map rendered))
      | _ => D.execute e sql
    tableColumns := fun _ table =>
      some (((getTable cfg.catalog table).map columnNames).mapError report)
    bulkInsert := fun e table columns rows =>
      let r := executePlan cfg report e (.bulkInsert table columns rows)
      (r.1, r.2.map fun result => result.map fun _ => ()) }

/-- A connection and the database after some messages, with all answers. -/
structure Exchange (δ σ τ : Type) where
  db : δ
  connection : Connection σ τ
  responses : List Response

def Exchange.send {δ : Type} (D : Database δ σ τ) (ic : Interceptors) (x : Exchange δ σ τ)
    (m : FrontendMessage) : Exchange δ σ τ :=
  let o := serve D ic x.db x.connection m
  ⟨o.db, o.connection, x.responses ++ o.responses⟩

/-- What the client reads as the stream of a COPY TO STDOUT. -/
def streamed (responses : List Response) : Bytes :=
  responses.flatMap fun r => match r with
    | .copyData line => line
    | _ => []

def copyTag (n : Nat) : Response := .commandComplete (ascii "COPY " ++ natDigits n)

/-- One table is copied into another: both counts are right, and the second shows the rows
of the first. -/
structure Copied (cfg : Settings) (entry : TableEntry) (source target : Bytes) (e : Engine)
    (out into : Exchange Engine σ τ) : Prop where
  sent : copyTag (shownRows entry cfg e source).length ∈ out.responses
  received : copyTag (shownRows entry cfg e source).length ∈ into.responses
  rows : (shownRows entry cfg into.db target).Perm (shownRows entry cfg e source)

/-- The rows that can be copied: no line is blank, the keys are distinct, and the row codec
gives the cells back. -/
structure Copyable (entry : TableEntry) (target : Bytes) (rows : List (List Bytes)) : Prop where
  lines : ∀ cells ∈ rows, cells ≠ [] ∧ cells ≠ [[]]
  keys : (rows.map (storedKey entry target)).Nodup
  cells : (rows.map (storedCells entry)).Perm rows

variable {D : Database Engine σ τ} {cfg : Settings} {report : SqlError → ErrorInfo}
  {plan : Bytes → Option QueryPlan} {ic : Interceptors} {entry : TableEntry} {e : Engine}
  {c : Connection σ τ}

theorem executePlan_fullScan {table : Bytes} (found : getTable cfg.catalog table = .ok entry) :
    executePlan cfg report e (.fullScan table none []) =
      (e, some (.ok (((Reader.latest e cfg.order).tableRows table).map fun r =>
        project (columnNames entry) (decodeRow r.2), 0))) := by
  have planned := @planFullScan_all entry table ((autocommitTarget cfg).context e) found
  simp only [executePlan, execPlan, autocommitTarget, planEffect] at planned ⊢
  rw [planned]
  simp [carryOut, Effect.finish, Except.bind, Except.mapError]

theorem executePlan_bulkInsert {table : Bytes} (found : getTable cfg.catalog table = .ok entry)
    {recorded : List (Row Bytes Bytes)} (start : e.Recorded recorded) {rows : List (List Bytes)}
    (full : ∀ cells ∈ rows, cells.length = entry.columns.length ∧ cells ≠ [])
    (clean : ∀ cells ∈ rows, (0 : UInt8) ∉ storedKey entry table cells) :
    ∃ e' n, executePlan cfg report e (.bulkInsert table [] rows) = (e', some (.ok n)) ∧
      Shows (Reader.latest e' cfg.order) ((bulkWrites entry table rows).foldl write e.get) := by
  have planned :=
    @planBulkInsert_cells entry table ((autocommitTarget cfg).context e) found rows full
  obtain ⟨d, done, after, get⟩ :=
    @carryOut_clean cfg e recorded start (bulkWrites entry table rows) (by
    intro w there
    obtain ⟨cells, here, rfl⟩ := mem_map.mp there
    exact ⟨clean cells here,
      by simp [encodeRow_orderedCells_ne_nil (full cells here).1 (full cells here).2]⟩)
  have shows := latest_shows after cfg.order
  rw [get] at shows
  have complete := (carryOut_follows (autocommit_tracks cfg) done).2
  have accepted : ∃ n, d.result = .ok n := by
    apply complete.2.mpr
    rw [complete.1]
    exact takeWhile_eq_self_iff.mpr fun w _ => rfl
  obtain ⟨n, ok⟩ := accepted
  refine ⟨d.state, ([], n), ?_, shows⟩
  have plain : (autocommitTarget cfg).refuses (.bulkInsert table [] rows) = none := rfl
  have kept : ∀ keys, (autocommitTarget cfg).record e keys = e := fun _ => rfl
  simp only [bulkWrites] at done
  simp only [executePlan, execPlan, plain, planEffect, planned, kept, done]
  simp [ok, Effect.finish, Except.bind, Except.mapError]

theorem copyTag_inj {m n : Nat} (same : copyTag m = copyTag n) : m = n := by
  have digits : natDigits m = natDigits n := by simpa [copyTag] using same
  rw [← digitsToNat_natDigits m, digits, digitsToNat_natDigits]

theorem send_of_serving {x : Exchange Engine σ τ} (running : x.connection.closed = false)
    (outside : x.connection.copying = none) (m : FrontendMessage) :
    x.send D ic m = ⟨(serveMessage D ic x.db x.connection m).db,
      (serveMessage D ic x.db x.connection m).connection,
      x.responses ++ (serveMessage D ic x.db x.connection m).responses⟩ := by
  rw [Exchange.send, serve, if_neg (by simp [running]), outside]

/-- COPY TO STDOUT sends one line for each row. -/
theorem send_copyOut (running : c.closed = false) (outside : c.copying = none)
    (idle : c.currentTxn = none) {text source : Bytes}
    (parsed : ic.parseCopy text = some ⟨source, [], .copyOut⟩)
    (found : getTable cfg.catalog source = .ok entry)
    (reads : plan (CopyCommand.select ⟨source, [], .copyOut⟩) = some (.fullScan source none [])) :
    ∃ width, Exchange.send (copyDatabase D cfg report plan) ic ⟨e, c, []⟩ (.query text) =
      ⟨e, c, .copyOutResponse width :: ((shownRows entry cfg e source).map (fun cells =>
        .copyData (encodeTextRow cells ++ [10])) ++ [.copyDone,
          copyTag (shownRows entry cfg e source).length]) ++ [.readyForQuery c.status]⟩ := by
  have columns : (copyDatabase D cfg report plan).tableColumns e source =
      some (.ok (columnNames entry)) := by
    simp [copyDatabase, found, Except.map, Except.mapError]
  have executed : (copyDatabase D cfg report plan).execute e
      (CopyCommand.select ⟨source, [], .copyOut⟩) = (e, some (.ok (.rows
        (((Reader.latest e cfg.order).tableRows source).map fun r =>
          rendered (project (columnNames entry) (decodeRow r.2)))))) := by
    simp [copyDatabase, reads, executePlan_fullScan found, Except.map]
  rw [CopyCommand.select] at executed
  have copied := @send_of_serving σ τ (copyDatabase D cfg report plan) ic ⟨e, c, []⟩
    running outside (.query text)
  have opened : c.currentTxn.isSome = false := by simp [idle]
  simp only [serveMessage, serveQuery, parsed, opened, Bool.false_eq_true, if_false, runCopy,
    columns,
    executed, runCopyOut, outside, Option.isSome_none, Outcome.ready, running] at copied
  have texts : ∀ value, (rendered (project (columnNames entry) (decodeRow value))).map Prod.snd =
      cellsShown entry value := by
    simp [rendered, cellsShown]
  refine ⟨?width, copied.trans ?same⟩
  case same =>
    simp only [shownRows, copyTag, map_map, Function.comp_def, texts, length_map, nil_append]
    rfl

/-- COPY FROM STDIN asks for the stream. -/
theorem send_copyIn (running : c.closed = false) (outside : c.copying = none)
    (idle : c.currentTxn = none) {text target : Bytes}
    (parsed : ic.parseCopy text = some ⟨target, [], .copyIn⟩)
    (found : getTable cfg.catalog target = .ok entry) :
    ∃ width, Exchange.send (copyDatabase D cfg report plan) ic ⟨e, c, []⟩ (.query text) =
      ⟨e, { c with copying := some ⟨⟨target, [], .copyIn⟩, [], true⟩ }, [.copyInResponse width]⟩ :=
        by
  have columns : (copyDatabase D cfg report plan).tableColumns e target =
      some (.ok (columnNames entry)) := by
    simp [copyDatabase, found, Except.map, Except.mapError]
  have asked := @send_of_serving σ τ (copyDatabase D cfg report plan) ic ⟨e, c, []⟩
    running outside (.query text)
  have opened : c.currentTxn.isSome = false := by simp [idle]
  simp only [serveMessage, serveQuery, parsed, opened, Bool.false_eq_true, if_false, runCopy,
    columns,
    Option.isSome_some, if_true] at asked
  exact ⟨_, asked⟩

/-- However the stream is cut, the frames are put together again. -/
theorem send_frames (running : c.closed = false) (cmd : CopyCommand) (responses : List Response)
    (frames : List Bytes) (buf : Bytes) :
    (frames.map .copyData).foldl (Exchange.send D ic)
        ⟨e, { c with copying := some ⟨cmd, buf, true⟩ }, responses⟩ =
      ⟨e, { c with copying := some ⟨cmd, buf ++ frames.flatten, true⟩ }, responses⟩ := by
  induction frames generalizing buf with
  | nil => simp
  | cons frame rest ih =>
    have one : Exchange.send D ic ⟨e, { c with copying := some ⟨cmd, buf, true⟩ }, responses⟩
        (.copyData frame) =
          ⟨e, { c with copying := some ⟨cmd, buf ++ frame, true⟩ }, responses⟩ := by
      simp [Exchange.send, serve, running, serveCopy, Outcome.answer]
    rw [map_cons, foldl_cons, one, ih, flatten_cons, append_assoc]

/-- The end of the stream: all its rows go to one bulk insert. -/
theorem send_copyDone (running : c.closed = false) (cmd : CopyCommand) (buf : Bytes) (width : Nat) :
    let x :=
      Exchange.send D ic ⟨e, { c with copying := some ⟨cmd, buf, true⟩ }, [.copyInResponse width]⟩
      .copyDone
    let r := D.bulkInsert e cmd.table cmd.columns (copyRows buf)
    x.db = r.1 ∧
      (∀ n, copyTag n ∈ x.responses ↔ (∃ u, r.2 = some (.ok u)) ∧ n = (copyRows buf).length) := by
  simp only [Exchange.send, serve, running, Bool.false_eq_true, if_false, serveCopy]
  generalize D.bulkInsert e cmd.table cmd.columns (copyRows buf) = r
  obtain ⟨e', outcome⟩ := r
  cases outcome with
  | none => simp [copyTag]
  | some result =>
    cases result with
    | ok u =>
      refine ⟨by simp [Outcome.ready], ?_⟩
      intro n
      simp only [Outcome.ready, Bool.false_eq_true, if_false, if_true]
      constructor
      · intro told
        simp only [copyTag, mem_append, mem_cons, not_mem_nil, or_false, reduceCtorEq,
          false_or] at told
        exact ⟨⟨u, trivial⟩, copyTag_inj told⟩
      · rintro ⟨_, rfl⟩
        simp [copyTag]
    | error err => simp [Outcome.ready, copyTag]

/-- A COPY FROM STDIN with its frames. -/
def Exchange.copyInto (D : Database Engine σ τ) (ic : Interceptors) (x : Exchange Engine σ τ)
    (text : Bytes) (frames : List Bytes) : Exchange Engine σ τ :=
  ((frames.map .copyData).foldl (Exchange.send D ic)
    (Exchange.send D ic ⟨x.db, x.connection, []⟩ (.query text))).send D ic .copyDone

theorem streamed_copyOut (width : Nat) (rows : List (List Bytes)) (n : Nat) (status : TxnStatus) :
    streamed (.copyOutResponse width :: (rows.map (fun cells =>
      .copyData (encodeTextRow cells ++ [10])) ++ [.copyDone, copyTag n]) ++
        [.readyForQuery status]) =
        copyStream rows := by
  simp [streamed, copyStream, copyTag, flatMap_map]

/-- Only the columns of the table count. -/
theorem columns_congr {entry entry' : TableEntry} (schema : entry'.columns = entry.columns) :
    columnNames entry' = columnNames entry ∧ orderedCells entry' = orderedCells entry ∧
      cellsShown entry' = cellsShown entry ∧ storedCells entry' = storedCells entry ∧
        ∀ table, storedKey entry' table = storedKey entry table := by
  have names : columnNames entry' = columnNames entry := by simp [columnNames, schema]
  have ordered : orderedCells entry' = orderedCells entry := by
    funext cells
    simp [orderedCells, names]
  have shown : cellsShown entry' = cellsShown entry := by
    funext value
    simp [cellsShown, names]
  refine ⟨names, ordered, shown, ?_, ?_⟩
  · funext cells
    simp [storedCells, ordered, shown]
  · intro table
    funext cells
    simp [storedKey, primaryKeyValue, ordered, schema]

/-- What the second table has after the stream of rows that can be copied line by line. -/
theorem copied_rows_iff {entry' : TableEntry} {target : Bytes}
    (found : getTable cfg.catalog target = .ok entry')
    {recorded : List (Row Bytes Bytes)} (start : e.Recorded recorded) {rows : List (List Bytes)}
    (full : ∀ cells ∈ rows, cells.length = entry'.columns.length ∧ cells ≠ [])
    (clean : ∀ cells ∈ rows, (0 : UInt8) ∉ storedKey entry' target cells)
    (empty : (Reader.latest e cfg.order).tableRows target = []) :
    ∃ e' n, executePlan cfg report e (.bulkInsert target [] rows) = (e', some (.ok n)) ∧
      ((shownRows entry' cfg e' target).Perm rows ↔
        (rows.map (storedKey entry' target)).Nodup ∧
        (rows.map (storedCells entry')).Perm rows) := by
  obtain ⟨e', n, done, shows⟩ :=
    @executePlan_bulkInsert cfg report entry' e target found recorded start
    rows full clean
  have before := latest_shows ⟨recorded, start⟩ cfg.order
  have free : ∀ k, (tablePrefix target).isPrefixOf k = true → e.get k = none := by
    intro k inside
    cases held : e.get k with
    | none => rfl
    | some v =>
      have there := (before.rows target k v).mpr ⟨inside, held⟩
      rw [empty] at there
      cases there
  exact ⟨e', n, done, shown_bulk_perm_iff shows free⟩

/-- COPY TO STDOUT of a table and COPY FROM STDIN into an empty one with the same columns
give the same rows and counts, for every cut of the stream, exactly if no row is a single
empty text, the keys are distinct and the row codec gives the rows back. -/
theorem copy_round_trip_iff (D : Database Engine σ τ) {cfg : Settings}
    (report : SqlError → ErrorInfo) {plan : Bytes → Option QueryPlan} {ic : Interceptors}
    {e : Engine} {recorded : List (Row Bytes Bytes)} (start : e.Recorded recorded)
    {entry entry' : TableEntry} {source target outText inText : Bytes}
    (first : getTable cfg.catalog source = .ok entry)
    (second : getTable cfg.catalog target = .ok entry') (schema : entry'.columns = entry.columns)
    (reads : plan (CopyCommand.select ⟨source, [], .copyOut⟩) = some (.fullScan source none []))
    (out : ic.parseCopy outText = some ⟨source, [], .copyOut⟩)
    (into : ic.parseCopy inText = some ⟨target, [], .copyIn⟩)
    {c : Connection σ τ} (running : c.closed = false) (outside : c.copying = none)
    (idle : c.currentTxn = none) (empty : shownRows entry cfg e target = [])
    (clean : ∀ cells ∈ shownRows entry cfg e source, (0 : UInt8) ∉ storedKey entry target cells)
    {frames : List Bytes}
    (cut : frames.flatten = streamed (Exchange.send (copyDatabase D cfg report plan) ic ⟨e, c, []⟩
      (.query outText)).responses) :
    Copied cfg entry source target e
        (Exchange.send (copyDatabase D cfg report plan) ic ⟨e, c, []⟩ (.query outText))
        ((Exchange.send (copyDatabase D cfg report plan) ic ⟨e, c, []⟩ (.query outText)).copyInto
          (copyDatabase D cfg report plan) ic inText frames) ↔
      Copyable entry target (shownRows entry cfg e source) := by
  obtain ⟨names, ordered, shown, stored, keys⟩ := columns_congr schema
  obtain ⟨width, sent⟩ := send_copyOut (D := D) (e := e) running outside idle out first reads
  obtain ⟨width', asked⟩ := send_copyIn (D := D) (e := e) running outside idle into second
  rw [sent, streamed_copyOut] at cut
  rw [sent]
  simp only [Exchange.copyInto]
  rw [asked, send_frames running, nil_append, cut]
  obtain ⟨db, tags⟩ := @send_copyDone σ τ (copyDatabase D cfg report plan) ic e c running
    ⟨target, [], .copyIn⟩ (copyStream (shownRows entry cfg e source)) width'
  rw [copyRows_copyStream] at db tags
  have told : copyTag (shownRows entry cfg e source).length ∈ (Exchange.mk e c
      (.copyOutResponse width :: ((shownRows entry cfg e source).map (fun cells =>
        .copyData (encodeTextRow cells ++ [10])) ++ [.copyDone,
          copyTag (shownRows entry cfg e source).length]) ++
            [.readyForQuery c.status])).responses := by
    simp
  have blank : (shownRows entry cfg e source).length =
      ((shownRows entry cfg e source).filter fun cells => cells ≠ [] ∧ cells ≠ [[]]).length ↔
      ∀ cells ∈ shownRows entry cfg e source, cells ≠ [] ∧ cells ≠ [[]] := by
    rw [eq_comm, length_filter_eq_length_iff]
    simp
  by_cases lines : ∀ cells ∈ shownRows entry cfg e source, cells ≠ [] ∧ cells ≠ [[]]
  · have all : (shownRows entry cfg e source).filter (fun cells => cells ≠ [] ∧ cells ≠ [[]]) =
        shownRows entry cfg e source := by
      simpa using lines
    rw [all] at db tags
    have full : ∀ cells ∈ shownRows entry cfg e source,
        cells.length = entry'.columns.length ∧ cells ≠ [] := by
      intro cells there
      obtain ⟨r, _, rfl⟩ := mem_map.mp there
      exact ⟨by rw [length_cellsShown, schema], (lines _ there).1⟩
    have free : (Reader.latest e cfg.order).tableRows target = [] := by
      simpa [shownRows] using empty
    obtain ⟨e', n, done, rows⟩ := @copied_rows_iff cfg report e entry' target second
      recorded start (shownRows entry cfg e source) full (by simpa [keys] using clean) free
    have inserted : (copyDatabase D cfg report plan).bulkInsert e target []
        (shownRows entry cfg e source) = (e', some (.ok ())) := by
      simp [copyDatabase, done, Except.map]
    rw [inserted] at db tags
    have same : shownRows entry' cfg e' target = shownRows entry cfg e' target := by
      simp [shownRows, shown]
    rw [same, keys, stored] at rows
    constructor
    · intro copied
      have received := copied.rows
      rw [db] at received
      obtain ⟨distinct, back⟩ := rows.mp received
      exact ⟨lines, distinct, back⟩
    · intro copyable
      refine ⟨told, (tags _).mpr ⟨⟨(), rfl⟩, rfl⟩, ?_⟩
      rw [db]
      exact rows.mpr ⟨copyable.keys, copyable.cells⟩
  · constructor
    · intro copied
      obtain ⟨_, length⟩ := (tags _).mp copied.received
      exact absurd (blank.mp length) lines
    · intro copyable
      exact absurd copyable.lines lines

end Conversation

/-- A database that is asked for nothing but COPY. -/
def unused : Database Engine Unit Unit where
  prepare _ _ := none
  execute e _ := (e, none)
  executeBound e _ _ := (e, none)
  executeInTxn e _ _ := (e, none)
  executeBoundInTxn e _ _ _ := (e, none)
  describeResultOids _ _ := none
  beginTransaction e := (e, none)
  commitTransaction e _ := (e, none)
  rollbackTransaction e _ := (e, none)
  savepoint e _ _ := e
  rollbackTo e _ _ := .ok e
  release e _ _ := .ok e
  tableColumns _ _ := none
  bulkInsert e _ _ _ := (e, none)

/-- Tables `t` and `u` with the same columns. -/
def twin (columns : List CatalogColumn) : Settings :=
  ⟨.plain, .byId, [⟨ascii "t", columns, false⟩, ⟨ascii "u", columns, false⟩], fun _ _ => none⟩

def twinTexts : Interceptors where
  parseCopy sql :=
    if sql = ascii "COPY t TO STDOUT" then some ⟨ascii "t", [], .copyOut⟩
    else if sql = ascii "COPY u FROM STDIN" then some ⟨ascii "u", [], .copyIn⟩
    else none
  parseTxnControl _ := none
  tryHandlePgCatalog _ := none

def twinPlan (sql : Bytes) : Option QueryPlan :=
  if sql = ascii "SELECT * FROM t" then some (.fullScan (ascii "t") none []) else none

def internalError (_ : SqlError) : ErrorInfo := ⟨ascii "XX000", []⟩

def twinDatabase (columns : List CatalogColumn) : Database Engine Unit Unit :=
  copyDatabase unused (twin columns) internalError twinPlan

/-- The rows as an autocommit statement has put them. -/
def twinEngine (columns : List CatalogColumn) (writes : List (Bytes × Option Bytes)) :
    Option Engine :=
  (carryOut (autocommitTarget (twin columns)) (Engine.fresh .plain .default) writes).map Done.state

/-- The text `a`, tab, backslash, dot, and a NULL. -/
def textAndNull : List (Bytes × Option Bytes) :=
  [(ascii "t:1", some (ascii "id=1|c=a\t\\.")), (ascii "t:2", some (ascii "id=2|c=NULL"))]

def textAndNullEngine :
    Engine := (twinEngine numbersTable.columns textAndNull).get (by decide +kernel)

theorem copied_text_and_null :
    Copied (twin numbersTable.columns) numbersTable (ascii "t") (ascii "u") textAndNullEngine
      (Exchange.send (twinDatabase numbersTable.columns) twinTexts ⟨textAndNullEngine, .new, []⟩
        (.query (ascii "COPY t TO STDOUT")))
      ((Exchange.send (twinDatabase numbersTable.columns) twinTexts ⟨textAndNullEngine, .new, []⟩
        (.query (ascii "COPY t TO STDOUT"))).copyInto (twinDatabase numbersTable.columns) twinTexts
          (ascii "COPY u FROM STDIN") [ascii "1\ta\\t\\", ascii "\\.\n2", ascii "\t\\N\n"]) := by
  obtain ⟨d, done, ⟨recorded, start⟩, _⟩ := @carryOut_clean (twin numbersTable.columns) _ []
    (Engine.recorded_fresh .plain .default) textAndNull (by decide +kernel)
  have same : d.state = textAndNullEngine := by
    simp [textAndNullEngine, twinEngine, done]
  rw [same] at start
  have iff :=
    @copy_round_trip_iff Unit Unit unused (twin numbersTable.columns) internalError twinPlan
    twinTexts textAndNullEngine recorded start numbersTable ⟨ascii "u", numbersTable.columns, false⟩
    (ascii "t") (ascii "u") (ascii "COPY t TO STDOUT") (ascii "COPY u FROM STDIN") rfl rfl rfl
      rfl rfl
    rfl .new rfl rfl rfl (by decide +kernel) (by decide +kernel)
    [ascii "1\ta\\t\\", ascii "\\.\n2", ascii "\t\\N\n"] (by decide +kernel)
  exact iff.mpr ⟨by decide +kernel, by decide +kernel, by decide +kernel⟩

/-- One column, and an empty text in it. -/
def emptyText : Engine :=
  (twinEngine [⟨ascii "v", true, false⟩] [(ascii "t:", some (ascii "v="))]).get (by decide +kernel)

/-- The line of the row is empty and is skipped: nothing is inserted, and nothing is counted. -/
theorem empty_text_is_lost :
    ¬ Copied (twin [⟨ascii "v", true, false⟩]) ⟨ascii "t", [⟨ascii "v", true, false⟩], false⟩
        (ascii "t") (ascii "u") emptyText
        (Exchange.send (twinDatabase [⟨ascii "v", true, false⟩]) twinTexts ⟨emptyText, .new, []⟩
          (.query (ascii "COPY t TO STDOUT")))
        ((Exchange.send (twinDatabase [⟨ascii "v", true, false⟩]) twinTexts ⟨emptyText, .new, []⟩
          (.query (ascii "COPY t TO STDOUT"))).copyInto (twinDatabase [⟨ascii "v", true, false⟩])
            twinTexts (ascii "COPY u FROM STDIN") [ascii "\n"]) ∧
      streamed (Exchange.send (twinDatabase [⟨ascii "v", true, false⟩]) twinTexts
        ⟨emptyText, .new, []⟩ (.query (ascii "COPY t TO STDOUT"))).responses = ascii "\n" ∧
      shownRows ⟨ascii "t", [⟨ascii "v", true, false⟩], false⟩ (twin [⟨ascii "v", true, false⟩])
        emptyText (ascii "t") = [[[]]] := by
  refine ⟨?_, by decide +kernel, by decide +kernel⟩
  intro copied
  have received := copied.received
  revert received
  decide +kernel

end GalaxDb.Server
