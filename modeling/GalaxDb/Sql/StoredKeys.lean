import GalaxDb.Sql.FailedStatement

/-!
# Keys and the rows under them

The key of a row is built from the primary key when the row is inserted and stays as it is.
It agrees with the row as long as every row that is inserted reads back with its primary
key, and every row that is updated keeps it.
-/

namespace GalaxDb.Sql

open Bytes Executor CatalogColumn Reader List

/-- The text of a column, as keys are built from it. -/
def keyText (pk : Bytes) (cols : Columns) : Option Bytes := (cell cols pk).map valueDisplay

theorem buildPrimaryKey_ok_iff {table : Bytes} {entry : TableEntry} {pk : CatalogColumn}
    (declared : entry.columns.find? primaryKey = some pk) {cols : Columns} {key : Bytes} :
    buildPrimaryKey table entry cols = .ok key ↔
      ∃ text, keyText pk.name cols = some text ∧ key = tablePrefix table ++ text := by
  simp only [buildPrimaryKey, primaryKeyValue, declared, keyText]
  cases cell cols pk.name with
  | none => simp
  | some v => simp [eq_comm]

/-- A row that reads back with the primary key it was given. -/
def ReadsBack (pk : Bytes) (cols : Columns) : Prop :=
  keyText pk (decodeRow (encodeRow cols)) = keyText pk cols

/-- The row that an INSERT makes of its values keeps its key, which has no zero byte. -/
def RowKeeps (entry : TableEntry) (pk : Bytes) (columns : List Bytes) (values : List Value) :
    Prop :=
  ∀ ordered, alignValues entry columns values = .ok ordered →
    ReadsBack pk ordered ∧ ∀ text ∈ keyText pk ordered, (0 : UInt8) ∉ text

def Command.table : Command → Bytes
  | .insert table _ _ => table
  | .plan (.insert table _ _) => table
  | .plan (.bulkInsert table _ _) => table
  | .plan (.update table _ _) => table
  | .plan (.delete table _) => table
  | .plan (.fullScan table _ _) => table
  | .plan (.pointLookup table _) => table

/-- Inserted rows read back with their primary key, updated rows with the one they had. -/
def Command.KeepsKeys (entry : TableEntry) (pk : Bytes) (reader : Reader) : Command → Prop
  | .insert _ columns rows => ∀ row ∈ rows, ∀ values, rowValues row = .ok values →
      RowKeeps entry pk columns values
  | .plan (.insert _ columns values) => RowKeeps entry pk columns values
  | .plan (.bulkInsert _ columns rows) => ∀ tokens ∈ rows,
      RowKeeps entry pk columns (tokens.map valueFromStr)
  | .plan (.update table assignments filter) => assignments ≠ [] ∧
      ∀ r ∈ matching filter (decodeRows (reader.tableRows table)), ∀ new,
        updateRow assignments r.2 = .ok new →
          keyText pk (decodeRow (encodeRow new)) = keyText pk r.2
  | _ => True

instance (entry : TableEntry) (pk : Bytes) (columns : List Bytes) (values : List Value) :
    Decidable (RowKeeps entry pk columns values) :=
  inferInstanceAs (Decidable (∀ ordered, alignValues entry columns values = .ok ordered →
    keyText pk (decodeRow (encodeRow ordered)) = keyText pk ordered ∧
      ∀ text ∈ keyText pk ordered, (0 : UInt8) ∉ text))

instance (entry : TableEntry) (pk : Bytes) (reader : Reader) (c : Command) :
    Decidable (c.KeepsKeys entry pk reader) := by
  unfold Command.KeepsKeys
  rcases c with _ | (_ | _ | _ | _ | _ | _) <;> infer_instance

section Logs

variable {σ ν : Type} {T : Target σ} {V : View σ ν} {table : Bytes} {columns : List Bytes}

/-- Every write of an INSERT is that of one of its rows. -/
theorem insertRows_mem (tracks : Tracks T V)
    (admits : ∀ values, T.refuses (.insert table columns values) = none) {rows : List (List Expr)}
    {s : σ} {d : Done σ Nat} (h : insertRows T table columns s rows = some d) :
    ∀ w ∈ d.log, ∃ row ∈ rows, ∃ values ctx effect, rowValues row = .ok values ∧
      ctx.catalog = (T.context s).catalog ∧ planInsert ctx table columns values = .ok effect ∧
      w ∈ effect.writes := by
  induction rows generalizing s d with
  | nil =>
    cases h
    simp
  | cons row rest ih =>
    rcases insertRows_cons tracks admits h with ⟨-, nothing⟩ |
      ⟨effect, planned, -, ⟨-, nothing⟩ | ⟨-, s', later, -, catalog, eq, log⟩⟩
    · simp [nothing]
    · simp [nothing]
    · intro w hw
      rw [log] at hw
      rcases mem_append.mp hw with hw | hw
      · cases evaluated : rowValues row with
        | error e => simp [evaluated, Except.bind] at planned
        | ok values =>
          rw [evaluated] at planned
          exact ⟨row, mem_cons_self, values, _, effect, evaluated, rfl, planned, hw⟩
      · obtain ⟨row', there, values, ctx, effect', evaluated, same, rest⟩ := ih eq w hw
        exact ⟨row', mem_cons_of_mem _ there, values, ctx, effect', evaluated,
          same.trans catalog, rest⟩

end Logs

section Agree

variable {cfg : Settings} {entry : TableEntry} {pk : CatalogColumn}

/-- Every live row is stored under the key of its decoded columns. -/
def KeysAgree (entry : TableEntry) (get : Bytes → Option Bytes) : Prop :=
  ∀ k v, get k = some v → buildPrimaryKey entry.name entry (decodeRow v) = .ok k

/-- A write after which its row agrees with its key. -/
def Agreeing (entry : TableEntry) (w : Bytes × Option Bytes) : Prop :=
  (0 : UInt8) ∉ w.1 ∧ ∀ v, w.2 = some v → buildPrimaryKey entry.name entry (decodeRow v) = .ok w.1

theorem agreeing_of_insert (declared : entry.columns.find? primaryKey = some pk)
    (nameClean : (0 : UInt8) ∉ entry.name) {columns : List Bytes} {values : List Value}
    (keeps : RowKeeps entry pk.name columns values) {ordered : Columns} {key : Bytes}
    (aligned : alignValues entry columns values = .ok ordered)
    (built : buildPrimaryKey entry.name entry ordered = .ok key) :
    Agreeing entry (key, some (encodeRow ordered)) := by
  obtain ⟨back, clean⟩ := keeps ordered aligned
  obtain ⟨text, given, rfl⟩ := (buildPrimaryKey_ok_iff declared).mp built
  constructor
  · have apart := clean text given
    simp [tablePrefix, nameClean, apart]
  · intro v value
    obtain rfl := Option.some.inj value
    exact (buildPrimaryKey_ok_iff declared).mpr ⟨text, back.trans given, rfl⟩

variable {rows : List (Row Bytes Bytes)} {e : Engine} {c : Command}

/-- Every write of a command agrees with its key, if those of the rows before it did. -/
theorem exec_agreeing (declared : entry.columns.find? primaryKey = some pk)
    (found : getTable cfg.catalog entry.name = .ok entry) (nameClean : (0 : UInt8) ∉ entry.name)
    (recorded : e.Recorded rows) (agree : KeysAgree entry e.get) (own : c.table = entry.name)
    (keeps : c.KeepsKeys entry pk.name (.latest e cfg.order)) {d : Done Engine (List Columns × Nat)}
    (h : exec (autocommitTarget cfg) e c = some d) : ∀ w ∈ d.log, Agreeing entry w := by
  have tracks := autocommit_tracks cfg
  have shows := shows_latest recorded cfg.order
  have keyOf : ∀ r ∈ decodeRows ((latest e cfg.order).tableRows entry.name),
      (0 : UInt8) ∉ r.1 ∧ buildPrimaryKey entry.name entry r.2 = .ok r.1 := by
    intro r hr
    obtain ⟨⟨k, v⟩, there, rfl⟩ := mem_map.mp hr
    have live := ((shows.rows entry.name k v).mp there).2
    obtain ⟨x, hx, rfl⟩ := Engine.exists_row_of_contents (by rw [live]; simp)
    exact ⟨recorded.keys x hx, agree _ v ((recorded.get_eq _).trans live)⟩
  cases c with
  | insert table columns lists =>
    subst own
    simp only [exec] at h
    split at h
    · cases h
      simp
    · obtain ⟨later, eq, rfl⟩ := Option.map_eq_some_iff.mp h
      intro w hw
      obtain ⟨row, there, values, ctx, effect, evaluated, catalog, planned, inside⟩ :=
        insertRows_mem tracks (fun _ => rfl) eq w hw
      obtain ⟨entry', ordered, key, found', aligned, built, rfl⟩ := planInsert_ok planned
      rw [catalog] at found'
      obtain rfl : entry = entry' := Except.ok.inj (found.symm.trans found')
      rw [mem_singleton.mp inside]
      exact agreeing_of_insert declared nameClean (keeps row there values evaluated) aligned built
  | plan p =>
    obtain ⟨-, ⟨nothing, -⟩ | ⟨effect, -, planned, log, -⟩⟩ := execPlan_cases tracks h
    · simp [nothing]
    intro w hw
    rw [log] at hw
    have inside : w ∈ effect.writes := takeWhile_subset _ hw
    cases p with
    | insert table columns values =>
      subst own
      obtain ⟨entry', ordered, key, found', aligned, built, rfl⟩ := planInsert_ok planned
      obtain rfl : entry = entry' := Except.ok.inj (found.symm.trans found')
      rw [mem_singleton.mp inside]
      exact agreeing_of_insert declared nameClean keeps aligned built
    | bulkInsert table columns lists =>
      subst own
      obtain ⟨entry', pairs, found', encoded, rfl⟩ := planBulkInsert_ok planned
      obtain rfl : entry = entry' := Except.ok.inj (found.symm.trans found')
      obtain ⟨pair, there, rfl⟩ := mem_map.mp inside
      obtain ⟨tokens, given, one⟩ := encoded pair there
      obtain ⟨ordered, aligned, built, value⟩ := bulkPair_ok one
      rw [value]
      exact agreeing_of_insert declared nameClean (keeps tokens given) aligned built
    | update table assignments filter =>
      subst own
      rw [planUpdate_ok planned] at inside
      obtain ⟨r, matched, new, evaluated, rfl⟩ := updateWrites_mem _ w inside
      obtain ⟨clean, built⟩ := keyOf r (mem_filter.mp matched).1
      refine ⟨clean, ?_⟩
      intro v value
      obtain rfl := Option.some.inj value
      obtain ⟨text, given, eq⟩ := (buildPrimaryKey_ok_iff declared).mp built
      exact (buildPrimaryKey_ok_iff declared).mpr
        ⟨text, (keeps.2 r matched new evaluated).trans given, eq⟩
    | delete table filter =>
      subst own
      rw [planDelete_ok planned] at inside
      obtain ⟨r, matched, rfl⟩ := mem_map.mp inside
      exact ⟨(keyOf r (mem_filter.mp matched).1).1, by simp⟩
    | fullScan table filter columns =>
      obtain ⟨entry', -, rfl⟩ := planFullScan_ok planned
      simp at inside
    | pointLookup table key =>
      obtain ⟨entry', -, rfl⟩ := planPointLookup_ok planned
      simp at inside

theorem keysAgree_of_log {get : Bytes → Option Bytes} {log : List (Bytes × Option Bytes)}
    (agree : KeysAgree entry get) (agreeing : ∀ w ∈ log, Agreeing entry w) :
    KeysAgree entry (log.foldl WriteLog.write get) := by
  intro k v shown
  rw [WriteLog.foldl_write] at shown
  cases last : WriteLog.lastWrite log k with
  | none => exact agree k v (by simpa [last] using shown)
  | some w =>
    obtain rfl : w = some v := by simpa [last] using shown
    exact (agreeing _ (WriteLog.mem_of_lastWrite last)).2 v rfl

/-- A sequence of statements, each run to its end. -/
def statement (cfg : Settings) (e : Engine) (c : Command) : Option Engine :=
  (exec (autocommitTarget cfg) e c).map Done.state

/-- A statement on the table whose rows read back with their keys. -/
def Keeping (cfg : Settings) (entry : TableEntry) (pk : Bytes) (e : Engine) (c : Command) : Prop :=
  c.table = entry.name ∧ c.KeepsKeys entry pk (.latest e cfg.order)

instance (cfg : Settings) (entry : TableEntry) (pk : Bytes) (e : Engine) (c : Command) :
    Decidable (Keeping cfg entry pk e c) :=
  inferInstanceAs (Decidable (_ ∧ _))

theorem keysAgree_step (declared : entry.columns.find? primaryKey = some pk)
    (found : getTable cfg.catalog entry.name = .ok entry) (nameClean : (0 : UInt8) ∉ entry.name)
    {e' : Engine} (inv : (∃ rows, e.Recorded rows) ∧ KeysAgree entry e.get)
    (keeping : Keeping cfg entry pk.name e c) (h : statement cfg e c = some e') :
    (∃ rows, e'.Recorded rows) ∧ KeysAgree entry e'.get := by
  obtain ⟨⟨rows, recorded⟩, agree⟩ := inv
  obtain ⟨d, ran, rfl⟩ := Option.map_eq_some_iff.mp h
  have tracks := autocommit_tracks cfg
  have agreeing := exec_agreeing declared found nameClean recorded agree keeping.1 keeping.2 ran
  have fine : c.Ok := by
    obtain _ | p := c
    · trivial
    · cases p <;> first | trivial | exact keeping.2.1
  obtain ⟨recorded', look⟩ := (exec_follows tracks ran).shows ⟨rows, recorded⟩ fun w hw =>
    ⟨(agreeing w hw).1, exec_values tracks (fun _ _ _ => rfl) fine ran w hw⟩
  refine ⟨recorded', ?_⟩
  have plain : autocommitView.shown d.log = d.log := by simp [View.shown, autocommitView]
  rw [plain] at look
  have after : d.state.get = d.log.foldl WriteLog.write e.get := look
  rw [after]
  exact keysAgree_of_log agree agreeing

/-- The primary key of a live row is its key. -/
theorem KeysAgree.keyText (declared : entry.columns.find? primaryKey = some pk)
    (recorded : e.Recorded rows) (agree : KeysAgree entry e.get) (order : IterOrder)
    {r : BufferedRow} (there : r ∈ decodeRows ((latest e order).tableRows entry.name)) :
    ∃ text, keyText pk.name r.2 = some text ∧ r.1 = tablePrefix entry.name ++ text ∧
      (e.get r.1).isSome := by
  obtain ⟨⟨k, v⟩, listed, rfl⟩ := mem_map.mp there
  have live := (((shows_latest recorded order).rows entry.name k v).mp listed).2
  rw [← recorded.get_eq] at live
  obtain ⟨text, given, eq⟩ := (buildPrimaryKey_ok_iff declared).mp (agree k v live)
  exact ⟨text, given, eq, by simp [live]⟩

theorem keyText_project {names : List Bytes} {name : Bytes} (listed : name ∈ names) {cols : Columns}
    {text : Bytes} (given : keyText name cols = some text) :
    keyText name (project names cols) = some text := by
  obtain ⟨v, found, rfl⟩ := Option.map_eq_some_iff.mp given
  have same : ∀ c ∈ project names cols, c.1 = name → c.2 = v := by
    intro c hc key
    obtain ⟨name', -, rfl⟩ := mem_map.mp hc
    simp only at key
    simp [key, found]
  simp only [keyText, cell]
  cases first : (project names cols).find? fun c => c.1 = name with
  | none =>
    rw [find?_eq_none] at first
    exact absurd (decide_eq_true rfl) (first (name, _) (mem_map.mpr ⟨name, listed, rfl⟩))
  | some c =>
    have key : c.1 = name := by simpa using find?_some first
    simp [same c (mem_of_find?_eq_some first) key]

theorem scanBuffered_sublist (catalog : List TableEntry) (reader : Reader) (table : Bytes)
    (filter : Option FilterExpr) :
    (scanBuffered ⟨catalog, fun _ _ => none, reader⟩ table filter).Sublist
      (decodeRows (reader.tableRows table)) := by
  have direct : accessRows ⟨catalog, fun _ _ => none, reader⟩ table filter =
      reader.tableRows table := by
    have unindexed : indexPks ⟨catalog, fun _ _ => none, reader⟩ table filter = none := by
      simp only [indexPks]
      split <;> simp
    rw [accessRows, unindexed]
  simp only [scanBuffered, direct]
  split
  · exact filter_sublist.trans filter_sublist
  · exact filter_sublist

/-- As long as the rows of all statements read back with their primary keys, every row of the
table is stored under its key, a SELECT returns no primary key twice, and an INSERT of a key
that some row has is rejected. -/
theorem stored_keys_agree (config : EngineConfig)
    (declared : entry.columns.find? primaryKey = some pk)
    (found : getTable cfg.catalog entry.name = .ok entry) (nameClean : (0 : UInt8) ∉ entry.name)
    {commands : List Command} {e : Engine}
    (along :
      Run.Along (statement cfg) (Keeping cfg entry pk.name) (Engine.fresh cfg.env config) commands)
    (ran : Run.run (statement cfg) (Engine.fresh cfg.env config) commands = some e) :
    (∀ r ∈ (latest e cfg.order).tableRows entry.name,
      buildPrimaryKey entry.name entry (decodeRow r.2) = .ok r.1) ∧
    (∀ filter columns scan, planFullScan ⟨cfg.catalog, fun _ _ => none, .latest e cfg.order⟩
        entry.name filter columns = .ok scan → columns = [] ∨ pk.name ∈ columns →
      (scan.rows.map Prod.fst).Nodup ∧ ∀ r ∈ scan.rows, ∀ r' ∈ scan.rows,
        keyText pk.name r.2 = keyText pk.name r'.2 → r.1 = r'.1) ∧
    ∀ columns values ordered, alignValues entry columns values = .ok ordered →
      ∀ r ∈ decodeRows ((latest e cfg.order).tableRows entry.name),
        keyText pk.name r.2 = keyText pk.name ordered →
        ∃ text, planInsert ⟨cfg.catalog, cfg.index, .latest e cfg.order⟩ entry.name columns values =
          .error (.uniqueViolation entry.name pk.name text) := by
  have preserved : ∀ s c s', ((∃ rows, s.Recorded rows) ∧ KeysAgree entry s.get) →
      Keeping cfg entry pk.name s c → statement cfg s c = some s' →
      (∃ rows, s'.Recorded rows) ∧ KeysAgree entry s'.get :=
    fun s c s' inv keeping step => keysAgree_step declared found nameClean inv keeping step
  have start := Engine.recorded_fresh cfg.env config
  have empty : KeysAgree entry (Engine.fresh cfg.env config).get := by
    intro k v live
    rw [start.get_eq] at live
    simp [WriteLog.ofRows, WriteLog.contents] at live
  obtain ⟨⟨rows, recorded⟩, agree⟩ := Run.invariant_of_run preserved ⟨⟨[], start⟩, empty⟩ along ran
  have shows := shows_latest recorded cfg.order
  refine ⟨?_, ?_, ?_⟩
  · rintro ⟨k, v⟩ there
    have live := ((shows.rows entry.name k v).mp there).2
    exact agree k v ((recorded.get_eq k).trans live)
  · intro filter columns scan planned asked
    obtain ⟨entry', found', rfl⟩ := planFullScan_ok planned
    obtain rfl : entry = entry' := Except.ok.inj (found.symm.trans found')
    have listed : pk.name ∈ if columns = [] then entry.columns.map name else columns := by
      split
      · exact mem_map.mpr ⟨pk, mem_of_find?_eq_some declared, rfl⟩
      · rename_i given
        exact asked.resolve_left given
    have sub := scanBuffered_sublist cfg.catalog (.latest e cfg.order) entry.name filter
    constructor
    · have keys : ((decodeRows ((latest e cfg.order).tableRows entry.name)).map
          Prod.fst).Nodup := by
        have ascending := shows.ordered entry.name
        rw [decodeRows, map_map, List.Nodup, pairwise_map]
        apply ascending.imp
        rintro a b lt same
        simp only [Function.comp] at same
        simp [same] at lt
      rw [map_map]
      exact (sub.map Prod.fst).nodup keys
    · intro r hr r' hr' same
      obtain ⟨b, hb, rfl⟩ := mem_map.mp hr
      obtain ⟨b', hb', rfl⟩ := mem_map.mp hr'
      obtain ⟨text, given, key, -⟩ := agree.keyText declared recorded cfg.order (sub.subset hb)
      obtain ⟨text', given', key', -⟩ := agree.keyText declared recorded cfg.order (sub.subset hb')
      simp only [keyText_project listed given, keyText_project listed given'] at same
      simp only [key, key', Option.some.inj same]
  · intro columns values ordered aligned r there same
    obtain ⟨text, given, key, live⟩ := agree.keyText declared recorded cfg.order there
    have built : buildPrimaryKey entry.name entry ordered = .ok r.1 :=
      (buildPrimaryKey_ok_iff declared).mpr ⟨text, same ▸ given, key⟩
    have stored : ((latest e cfg.order).get r.1).isSome = true := live
    refine ⟨((cell ordered pk.name).map valueDisplay).getD [], ?_⟩
    simp only [planInsert, found, aligned, built, declared, bind, Except.bind, stored, if_true]

/-- A row that is updated in its other column. -/
theorem stored_keys_agree_after_update : let commands : List Command := [
      .insert (ascii "t") [] [[numberLiteral "1", numberLiteral "5"]],
      .plan (.update (ascii "t") [(ascii "c", .literal (.integer 6))] none)]
    ∃ e, Run.run (statement .numbers) (Engine.fresh .plain .default) commands = some e ∧
      (latest e .byId).tableRows (ascii "t") = [(ascii "t:1", ascii "id=1|c=6")] ∧
      ∀ r ∈ (latest e .byId).tableRows (ascii "t"),
        buildPrimaryKey (ascii "t") numbersTable (decodeRow r.2) = .ok r.1 := by
  intro commands
  have ran : ∃ e ∈ Run.run (statement .numbers) (Engine.fresh .plain .default) commands,
      (latest e .byId).tableRows (ascii "t") = [(ascii "t:1", ascii "id=1|c=6")] := by
    decide +kernel
  obtain ⟨e, ran, rows⟩ := ran
  exact ⟨e, ran, rows, (@stored_keys_agree .numbers numbersTable ⟨ascii "id", true, false⟩ .default
    rfl rfl (by decide) commands e (by decide +kernel) ran).1⟩

/-- An UPDATE of the primary key leaves the row under its old key: two rows with the same
primary key, and a key that no row has is taken. -/
theorem updated_key_is_stale : let commands : List Command := [
      .insert (ascii "t") []
        [[numberLiteral "1", numberLiteral "5"], [numberLiteral "2", numberLiteral "5"]],
      .plan (.update (ascii "t") [(ascii "id", .literal (.integer 2))]
        (some (.eq (ascii "id") (.integer 1))))]
    ∃ e ∈ Run.run (statement .numbers) (Engine.fresh .plain .default) commands,
      (latest e .byId).tableRows (ascii "t") =
        [(ascii "t:1", ascii "id=2|c=5"), (ascii "t:2", ascii "id=2|c=5")] ∧
      (∃ d ∈ exec (autocommitTarget .numbers) e
          (.insert (ascii "t") [] [[numberLiteral "1", numberLiteral "7"]]),
        d.failure = some (.uniqueViolation (ascii "t") (ascii "id") (ascii "1"))) := by
  decide +kernel

end Agree

end GalaxDb.Sql
