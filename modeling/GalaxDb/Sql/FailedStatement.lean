import GalaxDb.Sql.Exec
import GalaxDb.Sql.Plans
import Mathlib.Data.List.TakeWhile

/-!
# Statements that fail on their way

A statement that fails at some row keeps the writes of the rows before it. It changes
nothing exactly if each of those rows was stored already as the statement writes it.
-/

namespace GalaxDb.Sql

open Bytes Executor WriteLog Reader

section Reached

variable {σ ν : Type}

/-- The rows of an INSERT before the first that cannot be inserted as things stand. -/
def reachedRows (ctx : ExecutorContext) (free : Bytes → Bool) (table : Bytes)
    (columns : List Bytes) : List (List Expr) → List (Bytes × Option Bytes)
  | [] => []
  | row :: rest =>
    match (rowValues row).bind (planInsert ctx table columns) with
    | .error _ => []
    | .ok effect =>
      if effect.writes.all fun w => free w.1 then
        effect.writes ++ reachedRows ctx free table columns rest
      else []

/-- The rows that a statement reaches before it fails, as it would write them. -/
def Command.reached (T : Target σ) (V : View σ ν) (s : σ) : Command → List (Bytes × Option Bytes)
  | .insert table columns rows => reachedRows (T.context s) (V.free s) table columns rows
  | .plan p =>
    match T.refuses p, planEffect (T.context s) p with
    | none, .ok effect => effect.writes.takeWhile fun w => V.free s w.1
    | _, _ => []

/-- Each of the writes finds its row as it leaves it. -/
def View.Stored (V : View σ ν) (s : σ) (writes : List (Bytes × Option Bytes)) : Prop :=
  ∀ k v, lastWrite (V.shown writes) k = some v → V.look s k = v

end Reached

section Inserts

variable {σ ν : Type} {T : Target σ} {V : View σ ν} {table : Bytes} {columns : List Bytes}

variable {rows : List (List Expr)} {ctx : ExecutorContext} {d : Done σ Nat} {s : σ}

variable {entry : TableEntry} {e : SqlError}

/-- Whether a row can be inserted does not depend on the rows of a table without a key. -/
theorem planInsert_congr {ctx' : ExecutorContext} (catalog : ctx.catalog = ctx'.catalog)
    (found : getTable ctx.catalog table = .ok entry)
    (keyless : entry.columns.find? CatalogColumn.primaryKey = none) (values : List Value) :
    planInsert ctx table columns values = planInsert ctx' table columns values := by
  simp only [planInsert, ← catalog, found, bind, Except.bind, keyless]

theorem planInsert_missing (missing : getTable ctx.catalog table = .error e) (values : List Value) :
    planInsert ctx table columns values = .error e := by
  simp only [planInsert, missing, bind, Except.bind]

/-- What an INSERT does with its first row. -/
theorem insertRows_cons (tracks : Tracks T V)
    (admits : ∀ values, T.refuses (.insert table columns values) = none) {row : List Expr}
    {rest : List (List Expr)} (h : insertRows T table columns s (row :: rest) = some d) :
    ((∃ e, (rowValues row).bind (planInsert (T.context s) table columns) = .error e) ∧ d.log = []) ∨
      ∃ effect, (rowValues row).bind (planInsert (T.context s) table columns) = .ok effect ∧
        (∃ key bytes, bytes ≠ [] ∧ effect = ⟨[], [(key, some bytes)], [], none⟩) ∧
        (((effect.writes.all fun w => V.free s w.1) = false ∧ d.log = []) ∨
          (effect.writes.all fun w => V.free s w.1) = true ∧ ∃ s' later,
            V.free s' = V.free s ∧ (T.context s').catalog = (T.context s).catalog ∧
            insertRows T table columns s' rest = some later ∧
              d.log = effect.writes ++ later.log) := by
  simp only [insertRows] at h
  cases evaluated : rowValues row with
  | error e =>
    simp only [evaluated] at h
    cases h
    exact .inl ⟨⟨e, rfl⟩, rfl⟩
  | ok values =>
    simp only [evaluated] at h
    cases one : execPlan T s (.insert table columns values) with
    | none => simp [one] at h
    | some first =>
      obtain ⟨s', log, result⟩ := first
      obtain ⟨follows, ⟨nothing, e, failed, why⟩ | ⟨effect, -, planned, eq, complete⟩⟩ :=
        execPlan_cases tracks one
      · have failure : planEffect (T.context s) (.insert table columns values) = .error e := by
          rcases why with refused | ⟨-, failed⟩
          · rw [admits values] at refused
            cases refused
          · exact failed
        subst nothing failed
        simp only [one] at h
        cases h
        exact .inl ⟨⟨e, failure⟩, rfl⟩
      · obtain ⟨_, ordered, key, -, -, built, single⟩ := planInsert_ok planned
        refine .inr ⟨effect, planned, ⟨key, _, encodeRow_ne_nil (ordered_ne_nil built), single⟩, ?_⟩
        simp only at eq complete
        cases able : V.free s key with
        | false =>
          have nothing : log = [] := by simp [eq, single, able]
          have failed : ∀ r, result ≠ .ok r := by
            rintro r rfl
            have := (complete.mp ⟨r, rfl⟩).1
            simp [nothing, single] at this
          left
          cases result with
          | ok r => exact absurd rfl (failed r)
          | error e =>
            simp only [one] at h
            cases h
            exact ⟨by simp [single, able], nothing⟩
        | true =>
          have all : log = effect.writes := by simp [eq, single, able]
          obtain ⟨r, rfl⟩ := complete.mpr ⟨all, by simp [single]⟩
          simp only [one] at h
          obtain ⟨later, eq', rfl⟩ := Option.map_eq_some_iff.mp h
          exact .inr ⟨by simp [single, able], s', later, follows.free, follows.catalog, eq', by
            rw [all]⟩

theorem insertRows_puts (tracks : Tracks T V)
    (admits : ∀ values, T.refuses (.insert table columns values) = none)
    (h : insertRows T table columns s rows = some d) :
    ∀ w ∈ d.log, ∃ bytes, bytes ≠ [] ∧ w.2 = some bytes := by
  induction rows generalizing s d with
  | nil =>
    cases h
    simp
  | cons row rest ih =>
    rcases insertRows_cons tracks admits h with ⟨-, nothing⟩ |
      ⟨effect, -, ⟨key, bytes, nonempty, rfl⟩, ⟨-, nothing⟩ | ⟨-, s', later, -, -, eq, log⟩⟩
    · simp [nothing]
    · simp [nothing]
    · rw [log]
      intro w hw
      rcases List.mem_append.mp hw with hw | hw
      · rw [List.mem_singleton.mp hw]
        exact ⟨bytes, nonempty, rfl⟩
      · exact ih eq w hw

theorem reachedRows_puts {ctx : ExecutorContext} {free : Bytes → Bool} (rows : List (List Expr)) :
    ∀ w ∈ reachedRows ctx free table columns rows, ∃ bytes, w.2 = some bytes := by
  induction rows with
  | nil => simp [reachedRows]
  | cons row rest ih =>
    simp only [reachedRows]
    split
    · simp
    · rename_i effect planned
      split
      · intro w hw
        rcases List.mem_append.mp hw with hw | hw
        · cases evaluated : rowValues row with
          | error e => simp [evaluated, Except.bind] at planned
          | ok values =>
            rw [evaluated] at planned
            obtain ⟨-, ordered, key, -, -, -, rfl⟩ := planInsert_ok planned
            rw [List.mem_singleton.mp hw]
            exact ⟨_, rfl⟩
        · exact ih w hw
      · simp

/-- A table that is missing takes no row. -/
theorem insertRows_missing (tracks : Tracks T V)
    (admits : ∀ values, T.refuses (.insert table columns values) = none)
    (h : insertRows T table columns s rows = some d)
    (missing : getTable (T.context s).catalog table = .error e) :
    d.log = reachedRows (T.context s) (V.free s) table columns rows := by
  cases rows with
  | nil =>
    cases h
    rfl
  | cons row rest =>
    rcases insertRows_cons tracks admits h with ⟨⟨e, failed⟩, nothing⟩ | ⟨effect, planned, -⟩
    · rw [nothing, reachedRows, failed]
    · cases evaluated : rowValues row with
      | error e => simp [evaluated, Except.bind] at planned
      | ok values => simp [evaluated, Except.bind, planInsert_missing missing] at planned

/-- Without a primary key each row is inserted or not on its own. -/
theorem insertRows_keyless (tracks : Tracks T V)
    (admits : ∀ values, T.refuses (.insert table columns values) = none)
    (keyless : entry.columns.find? CatalogColumn.primaryKey = none) {free : Bytes → Bool}
    (h : insertRows T table columns s rows = some d) (catalog : (T.context s).catalog = ctx.catalog)
    (same : V.free s = free) (found : getTable ctx.catalog table = .ok entry) :
    d.log = reachedRows ctx free table columns rows := by
  induction rows generalizing s d with
  | nil =>
    cases h
    rfl
  | cons row rest ih =>
    have plan : (rowValues row).bind (planInsert (T.context s) table columns) =
        (rowValues row).bind (planInsert ctx table columns) := by
      cases rowValues row with
      | error e => rfl
      | ok values => exact planInsert_congr catalog (catalog ▸ found) keyless values
    rcases insertRows_cons tracks admits h with ⟨⟨e, failed⟩, nothing⟩ |
      ⟨effect, planned, -, ⟨busy, nothing⟩ | ⟨able, s', later, still, kept, eq, log⟩⟩
    · rw [nothing, reachedRows, ← plan, failed]
    · rw [nothing, reachedRows, ← plan, planned]
      rw [same] at busy
      simp [busy]
    · rw [log, ih eq (kept.trans catalog) (still.trans same), reachedRows, ← plan, planned]
      rw [same] at able
      simp [able]

end Inserts

section Stored

variable {σ ν : Type} {T : Target σ} {V : View σ ν} {table : Bytes} {columns : List Bytes}

variable {d : Done σ (List Columns × Nat)} {s : σ}

/-- Rows are put at a key where there was none. -/
theorem not_stored_of_fresh {key : Bytes} {writes : List (Bytes × Option Bytes)}
    (puts : ∀ w ∈ writes, ∃ bytes, w.2 = some bytes) (written : key ∈ writes.map Prod.fst)
    (fresh : ∀ bytes, V.look s key ≠ V.enc (some bytes)) : ¬ V.Stored s writes := by
  intro stored
  have there : key ∈ (V.shown writes).map Prod.fst := by simpa [View.shown] using written
  obtain ⟨v, last⟩ := Option.ne_none_iff_exists'.mp (lastWrite_ne_none_iff.mpr there)
  obtain ⟨w, hw, eq⟩ := List.mem_map.mp (mem_of_lastWrite last)
  obtain ⟨bytes, put⟩ := puts w hw
  apply fresh bytes
  rw [stored key v last, ← put]
  exact (congrArg Prod.snd eq).symm

/-- The rows that an INSERT has written are stored already exactly if those are that it
reaches. -/
theorem insertRows_stored_iff (tracks : Tracks T V)
    (admits : ∀ values, T.refuses (.insert table columns values) = none)
    (fresh : ∀ s key bytes, (T.context s).reader.get key = none → V.look s key ≠ V.enc (some bytes))
    {rows : List (List Expr)} {d : Done σ Nat} (h : insertRows T table columns s rows = some d) :
    V.Stored s d.log ↔ V.Stored s (reachedRows (T.context s) (V.free s) table columns rows) := by
  cases found : getTable (T.context s).catalog table with
  | error e => rw [insertRows_missing tracks admits h found]
  | ok entry =>
  by_cases keyless : entry.columns.find? CatalogColumn.primaryKey = none
  · rw [insertRows_keyless tracks admits keyless h rfl rfl found]
  cases rows with
  | nil =>
    cases h
    rfl
  | cons row rest =>
    have puts : ∀ w ∈ d.log, ∃ bytes, w.2 = some bytes := fun w hw =>
      (insertRows_puts tracks admits h w hw).imp fun _ both => both.2
    rcases insertRows_cons tracks admits h with ⟨⟨e, failed⟩, nothing⟩ |
      ⟨effect, planned, -, ⟨busy, nothing⟩ | ⟨able, s', later, -, -, -, log⟩⟩
    · rw [nothing, reachedRows, failed]
    · rw [nothing, reachedRows, planned]
      simp [busy]
    · have new : ∃ key bytes, effect = ⟨[], [(key, some bytes)], [], none⟩ ∧
          (T.context s).reader.get key = none := by
        cases evaluated : rowValues row with
        | error e => simp [evaluated, Except.bind] at planned
        | ok values =>
          rw [evaluated] at planned
          exact planInsert_fresh found keyless planned
      obtain ⟨key, bytes, rfl, absent⟩ := new
      have reached := @reachedRows_puts table columns (T.context s) (V.free s) (row :: rest)
      constructor
      · intro stored
        exact absurd stored
          (not_stored_of_fresh puts (by simp [log]) (fun b => fresh s key b absent))
      · intro stored
        apply absurd stored (not_stored_of_fresh reached _ (fun b => fresh s key b absent))
        simp [reachedRows, planned, able]

/-- An UPDATE assigns something. -/
def Command.Ok : Command → Prop
  | .insert _ _ _ => True
  | .plan p => PlanOk p

variable {c : Command}

theorem exec_values (tracks : Tracks T V)
    (admits : ∀ table columns values, T.refuses (.insert table columns values) = none) (fine : c.Ok)
    (h : exec T s c = some d) : ∀ w ∈ d.log, w.2 ≠ some [] := by
  cases c with
  | insert table columns rows =>
    simp only [exec] at h
    split at h
    · cases h
      simp
    · obtain ⟨later, eq, rfl⟩ := Option.map_eq_some_iff.mp h
      intro w hw
      obtain ⟨bytes, nonempty, put⟩ := insertRows_puts tracks (admits table columns) eq w hw
      simpa [put] using nonempty
  | plan p =>
    obtain ⟨-, ⟨nothing, -⟩ | ⟨effect, -, planned, log, -⟩⟩ := execPlan_cases tracks h
    · simp [nothing]
    · intro w hw
      rw [log] at hw
      exact planEffect_values fine planned w (List.takeWhile_subset _ hw)

theorem exec_stored_iff (tracks : Tracks T V)
    (admits : ∀ table columns values, T.refuses (.insert table columns values) = none)
    (opens : ∀ s table e, T.opening table = .error e →
      getTable (T.context s).catalog table = .error e)
    (fresh : ∀ s key bytes, (T.context s).reader.get key = none → V.look s key ≠ V.enc (some bytes))
    (h : exec T s c = some d) : V.Stored s d.log ↔ V.Stored s (c.reached T V s) := by
  cases c with
  | insert table columns rows =>
    simp only [exec] at h
    split at h
    · rename_i e missing
      cases h
      have nothing : reachedRows (T.context s) (V.free s) table columns rows = [] := by
        cases rows with
        | nil => rfl
        | cons row rest =>
          rw [reachedRows]
          cases rowValues row with
          | error e => rfl
          | ok values => simp [Except.bind, planInsert_missing (opens s table e missing)]
      rw [Command.reached, nothing]
    · obtain ⟨later, eq, rfl⟩ := Option.map_eq_some_iff.mp h
      exact insertRows_stored_iff tracks (admits table columns) fresh eq
  | plan p =>
    obtain ⟨-,
      ⟨nothing, e, -, refused | ⟨admitted, failed⟩⟩ | ⟨effect, admitted, planned, log, -⟩⟩ :=
      execPlan_cases tracks h
    · simp [nothing, Command.reached, refused]
    · simp [nothing, Command.reached, failed]
    · simp [log, Command.reached, admitted, planned]

/-- A bulk insert that fails has written nothing. -/
theorem bulkInsert_all_or_nothing (tracks : Tracks T V) (unlocked : ∀ k, V.free s k = true)
    {rows : List (List Bytes)} {err : SqlError}
    (h : exec T s (.plan (.bulkInsert table columns rows)) = some d)
    (failed : d.result = .error err) : d.log = [] := by
  obtain ⟨-, ⟨nothing, -⟩ | ⟨effect, -, planned, log, complete⟩⟩ := execPlan_cases tracks h
  · exact nothing
  · obtain ⟨entry, pairs, -, -, rfl⟩ := planBulkInsert_ok planned
    have all : d.log = pairs.map fun p => (p.1, some p.2) := by
      rw [log, List.takeWhile_eq_self_iff]
      exact fun w _ => unlocked w.1
    obtain ⟨r, ok⟩ := complete.mpr ⟨all, rfl⟩
    rw [ok] at failed
    cases failed

end Stored

section Failed

variable (cfg : Settings)

theorem latest_eq_iff {e e' : Engine} {rows rows' : List (Row Bytes Bytes)} (h : e.Recorded rows)
    (h' : e'.Recorded rows') (order : IterOrder) :
    latest e' order = latest e order ↔ e'.get = e.get := by
  constructor
  · exact congrArg get
  · intro same
    have contents : contents (ofRows rows') = contents (ofRows rows) := by
      rw [← funext h.get_eq, ← funext h'.get_eq, same]
    exact (contents ▸ shows_latest h' order).unique (shows_latest h order)

/-- A failed statement leaves the tables as they were exactly if every row that it reaches
before the failure was stored already as the statement writes it, and the buffer of a
transaction exactly if those rows were buffered already. A failed BULK INSERT changes
nothing. -/
theorem failed_statement_changes_nothing_iff (c : Command) (fine : c.Ok) (err : SqlError) :
    (∀ (e : Engine) (rows : List (Row Bytes Bytes)) (d : Done Engine (List Columns × Nat)),
      e.Recorded rows → exec (autocommitTarget cfg) e c = some d → d.result = .error err →
      (∀ w ∈ d.log, (0 : UInt8) ∉ w.1) →
      (latest d.state cfg.order = latest e cfg.order ↔
        autocommitView.Stored e (c.reached (autocommitTarget cfg) autocommitView e)) ∧
      ((∃ table columns tokens, c = .plan (.bulkInsert table columns tokens)) →
        latest d.state cfg.order = latest e cfg.order)) ∧
    ∀ (e : Engine) (m : TransactionManager) (t : TxnHandle)
      (d : Done (TransactionManager × TxnHandle) (List Columns × Nat)),
      exec (txnTarget cfg e) (m, t) c = some d → d.result = .error err →
      (d.state.2.writes = t.writes ↔
        txnView.Stored (m, t) (c.reached (txnTarget cfg e) txnView (m, t))) ∧
      ((∃ table columns tokens, c = .plan (.bulkInsert table columns tokens)) →
        d.state.2.writes = t.writes) := by
  constructor
  · intro e rows d recorded h failed clean
    have tracks := autocommit_tracks cfg
    obtain ⟨⟨rows', recorded'⟩, look⟩ := (exec_follows tracks h).shows ⟨rows, recorded⟩ fun w hw =>
      ⟨clean w hw, exec_values tracks (fun _ _ _ => rfl) fine h w hw⟩
    have opens : ∀ (e : Engine) table err, (autocommitTarget cfg).opening table = .error err →
        getTable ((autocommitTarget cfg).context e).catalog table = .error err := by
      intro e table err missing
      simp only [autocommitTarget] at missing ⊢
      cases found : getTable cfg.catalog table with
      | error err' => simpa [found, Except.map] using missing
      | ok entry => simp [found, Except.map] at missing
    have stored := exec_stored_iff tracks (fun _ _ _ => rfl) opens (by
      intro e key bytes absent
      simp [autocommitView, autocommitTarget, latest] at absent ⊢
      simp [absent]) h
    rw [latest_eq_iff recorded recorded', ← stored]
    have unchanged : d.state.get = e.get ↔ autocommitView.Stored e d.log := by
      have := foldl_write_eq_self_iff (autocommitView.look e) (autocommitView.shown d.log)
      rw [← look] at this
      exact this
    refine ⟨unchanged, ?_⟩
    rintro ⟨table, columns, tokens, rfl⟩
    rw [unchanged, bulkInsert_all_or_nothing tracks (fun _ => rfl) h failed]
    simp [View.Stored, View.shown, lastWrite]
  · intro e m t d h failed
    have tracks := txn_tracks cfg e
    have admits : ∀ table columns values,
        (txnTarget cfg e).refuses (.insert table columns values) = none := fun _ _ _ => rfl
    obtain ⟨-, look⟩ := (exec_follows tracks h).shows trivial fun _ _ => trivial
    have stored := exec_stored_iff tracks admits (by simp [txnTarget]) (by
      rintro ⟨m, t⟩ key bytes absent buffered
      simp only [txnView] at buffered
      simp [txnTarget, ExecutorContext.inTxn, snapshot, buffered] at absent) h
    have unchanged : d.state.2.writes = t.writes ↔ txnView.Stored (m, t) d.log := by
      have := foldl_write_eq_self_iff (txnView.look (m, t)) (txnView.shown d.log)
      rw [← look] at this
      rw [View.Stored, ← this]
      constructor
      · intro same
        simp only [txnView, same]
      · intro same
        exact Std.ExtTreeMap.ext_getElem? fun {k} => congrFun same k
    rw [unchanged, ← stored]
    refine ⟨Iff.rfl, ?_⟩
    rintro ⟨table, columns, tokens, rfl⟩
    have nothing : d.log = [] := by
      simp only [exec, execPlan, txnTarget, Option.some.injEq] at h
      rw [← h]
    rw [nothing]
    simp [View.Stored, View.shown, lastWrite]

def Done.failure {σ β : Type} (d : Done σ β) : Option SqlError :=
  match d.result with
  | .error e => some e
  | .ok _ => none

def numberLiteral (text : String) : Expr := .value (.number (ascii text))

/-- The row that fails is the first. -/
theorem failed_insert_of_first_row_changes_nothing :
    let c := .insert (ascii "t") [] [[numberLiteral "1",
      .binaryOp (numberLiteral "1") .divide (numberLiteral "0")],
        [numberLiteral "2", numberLiteral "5"]]
    ∃ d, exec (autocommitTarget .numbers) (Engine.fresh .plain .default) c = some d ∧
      d.result = .error Scalar.divZero ∧
      latest d.state .byId = latest (Engine.fresh .plain .default) .byId := by
  intro c
  have fine : c.Ok := trivial
  refine ⟨⟨_, [], .error Scalar.divZero⟩, rfl, rfl, ?_⟩
  apply (((failed_statement_changes_nothing_iff .numbers c fine Scalar.divZero).1 _ []
    ⟨_, [], .error Scalar.divZero⟩ (Engine.recorded_fresh .plain .default) rfl rfl (by simp)).1).mpr
  intro k v last
  cases last

/-- The second row of an INSERT fails, the first stays, in the table and in the buffer of a
transaction. So does the row before the one that an UPDATE cannot evaluate. -/
theorem failed_insert_keeps_first_row :
    let duplicate := .insert (ascii "t") [] [[numberLiteral "1", numberLiteral "5"],
      [numberLiteral "1", numberLiteral "6"]]
    let two := .insert (ascii "t") [] [[numberLiteral "1", numberLiteral "5"],
      [numberLiteral "2", numberLiteral "0"]]
    let divide := .plan (.update (ascii "t")
      [(ascii "c", .binary .div (.literal (.integer 10)) (.column (ascii "c")))] none)
    let fresh := Engine.fresh .plain .default
    fresh.get (ascii "t:1") = none ∧
    (∃ d ∈ exec (autocommitTarget .numbers) fresh duplicate,
      d.failure = some (.uniqueViolation (ascii "t") (ascii "id") (ascii "1")) ∧
      d.state.get (ascii "t:1") = some (ascii "id=1|c=5")) ∧
    (∃ d ∈ exec (txnTarget .numbers fresh) (.new, .new 0 1 false) duplicate,
      d.failure = some (.uniqueViolation (ascii "t") (ascii "id") (ascii "1")) ∧
      d.state.2.writes[ascii "t:1"]? = some (some (ascii "id=1|c=5"))) ∧
    ∃ d ∈ exec (autocommitTarget .numbers) fresh two,
      d.state.get (ascii "t:1") = some (ascii "id=1|c=5") ∧
      ∃ d' ∈ exec (autocommitTarget .numbers) d.state divide,
        d'.failure = some Scalar.divZero ∧
          d'.state.get (ascii "t:1") = some (ascii "id=1|c=2") := by
  decide +kernel

end Failed

end GalaxDb.Sql
