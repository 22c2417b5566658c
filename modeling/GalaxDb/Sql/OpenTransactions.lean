import GalaxDb.Sql.Session
import GalaxDb.Sql.Readers

/-!
# Transactions under flushes and compactions

The snapshot of a transaction is a number in its handle. The compaction keeps the versions
that version tags pin and knows nothing of open transactions, and a flush keeps the newest
version of a key only. Where neither drops a version that the snapshot reads, a transaction
reads the rows of its beginning to its end.
-/

namespace GalaxDb.Sql

open Bytes Row Engine Engine.Op

variable {e : Engine} {log : List (Bytes × Option Bytes)}

/-- Of the rows of a key those of the memtable are newest. -/
theorem newest_allRows_iff (h : e.Historic log) (k v : Bytes) :
    (∃ ts, Newest e.allRows k ⟨k, ts, some v⟩) ↔ WriteLog.contents log k = some v := by
  have contains := h.holds.contains
  rw [← contains.current_iff, Engine.Current]
  cases found : e.memtableMgr.active.map[k]? with
  | some versioned =>
    have head : Newest e.allRows k ⟨k, versioned.timestamp, versioned.value⟩ := by
      refine ⟨List.mem_append_right _
        (Memtable.mem_rows.mpr ⟨versioned, found, List.mem_cons_self⟩),
        rfl, ?_⟩
      intro x hx key
      rcases List.mem_append.mp hx with stored | buffered
      · exact ((h.newer k versioned found _ List.mem_cons_self).2 x stored key).le
      · obtain ⟨versioned', found', inside⟩ := Memtable.mem_rows.mp buffered
        rw [key, found] at found'
        obtain rfl := Option.some.inj found'
        rcases List.mem_cons.mp inside with same | older
        · rw [Version.mk.injEq] at same
          exact same.1.le
        · exact ((List.pairwise_cons.mp (h.chained (k, versioned)
            (Memtable.mem_iterAll.mpr found))).1 _ older).le
    constructor
    · rintro ⟨ts, newest⟩
      have same := newest_unique h.distinct newest head
      rw [Row.mk.injEq] at same
      exact same.2.2.symm
    · intro value
      refine ⟨versioned.timestamp, ?_⟩
      rw [← value]
      exact head
  | none =>
    refine exists_congr fun ts => ?_
    have stored : ∀ x ∈ e.allRows, x.key = k → x ∈ e.storedRows := by
      intro x hx key
      rcases List.mem_append.mp hx with stored | buffered
      · exact stored
      · obtain ⟨versioned, found', -⟩ := Memtable.mem_rows.mp buffered
        rw [key, found] at found'
        cases found'
    constructor
    · rintro ⟨there, key, latest⟩
      exact ⟨stored _ there key, key, fun x hx => latest x (List.mem_append_left _ hx)⟩
    · rintro ⟨there, key, latest⟩
      exact ⟨List.mem_append_left _ there, key, fun x hx same => latest x (stored x hx same) same⟩

theorem visible_latest (h : e.Historic log) (x : Row Bytes Bytes) :
    x ∈ visible e.latestCommitTs e.allRows ↔ x ∈ e.allRows := by
  rw [mem_visible, and_iff_left_iff_imp]
  intro hx
  apply Nat.le_sub_one_of_lt
  rcases List.mem_append.mp hx with stored | buffered
  · exact h.holds.contains.stored_lt x stored
  · obtain ⟨versioned, found, inside⟩ := Memtable.mem_rows.mp buffered
    exact (h.newer x.key versioned found _ inside).1

/-- A snapshot that reads the rows of the present lists the present contents. -/
theorem scans_of_frozen {e0 : Engine} {log0 : List (Bytes × Option Bytes)}
    (start : e0.Historic log0)
    (frozen : Engine.Frozen e0.latestCommitTs (Newest (visible e0.latestCommitTs e0.allRows)) e log)
    (order : IterOrder) : Scans e order e0.latestCommitTs (WriteLog.contents log0) := by
  intro k v
  rw [← newest_allRows_iff start k v]
  refine exists_congr fun ts => ?_
  rw [frozen.historic.mem_scanAllAt, ← frozen.reads]
  exact newest_congr (visible_latest start)

/-- A transaction that begins after a run of the engine, and whose snapshot no later flush
or compaction of other sessions cuts into, sees what was committed when it began under its
own writes; so every statement returns what it would have returned then. -/
theorem open_transaction_keeps_snapshot (env : Platform) (config : EngineConfig) (ops :
    List Engine.Op)
    (values : ∀ op ∈ ops, op.NonemptyValues)
    (apart : Run.Along (step env) Engine.NoClash (fresh env config) ops)
    (puts : Run.Along (step env) (Engine.AtFlush Engine.LivePuts) (fresh env config) ops) :
    ∃ e, Run.run (step env) (fresh env config) ops = some e ∧
      ∀ later, (∀ op ∈ later, op.NonemptyValues) → Run.Along (step env) Engine.NoClash e later →
        Run.Along (step env) (Engine.AtFlush Engine.LivePuts) e later →
        Run.Along (step env) (Engine.KeepsSnapshot env e.latestCommitTs) e later →
        ∃ e', Run.run (step env) e later = some e' ∧
          ∀ (before after : IterOrder) (txn : TxnHandle), txn.readTs = e.latestCommitTs →
            Shows (Reader.snapshot e' after txn)
              (buffered (WriteLog.contents (ops.flatMap writes)) txn.writes) ∧
            ∀ (catalog : List TableEntry) (r : Request),
              requestEffect (.inTxn catalog e' after txn) r =
                requestEffect (.inTxn catalog e before txn) r := by
  obtain ⟨e, eq, historic, started⟩ := (preserved_started env).run
    ⟨historic_fresh env config, one_pos⟩ (along_stepOk values apart puts)
  refine ⟨e, eq, ?_⟩
  intro later values apart puts keeps
  have now : Engine.Frozen e.latestCommitTs (Newest (visible e.latestCommitTs e.allRows)) e
      (ops.flatMap writes) :=
    ⟨historic, Nat.sub_lt started one_pos, fun _ _ => Iff.rfl⟩
  obtain ⟨e', eq', frozen⟩ := (preserved_frozen env e.latestCommitTs _).run_from now
    (along_stepOk values apart (puts.and keeps))
  refine ⟨e', eq', ?_⟩
  intro before after txn readTs
  have shows' : Shows (Reader.snapshot e' after txn)
      (buffered (WriteLog.contents (ops.flatMap writes)) txn.writes) := by
    apply Scans.shows
    rw [readTs]
    exact scans_of_frozen historic frozen after
  have shows : Shows (Reader.snapshot e before txn)
      (buffered (WriteLog.contents (ops.flatMap writes)) txn.writes) := by
    apply Scans.shows
    rw [readTs]
    exact scans_of_frozen historic now before
  refine ⟨shows', ?_⟩
  intro catalog r
  simp only [ExecutorContext.inTxn, shows'.unique shows]

/-- A row is flushed, and a transaction begins. -/
def flushedRow : List Engine.Op := [.put (ascii "t:1") (ascii "id=1|c=5"), .flush .byId]

/-- The row is updated and flushed, and all files are compacted. -/
def updateAndCompact : List Engine.Op :=
  [.put (ascii "t:1") (ascii "id=1|c=6"), .flush .byId, .forceCompact .byId]

/-- A tag at the snapshot keeps the row of the transaction. -/
theorem open_transaction_under_tag :
    ∃ e, Run.run (step .plain) (fresh .plain .default) flushedRow = some e ∧
      ∃ e', Run.run (step .plain) e (.configure [1] false [] :: updateAndCompact) = some e' ∧
        Shows (Reader.snapshot e' .byId (.new 1 1 false))
          (buffered (WriteLog.contents (flushedRow.flatMap writes)) ∅) := by
  have values : ∀ op ∈ flushedRow, op.NonemptyValues := by
    simp [flushedRow, Engine.Op.NonemptyValues, writes, ascii]
  have values' : ∀ op ∈ .configure [1] false [] :: updateAndCompact, op.NonemptyValues := by
    simp [updateAndCompact, Engine.Op.NonemptyValues, writes, ascii]
  have apart : Run.Along (step .plain) Engine.NoClash (fresh .plain .default)
      flushedRow := along_noClash (written_fresh _ _) values (by decide)
  obtain ⟨e, eq, kept⟩ := open_transaction_keeps_snapshot .plain .default flushedRow values apart
    (by decide +kernel)
  obtain ⟨e2, eq2, written⟩ := (preserved_written .plain).run (written_fresh .plain .default)
    (along_stepOk values apart ((Run.along_of_forall _ values).mono fun _ _ _ => trivial))
  obtain rfl : e = e2 := Option.some.inj (eq.symm.trans eq2)
  have facts : (Run.run (step .plain) (fresh .plain .default) flushedRow).all (fun e =>
      decide (e.latestCommitTs = 1 ∧ Run.Along (step .plain) (Engine.AtFlush Engine.LivePuts) e
          (.configure [1] false [] :: updateAndCompact) ∧
        Run.Along (step .plain) (Engine.KeepsSnapshot .plain e.latestCommitTs) e
          (.configure [1] false [] :: updateAndCompact))) = true := by decide +kernel
  rw [eq, Option.all_some, decide_eq_true_eq] at facts
  obtain ⟨latest, puts, keeps⟩ := facts
  obtain ⟨e', eq', reads⟩ := kept _ values' (along_noClash written values' (by decide)) puts keeps
  exact ⟨e, eq, e', eq', (reads .byId .byId (.new 1 1 false) latest.symm).1⟩

/-- Without a tag the compaction collects the row that the transaction has read, and so
does a flush after two updates. -/
theorem open_transaction_loses_row :
    let rows := fun (e : Engine) => (Reader.snapshot e .byId (.new 1 1 false)).tableRows (ascii "t")
    let after := fun (later : List Engine.Op) =>
      (Run.run (step .plain) (fresh .plain .default) (flushedRow ++ later)).map rows
    (Run.run (step .plain) (fresh .plain .default) flushedRow).map latestCommitTs = some 1 ∧
      after [] = some [(ascii "t:1", ascii "id=1|c=5")] ∧ after updateAndCompact = some [] ∧
      (Run.run (step .plain) (fresh .plain .default)
        [.put (ascii "t:1") (ascii "id=1|c=5"), .put (ascii "t:1") (ascii "id=1|c=6"),
          .flush .byId]).map rows = some [] := by
  refine ⟨?_, ?_, ?_, ?_⟩ <;> decide +kernel

end GalaxDb.Sql
