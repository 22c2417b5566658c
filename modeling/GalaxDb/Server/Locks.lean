import GalaxDb.Server.Connection
import GalaxDb.Sql.Buffering
import GalaxDb.Lib.Run

/-!
# Transactions of many connections

Every connection of the server may hold one transaction. Its locks and its snapshot are in
the shared manager; they are released by COMMIT and ROLLBACK, and by nothing else.
-/

namespace GalaxDb.Server

open Std Bytes Sql Run Connection Option

section Turns

variable {δ σ τ : Type}

/-- The message ends the connection: the client leaves, or the frame does not belong here. -/
def Leaving (c : Connection σ τ) (m : FrontendMessage) : Prop :=
  match c.copying, m with
  | none, .terminate | none, .malformed => True
  | none, .copyData _ | none, .copyDone | none, .copyFail _ => True
  | none, _ => False
  | some _, .copyData _ | some _, .copyDone | some _, .copyFail _ => False
  | some _, .flush | some _, .sync => False
  | some _, _ => True

/-- No worker panics in this state of the database. -/
structure Calm (D : Database δ σ τ) (d : δ) : Prop where
  prepare : ∀ sql, D.prepare d sql ≠ none
  tableColumns : ∀ table, D.tableColumns d table ≠ none
  execute : ∀ sql, (D.execute d sql).2 ≠ none
  executeBound : ∀ template values, (D.executeBound d template values).2 ≠ none
  bulkInsert : ∀ table columns rows, (D.bulkInsert d table columns rows).2 ≠ none

/-- What a turn of the loop can make of the database and of the transaction of the
connection, and whether the loop is left. -/
inductive Turn (D : Database δ σ τ) (d : δ) (c : Connection σ τ) (m : FrontendMessage) :
    δ → Option τ → Bool → Prop
  | idle : Turn D d c m d c.currentTxn false
  | leave (leaving : Leaving c m) : Turn D d c m d c.currentTxn true
  | panic (alarm : ¬ Calm D d) : Turn D d c m d c.currentTxn true
  | execute (sql : Bytes) (left : Bool) (panics : left = true → (D.execute d sql).2 = none) :
      Turn D d c m (D.execute d sql).1 c.currentTxn left
  | executeBound (template : PreparedTemplate σ) (values : List BoundValue) (left : Bool)
      (panics : left = true → (D.executeBound d template values).2 = none) :
      Turn D d c m (D.executeBound d template values).1 c.currentTxn left
  | bulkInsert (table : Bytes) (columns : List Bytes) (rows : List (List Bytes)) (left : Bool)
      (panics : left = true → (D.bulkInsert d table columns rows).2 = none) :
      Turn D d c m (D.bulkInsert d table columns rows).1 c.currentTxn left
  | executeInTxn (t : τ) (here : c.currentTxn = some t) (sql : Bytes) (left : Bool)
      (panics : left = true → (D.executeInTxn d t sql).2 = none) :
      Turn D d c m (D.executeInTxn d t sql).1 c.currentTxn left
  | executeBoundInTxn (t : τ) (here : c.currentTxn = some t) (template : PreparedTemplate σ)
      (values : List BoundValue) (left : Bool)
      (panics : left = true → (D.executeBoundInTxn d t template values).2 = none) :
      Turn D d c m (D.executeBoundInTxn d t template values).1 c.currentTxn left
  | savepoint (t : τ) (here : c.currentTxn = some t) (name : Bytes) :
      Turn D d c m (D.savepoint d t name) c.currentTxn false
  | rollbackTo (t : τ) (here : c.currentTxn = some t) (name : Bytes) (d' : δ)
      (ok : D.rollbackTo d t name = .ok d') : Turn D d c m d' c.currentTxn false
  | release (t : τ) (here : c.currentTxn = some t) (name : Bytes) (d' : δ)
      (ok : D.release d t name = .ok d') : Turn D d c m d' c.currentTxn false
  | begin (here : c.currentTxn = none) (t : τ) (ok : (D.beginTransaction d).2 = some (.ok t)) :
      Turn D d c m (D.beginTransaction d).1 (some t) false
  | beginFailed (here : c.currentTxn = none)
    (failed : ∀ t, (D.beginTransaction d).2 ≠ some (.ok t)) :
      Turn D d c m (D.beginTransaction d).1 c.currentTxn true
  | commit (t : τ) (here : c.currentTxn = some t) (left : Bool) :
      Turn D d c m (D.commitTransaction d t).1 none left
  | rollback (t : τ) (here : c.currentTxn = some t) (left : Bool) :
      Turn D d c m (D.rollbackTransaction d t).1 none left

/-- The outcome of a turn, seen from the transactions. -/
def Outcome.Turns (D : Database δ σ τ) (d : δ) (c : Connection σ τ) (m : FrontendMessage)
    (o : Outcome δ σ τ) : Prop :=
  Turn D d c m o.db o.connection.currentTxn o.connection.closed

variable {D : Database δ σ τ} {ic : Interceptors} {d : δ} {c : Connection σ τ} {m : FrontendMessage}

theorem Outcome.ready_frame (o : Outcome δ σ τ) :
    o.ready.db = o.db ∧ o.ready.connection = o.connection := by
  unfold Outcome.ready
  split <;> simp

variable {o : Outcome δ σ τ}

theorem Outcome.Turns.ready (turns : o.Turns D d c m) : o.ready.Turns D d c m := by
  unfold Outcome.Turns
  rw [o.ready_frame.1, o.ready_frame.2]
  exact turns

/-- The database, the transaction and the end of the loop are all that counts. -/
theorem Turn.turns {d' : δ} {txn : Option τ} {left : Bool} (turn : Turn D d c m d' txn left)
    (db : o.db = d') (current : o.connection.currentTxn = txn)
    (closed : o.connection.closed = left) :
    o.Turns D d c m := by
  unfold Outcome.Turns
  rw [db, current, closed]
  exact turn

theorem turns_answer (running : c.closed = false) (responses : List Response) :
    (Outcome.answer d c responses).Turns D d c m :=
  Turn.idle.turns rfl rfl running

theorem Connection.note_frame (c : Connection σ τ) (result : Except ErrorInfo QueryResult) :
    (c.note result).currentTxn = c.currentTxn ∧ (c.note result).closed = c.closed := by
  cases result <;> exact ⟨rfl, rfl⟩

/-- A control statement is a turn of its connection. -/
theorem handleTxnControl_turns (running : c.closed = false) (ctrl : TxnControl) :
    (handleTxnControl D d c ctrl).Turns D d c m := by
  cases ctrl with
  | begin =>
    simp only [handleTxnControl]
    split
    · exact turns_answer running _
    · next here =>
      split
      · next t ok => exact (Turn.begin here t ok).turns rfl rfl running
      · next failed => exact (Turn.beginFailed here failed).turns rfl rfl rfl
  | commit =>
    simp only [handleTxnControl]
    split
    · exact turns_answer running _
    · next t here =>
      split
      · split
        · exact (Turn.rollback t here true).turns rfl rfl rfl
        · exact (Turn.rollback t here false).turns rfl rfl running
      · split
        · exact (Turn.commit t here true).turns rfl rfl rfl
        · exact (Turn.commit t here false).turns rfl rfl running
        · exact (Turn.commit t here false).turns rfl rfl running
  | rollback =>
    simp only [handleTxnControl]
    split
    · exact turns_answer running _
    · next t here =>
      split
      · exact (Turn.rollback t here true).turns rfl rfl rfl
      · exact (Turn.rollback t here false).turns rfl rfl running
  | savepoint name =>
    simp only [handleTxnControl]
    split
    · exact turns_answer running _
    · next t here => exact (Turn.savepoint t here name).turns rfl rfl running
  | rollbackTo name =>
    simp only [handleTxnControl]
    split
    · exact turns_answer running _
    · next t here =>
      split
      · next d' ok => exact (Turn.rollbackTo t here name d' ok).turns rfl rfl running
      · exact turns_answer running _
  | release name =>
    simp only [handleTxnControl]
    split
    · exact turns_answer running _
    · next t here =>
      split
      · next d' ok => exact (Turn.release t here name d' ok).turns rfl rfl running
      · exact turns_answer running _

theorem runSimpleQueryTxn_turns (running : c.closed = false) (sql : Bytes) :
    (runSimpleQueryTxn D ic d c sql).Turns D d c m := by
  simp only [runSimpleQueryTxn]
  split
  · exact handleTxnControl_turns running _
  · split
    · exact turns_answer running _
    · split
      · exact turns_answer running _
      · split
        · next t here =>
          split
          · next panics =>
            exact (Turn.executeInTxn t here sql true fun _ => panics).turns rfl rfl rfl
          · next result _ =>
            exact (Turn.executeInTxn t here sql false nofun).turns rfl (c.note_frame result).1
              ((c.note_frame result).2.trans running)
        · split
          · next panics => exact (Turn.execute sql true fun _ => panics).turns rfl rfl rfl
          · exact (Turn.execute sql false nofun).turns rfl rfl running

theorem runCopyOut_turns (running : c.closed = false) (cmd : CopyCommand) (numCols : Nat)
    (sql : Bytes) : (runCopyOut c cmd numCols (D.execute d sql)).Turns D d c m := by
  unfold runCopyOut
  split
  · next panics => exact (Turn.execute sql true fun _ => panics).turns rfl rfl rfl
  all_goals exact (Turn.execute sql false nofun).turns rfl rfl running

theorem runCopy_turns (running : c.closed = false) (cmd : CopyCommand) (simple : Bool) :
    (runCopy D d c cmd simple).Turns D d c m := by
  unfold runCopy
  split
  · next panics =>
    have alarm : ¬ Calm D d := fun calm => calm.tableColumns _ panics
    exact (Turn.panic alarm).turns rfl rfl rfl
  · exact Turn.idle.turns rfl rfl running
  · split
    · exact Turn.idle.turns rfl rfl running
    · exact runCopyOut_turns running cmd _ _

theorem serveQuery_turns (running : c.closed = false) (sql : Bytes) :
    (serveQuery D ic d c sql).Turns D d c m := by
  unfold serveQuery
  split
  · next cmd _ =>
    split
    · exact (turns_answer running _).ready
    · simp only
      split
      · exact runCopy_turns running cmd true
      · exact (runCopy_turns running cmd true).ready
  · exact (runSimpleQueryTxn_turns running sql).ready

theorem serveExecute_turns (running : c.closed = false) (portal : Bytes) :
    (serveExecute D d c portal).Turns D d c m := by
  unfold serveExecute
  split
  · exact turns_answer running _
  · next p _ =>
    split
    · exact turns_answer running _
    · exact runCopy_turns running _ _
    · next template _ _ =>
      split
      · exact turns_answer running _
      · split
        · next t here =>
          unfold runBound
          split
          · next panics =>
            exact (Turn.executeBoundInTxn t here template p.values true fun _ => panics).turns
              rfl rfl rfl
          · next result _ =>
            exact (Turn.executeBoundInTxn t here template p.values false nofun).turns rfl
              (c.note_frame result).1 ((c.note_frame result).2.trans running)
        · unfold runBound
          split
          · next panics =>
            exact (Turn.executeBound template p.values true fun _ => panics).turns rfl rfl rfl
          · exact (Turn.executeBound template p.values false nofun).turns rfl rfl running

theorem serveMessage_turns (running : c.closed = false) (outside : c.copying = none) :
    (serveMessage D ic d c m).Turns D d c m := by
  have leave (leaving : Leaving c m) : (Outcome.answer d c.close []).Turns D d c m :=
    (Turn.leave leaving).turns rfl rfl rfl
  cases m with
  | query sql => exact serveQuery_turns running sql
  | parse statement query paramTypes =>
    simp only [serveMessage, serveParse]
    split
    · exact Turn.idle.turns rfl rfl running
    · split
      · next panics =>
        have alarm : ¬ Calm D d := fun calm => calm.prepare _ panics
        exact (Turn.panic alarm).turns rfl rfl rfl
      · exact Turn.idle.turns rfl rfl running
      · exact turns_answer running _
  | bind portal statement paramFormats params resultFormats =>
    simp only [serveMessage, serveBind]
    split
    · exact Turn.idle.turns rfl rfl running
    · exact turns_answer running _
  | execute portal maxRows => exact serveExecute_turns running portal
  | close kind name =>
    simp only [serveMessage, serveClose]
    split <;> exact Turn.idle.turns rfl rfl running
  | describe kind name => exact turns_answer running _
  | sync => exact turns_answer running _
  | flush => exact turns_answer running _
  | terminate => exact leave (by simp [Leaving, outside])
  | copyData data => exact leave (by simp [Leaving, outside])
  | copyDone => exact leave (by simp [Leaving, outside])
  | copyFail message => exact leave (by simp [Leaving, outside])
  | malformed => exact leave (by simp [Leaving, outside])

theorem serveCopy_turns (running : c.closed = false) {s : CopyState} (inside : c.copying = some s) :
    (serveCopy D d c s m).Turns D d c m := by
  have leave (leaving : Leaving c m) : (Outcome.answer d c.close []).Turns D d c m :=
    (Turn.leave leaving).turns rfl rfl rfl
  cases m with
  | copyData data => exact Turn.idle.turns rfl rfl running
  | copyDone =>
    simp only [serveCopy]
    split
    · next panics => exact (Turn.bulkInsert _ _ _ true fun _ => panics).turns rfl rfl rfl
    · split
      · apply Outcome.Turns.ready
        exact (Turn.bulkInsert _ _ _ false nofun).turns rfl rfl running
      · exact (Turn.bulkInsert _ _ _ false nofun).turns rfl rfl running
  | copyFail message =>
    simp only [serveCopy]
    split
    · apply Outcome.Turns.ready
      exact Turn.idle.turns rfl rfl running
    · exact Turn.idle.turns rfl rfl running
  | flush => exact turns_answer running _
  | sync => exact turns_answer running _
  | query sql => exact leave (by simp [Leaving, inside])
  | parse statement query paramTypes => exact leave (by simp [Leaving, inside])
  | bind portal statement paramFormats params resultFormats =>
    exact leave (by simp [Leaving, inside])
  | execute portal maxRows => exact leave (by simp [Leaving, inside])
  | close kind name => exact leave (by simp [Leaving, inside])
  | describe kind name => exact leave (by simp [Leaving, inside])
  | terminate => exact leave (by simp [Leaving, inside])
  | malformed => exact leave (by simp [Leaving, inside])

/-- Every turn of the loop is one of the kinds above. -/
theorem serve_turns (running : c.closed = false) : (serve D ic d c m).Turns D d c m := by
  unfold serve
  rw [if_neg (by simp [running])]
  split
  · next s inside => exact serveCopy_turns running inside
  · next outside => exact serveMessage_turns running outside

end Turns

section Database

/-- A transaction as its handle shares it: the buffer, and the buffers of its savepoints. -/
structure OpenTxn where
  handle : TxnHandle
  savepoints : List (Bytes × WriteBuffer)

/-- What all connections share. Handles are found by the id of their transaction; one that
nobody holds any more may stay here. -/
structure Shared where
  engine : Engine
  manager : TransactionManager
  handles : ExtTreeMap Timestamp OpenTxn compare

/-- The parts of the database that have nothing to do with transactions: the parser, the
autocommit paths, the analytical engine, the texts of results and errors, and the writes of
a commit, which may fail on the disk. -/
structure Surroundings (σ : Type) where
  prepare : Engine → Bytes → Worker (PreparedTemplate σ)
  execute : Engine → Bytes → Engine × Worker QueryResult
  executeBound : Engine → PreparedTemplate σ → List BoundValue → Engine × Worker QueryResult
  describeResultOids : Engine → Bytes → Option (List Nat)
  tableColumns : Engine → Bytes → Worker (List Bytes)
  bulkInsert : Engine → Bytes → List Bytes → List (List Bytes) → Engine × Worker Unit
  parseTxn : Bytes → Except ErrorInfo (List (Except ErrorInfo SessionStatement))
  bindTxn : PreparedTemplate σ → List BoundValue →
    Except ErrorInfo (List (Except ErrorInfo SessionStatement))
  present : List Columns × Nat → QueryResult
  report : SqlError → ErrorInfo
  applyWrites : Engine → List (Bytes × Option Bytes) → Engine × Worker Unit

variable {σ : Type} (L : Surroundings σ) (cfg : Settings)

/-- The statements of one text, up to the first that fails. A statement that a transaction
does not support is an error. -/
def runInTxn (e : Engine) : TransactionManager × TxnHandle →
    List (Except ErrorInfo SessionStatement) → QueryResult →
    (TransactionManager × TxnHandle) × Worker QueryResult
  | s, [], last => (s, some (.ok last))
  | s, .error err :: _, _ => (s, some (.error err))
  | s, .ok stmt :: rest, _ =>
    match execStmtInTxn cfg e s stmt with
    | none => (s, none)
    | some done =>
      match done.result with
      | .error err => (done.state, some (.error (L.report err)))
      | .ok r => runInTxn e done.state rest (L.present r)

def Shared.withTxn (d : Shared) (id : Timestamp) (t : OpenTxn) : Shared :=
  { d with handles := d.handles.insert id t }

def Shared.executeInTxn (d : Shared) (id : Timestamp)
    (stmts : Except ErrorInfo (List (Except ErrorInfo SessionStatement))) :
    Shared × Worker QueryResult :=
  match d.handles[id]?, stmts with
  | none, _ => (d, none)
  | some _, .error err => (d, some (.error err))
  | some t, .ok stmts =>
    let r := runInTxn L cfg d.engine (d.manager, t.handle) stmts (.ok (ascii "OK"))
    ({ d with manager := r.1.1 }.withTxn id { t with handle := r.1.2 }, r.2)

/-- The server never asks for a serializable transaction. -/
def Shared.beginTransaction (d : Shared) : Shared × Worker Timestamp :=
  let r := Sql.beginTransaction d.engine d.manager false
  ({ d with manager := r.1 }.withTxn r.2.txnId ⟨r.2, []⟩, some (.ok r.2.txnId))

/-- The locks are released before the first write is applied. -/
def Shared.commitTransaction (d : Shared) (id : Timestamp) : Shared × Worker Unit :=
  match d.handles[id]? with
  | none => (d, none)
  | some t =>
    match d.manager.commitSerializable t.handle.txnId t.handle.reads (writeKeys t.handle.writes)
      t.handle.serializable with
    | .error err => (d, some (.error (L.report err)))
    | .ok r =>
      let applied := L.applyWrites d.engine t.handle.writes.toList
      ({ d with engine := applied.1, manager := r.1 }, applied.2)

def Shared.rollbackTransaction (d : Shared) (id : Timestamp) : Shared × Worker Unit :=
  match d.handles[id]? with
  | none => (d, none)
  | some t =>
    ({ d with manager := d.manager.abort t.handle.txnId }.withTxn id
      ⟨{ t.handle with writes := ∅ }, []⟩, some (.ok ()))

def Shared.savepoint (d : Shared) (id : Timestamp) (name : Bytes) : Shared :=
  match d.handles[id]? with
  | none => d
  | some t => d.withTxn id { t with savepoints := t.savepoints ++ [(name, t.handle.writes)] }

/-- The place of the topmost savepoint of that name. -/
def findSavepoint (savepoints : List (Bytes × WriteBuffer)) (name : Bytes) : Option Nat :=
  (savepoints.reverse.findIdx? fun s => s.1 = name).map fun i => savepoints.length - 1 - i

/-- Locks that were taken since the savepoint are kept. -/
def Shared.rollbackTo (d : Shared) (id : Timestamp) (name : Bytes) : Except Unit Shared :=
  match d.handles[id]? with
  | none => .error ()
  | some t =>
    match findSavepoint t.savepoints name with
    | none => .error ()
    | some i =>
      let writes := (t.savepoints[i]?).elim t.handle.writes Prod.snd
      .ok (d.withTxn id ⟨{ t.handle with writes }, t.savepoints.take (i + 1)⟩)

def Shared.release (d : Shared) (id : Timestamp) (name : Bytes) : Except Unit Shared :=
  match d.handles[id]? with
  | none => .error ()
  | some t =>
    match findSavepoint t.savepoints name with
    | none => .error ()
    | some i => .ok (d.withTxn id { t with savepoints := t.savepoints.take i })

def Shared.engineCall {α : Type} (d : Shared) (r : Engine × Worker α) : Shared × Worker α :=
  ({ d with engine := r.1 }, r.2)

/-- The database as the loops of the connections call it. -/
def database : Database Shared σ Timestamp where
  prepare d sql := L.prepare d.engine sql
  execute d sql := d.engineCall (L.execute d.engine sql)
  executeBound d template values := d.engineCall (L.executeBound d.engine template values)
  executeInTxn d id sql := d.executeInTxn L cfg id (L.parseTxn sql)
  executeBoundInTxn d id template values := d.executeInTxn L cfg id (L.bindTxn template values)
  describeResultOids d sql := L.describeResultOids d.engine sql
  beginTransaction := Shared.beginTransaction
  commitTransaction := Shared.commitTransaction L
  rollbackTransaction := Shared.rollbackTransaction
  savepoint := Shared.savepoint
  rollbackTo := Shared.rollbackTo
  release := Shared.release
  tableColumns d table := L.tableColumns d.engine table
  bulkInsert d table columns rows := d.engineCall (L.bulkInsert d.engine table columns rows)

end Database

section Statements

variable {σ : Type} {L : Surroundings σ} {cfg : Settings}

theorem execStmtInTxn_keeps {e : Engine} {P : TransactionManager × TxnHandle → Prop}
    (keeps : Keeps (txnTarget cfg e) P) {s : TransactionManager × TxnHandle}
    {stmt : SessionStatement} {done : Done (TransactionManager × TxnHandle) (List Columns × Nat)}
    (here : P s) (h : execStmtInTxn cfg e s stmt = some done) : P done.state := by
  cases stmt with
  | insert table columns source =>
    cases source with
    | absent =>
      cases h
      exact here
    | query =>
      cases h
      exact here
    | values rows =>
      simp only [execStmtInTxn] at h
      exact keeps.exec here h
  | other stmt =>
    cases stmt with
    | select q =>
      simp only [execStmtInTxn] at h
      split at h
      · cases h
        exact here
      · split at h
        · split at h
          · cases h
            exact here
          · cases h
            exact keeps.record s _ here
        · split at h
          · cases h
            exact here
          · exact keeps.execPlan here h
    | update table assignments selection =>
      simp only [execStmtInTxn, execUpdateStatement] at h
      split at h
      · cases h
        exact here
      · exact keeps.execPlan here h
    | delete tables selection =>
      simp only [execStmtInTxn] at h
      exact keeps.execPlan here h

theorem execStmtInTxn_total (e : Engine) (s : TransactionManager × TxnHandle)
    (stmt : SessionStatement) : (execStmtInTxn cfg e s stmt).isSome := by
  have total := txnTarget_total cfg e
  cases stmt with
  | insert table columns source =>
    cases source with
    | absent => rfl
    | query => rfl
    | values rows =>
      simp only [execStmtInTxn]
      exact total.exec s _
  | other stmt =>
    cases stmt with
    | select q =>
      simp only [execStmtInTxn]
      split
      · rfl
      · split
        · split <;> rfl
        · split
          · rfl
          · exact total.execPlan s _
    | update table assignments selection =>
      simp only [execStmtInTxn, execUpdateStatement]
      split
      · rfl
      · exact total.execPlan s _
    | delete tables selection =>
      simp only [execStmtInTxn]
      exact total.execPlan s _

theorem runInTxn_keeps {e : Engine} {P : TransactionManager × TxnHandle → Prop}
    (keeps : Keeps (txnTarget cfg e) P) :
    ∀ {stmts : List (Except ErrorInfo SessionStatement)} {s : TransactionManager × TxnHandle}
      {last : QueryResult}, P s →
      P (runInTxn L cfg e s stmts last).1 ∧ (runInTxn L cfg e s stmts last).2 ≠ none
  | [], s, last, here => ⟨here, nofun⟩
  | .error err :: rest, s, last, here => ⟨here, nofun⟩
  | .ok stmt :: rest, s, last, here => by
    rw [runInTxn]
    split
    · next panics =>
      have total : (execStmtInTxn cfg e s stmt).isSome := execStmtInTxn_total e s stmt
      simp [panics] at total
    · next done h =>
      have there := execStmtInTxn_keeps keeps here h
      split
      · exact ⟨there, nofun⟩
      · exact runInTxn_keeps keeps there

/-- A transaction only takes locks for itself. -/
structure Grows (m m' : TransactionManager) (id : Timestamp) : Prop where
  snapshots : m'.activeSnapshots = m.activeSnapshots
  locks : ∀ (k : Bytes) (holder : Timestamp), m'.writeLocks[k]? = some holder →
    m.writeLocks[k]? = some holder ∨ holder = id

theorem Grows.acquire {m m' m'' : TransactionManager} {id : Timestamp} {key : Bytes}
    (grows : Grows m m' id) (ok : m'.acquireWriteLock key id = .ok m'') : Grows m m'' id := by
  obtain ⟨-, rfl⟩ := acquireWriteLock_ok ok
  refine ⟨grows.snapshots, ?_⟩
  intro k holder held
  rw [ExtTreeMap.getElem?_insert] at held
  split at held
  · exact .inr (some.inj held).symm
  · exact grows.locks k holder held

theorem keeps_grows (e : Engine) (m : TransactionManager) (id : Timestamp) :
    Keeps (txnTarget cfg e) fun s => Grows m s.1 id ∧ s.2.txnId = id ∧
      s.2.serializable = false where
  record := by
    rintro s keys ⟨grows, same, snapshot⟩
    obtain ⟨-, txnId, -, serializable⟩ := recordRead_foldl s.2 keys
    exact ⟨grows, txnId.trans same, serializable.trans snapshot⟩
  write := by
    rintro s k v s' b ⟨grows, same, snapshot⟩ h
    have h := some.inj h
    cases written : s.2.bufferWrite s.1 k v with
    | error err => simp [written, Except.map] at h
    | ok r =>
      simp only [written, Except.map, Except.ok.injEq, Prod.mk.injEq] at h
      obtain ⟨rfl, -⟩ := h
      obtain ⟨lock, handle⟩ := bufferWrite_ok written
      rw [same] at lock
      exact ⟨grows.acquire lock, by rw [handle]; exact same, by rw [handle]; exact snapshot⟩

end Statements

section Connections

/-- The transaction that a connection has open; the one of a connection that is gone is lost. -/
def Connection.openTxn {σ τ : Type} (c : Connection σ τ) : Option τ :=
  if c.closed then none else c.currentTxn

structure ServerState (σ : Type) where
  db : Shared
  connections : List (Connection σ Timestamp)

inductive Event where
  | connect
  | message (j : Nat) (m : FrontendMessage)
  | disconnect (j : Nat)

variable {σ : Type} (L : Surroundings σ) (cfg : Settings) (ic : Interceptors)

def ServerState.init (e : Engine) : ServerState σ := ⟨⟨e, .new, ∅⟩, []⟩

/-- A client that goes away ends its loop at the next read or write. -/
def ServerState.step (s : ServerState σ) : Event → Option (ServerState σ)
  | .connect => some { s with connections := s.connections ++ [.new] }
  | .message j m => (s.connections[j]?).map fun c =>
    let o := serve (database L cfg) ic s.db c m
    ⟨o.db, s.connections.set j o.connection⟩
  | .disconnect j => (s.connections[j]?).map fun c =>
    { s with connections := s.connections.set j c.close }

/-- Locks and snapshots belong to transactions that some connection has open. -/
structure ServerState.Owned (s : ServerState σ) : Prop where
  locks : ∀ (k : Bytes) (id : Timestamp), s.db.manager.writeLocks[k]? = some id →
    ∃ (j : Nat) (c : Connection σ Timestamp), s.connections[j]? = some c ∧ c.openTxn = some id
  snapshots : ∀ id ∈ s.db.manager.activeSnapshots,
    ∃ (j : Nat) (c : Connection σ Timestamp), s.connections[j]? = some c ∧ c.openTxn = some id

/-- No connection ends while it has a transaction open. -/
def EndsOutside (s : ServerState σ) : Event → Prop
  | .connect => True
  | .message j m => ∀ c ∈ s.connections[j]?, c.openTxn ≠ none →
    ¬ Leaving c m ∧ Calm (database L cfg) s.db
  | .disconnect j => ∀ c ∈ s.connections[j]?, c.openTxn = none

/-- Handles are found under their own id, and none is serializable. -/
def Shared.Fine (d : Shared) : Prop :=
  ∀ (id : Timestamp) (t : OpenTxn), d.handles[id]? = some t →
    t.handle.txnId = id ∧ t.handle.serializable = false

/-- What a turn of a connection with transaction `before` leaves of locks and snapshots. -/
structure Passes (d d' : Shared) (before after : Option Timestamp) : Prop where
  fine : d'.Fine
  handles : ∀ id : Timestamp, d.handles[id]? ≠ none → d'.handles[id]? ≠ none
  opened : ∀ id : Timestamp, after = some id → d'.handles[id]? ≠ none
  locks : ∀ (k : Bytes) (id : Timestamp), d'.manager.writeLocks[k]? = some id →
    after = some id ∨ (d.manager.writeLocks[k]? = some id ∧ before ≠ some id)
  snapshots : ∀ id ∈ d'.manager.activeSnapshots,
    after = some id ∨ (id ∈ d.manager.activeSnapshots ∧ before ≠ some id)

open Passes

variable {L cfg ic} {d : Shared} {before : Option Timestamp}

variable {c : Connection σ Timestamp} {id : Timestamp} {s : ServerState σ} {d' : Shared}
  {t : OpenTxn} {j : Nat}

/-- Turns that leave the manager and the handles alone. -/
theorem Passes.of_same (fine : d.Fine)
    (has : ∀ id : Timestamp, before = some id → d.handles[id]? ≠ none)
    (manager : d'.manager = d.manager) (handles : d'.handles = d.handles) :
    Passes d d' before before := by
  refine ⟨?_, ?_, ?_, ?_, ?_⟩
  · intro id t found
    exact fine id t (handles ▸ found)
  · intro id found
    rwa [handles]
  · intro id opened
    rw [handles]
    exact has id opened
  · intro k id held
    rw [manager] at held
    by_cases own : before = some id
    · exact .inl own
    · exact .inr ⟨held, own⟩
  · intro id active
    rw [manager] at active
    by_cases own : before = some id
    · exact .inl own
    · exact .inr ⟨active, own⟩

theorem Shared.Fine.withTxn (fine : d.Fine) {id : Timestamp} {t : OpenTxn}
    (own : t.handle.txnId = id) (snapshot : t.handle.serializable = false) :
    (d.withTxn id t).Fine := by
  intro id' t' found
  rw [Shared.withTxn, ExtTreeMap.getElem?_insert] at found
  split at found
  · next same =>
    cases found
    exact ⟨own.trans (LawfulEqCmp.eq_of_compare same), snapshot⟩
  · exact fine id' t' found

theorem Shared.handles_withTxn {id' : Timestamp} (found : id = id' ∨ d.handles[id']? ≠ none) :
    (d.withTxn id t).handles[id']? ≠ none := by
  rw [Shared.withTxn, ExtTreeMap.getElem?_insert]
  split
  · nofun
  · next other =>
    refine found.resolve_left ?_
    rintro rfl
    exact other ReflCmp.compare_self

/-- Turns inside a transaction, which takes locks and changes its handle. -/
theorem Passes.of_grows (fine : d.Fine) {m : TransactionManager} (grows : Grows d.manager m id)
    (own : t.handle.txnId = id) (snapshot : t.handle.serializable = false) :
    Passes d ({ d with manager := m }.withTxn id t) (some id) (some id) := by
  refine ⟨?_, ?_, ?_, ?_, ?_⟩
  · exact @Shared.Fine.withTxn { d with manager := m } fine id t own snapshot
  · intro id' found
    exact Shared.handles_withTxn (.inr found)
  · rintro _ ⟨⟩
    exact Shared.handles_withTxn (.inl rfl)
  · intro k id' held
    by_cases same : id = id'
    · exact .inl (by rw [same])
    · exact .inr ⟨(grows.locks k id' held).resolve_right (Ne.symm same), by simpa using same⟩
  · intro id' active
    have active : id' ∈ m.activeSnapshots := active
    rw [grows.snapshots] at active
    by_cases same : id = id'
    · exact .inl (by rw [same])
    · exact .inr ⟨active, by simpa using same⟩

theorem grows_refl (m : TransactionManager) (id : Timestamp) : Grows m m id :=
  ⟨rfl, fun _ _ held => .inl held⟩

theorem executeInTxn_passes (fine : d.Fine) (has : d.handles[id]? ≠ none)
    (stmts : Except ErrorInfo (List (Except ErrorInfo SessionStatement))) :
    Passes d (d.executeInTxn L cfg id stmts).1 (some id) (some id) ∧
      (d.executeInTxn L cfg id stmts).2 ≠ none := by
  obtain ⟨t, found⟩ := ne_none_iff_exists'.mp has
  obtain ⟨own, snapshot⟩ := fine id t found
  unfold Shared.executeInTxn
  rw [found]
  cases stmts with
  | error err =>
    refine ⟨of_same fine ?_ rfl rfl, nofun⟩
    rintro _ ⟨⟩
    exact has
  | ok stmts =>
    obtain ⟨⟨grows, own', snapshot'⟩, calm⟩ := @runInTxn_keeps σ L cfg d.engine _
      (keeps_grows d.engine d.manager id) stmts (d.manager, t.handle) (.ok (ascii "OK"))
      ⟨grows_refl _ _, own, snapshot⟩
    exact ⟨of_grows fine grows own' snapshot', calm⟩

theorem beginTransaction_passes (fine : d.Fine) (ok : d.beginTransaction.2 = some (.ok id)) :
    Passes d d.beginTransaction.1 none (some id) := by
  cases ok
  refine ⟨?_, ?_, ?_, ?_, ?_⟩
  · exact @Shared.Fine.withTxn { d with manager := _ } fine _ _ rfl rfl
  · intro id' found
    exact Shared.handles_withTxn (.inr found)
  · rintro _ ⟨⟩
    exact Shared.handles_withTxn (.inl rfl)
  · intro k id' held
    exact .inr ⟨held, nofun⟩
  · intro id' active
    rcases ExtTreeSet.mem_insert.mp active with same | active
    · exact .inl (by rw [← LawfulEqCmp.eq_of_compare same]; rfl)
    · exact .inr ⟨active, nofun⟩

/-- The end of a transaction takes its locks and its snapshot along. -/
theorem Passes.of_end (fine : d'.Fine)
    (handles : ∀ id : Timestamp, d.handles[id]? ≠ none → d'.handles[id]? ≠ none)
    (locks : d'.manager.writeLocks = d.manager.writeLocks.filter fun _ holder => holder ≠ id)
    (snapshots : d'.manager.activeSnapshots = d.manager.activeSnapshots.erase id) :
    Passes d d' (some id) none := by
  refine ⟨fine, handles, nofun, ?_, ?_⟩
  · intro k id' held
    rw [locks, ExtTreeMap.getElem?_filter] at held
    obtain ⟨held, other⟩ := pfilter_eq_some_iff.mp held
    refine .inr ⟨held, ?_⟩
    rintro ⟨⟩
    simp at other
  · intro id' active
    rw [snapshots, ExtTreeSet.mem_erase] at active
    refine .inr ⟨active.2, ?_⟩
    rintro ⟨⟩
    exact active.1 ReflCmp.compare_self

theorem commitTransaction_passes (fine : d.Fine) (has : d.handles[id]? ≠ none) :
    Passes d (d.commitTransaction L id).1 (some id) none := by
  obtain ⟨t, found⟩ := ne_none_iff_exists'.mp has
  obtain ⟨own, snapshot⟩ := fine id t found
  unfold Shared.commitTransaction
  rw [found]
  simp only [TransactionManager.commitSerializable, TransactionManager.certify, snapshot, own,
    Bool.false_and, Bool.false_eq_true, if_false, Except.map]
  exact of_end fine (fun _ found => found) rfl rfl

theorem rollbackTransaction_passes (fine : d.Fine) (has : d.handles[id]? ≠ none) :
    Passes d (d.rollbackTransaction id).1 (some id) none := by
  obtain ⟨t, found⟩ := ne_none_iff_exists'.mp has
  obtain ⟨own, snapshot⟩ := fine id t found
  simp only [Shared.rollbackTransaction, found, own]
  refine of_end ?_ ?_ rfl rfl
  · exact @Shared.Fine.withTxn { d with manager := _ } fine _ _ rfl snapshot
  · intro id' found'
    exact Shared.handles_withTxn (.inr found')

/-- Savepoints only change the handle. -/
theorem withTxn_passes (fine : d.Fine) {t' : OpenTxn} (found : d.handles[id]? = some t)
    (own : t'.handle.txnId = t.handle.txnId)
    (snapshot : t'.handle.serializable = t.handle.serializable) :
    Passes d (d.withTxn id t') (some id) (some id) :=
  of_grows fine (grows_refl _ _) (own.trans (fine id t found).1)
    (snapshot.trans (fine id t found).2)

variable {c' : Connection σ Timestamp} {m : FrontendMessage}

/-- The end of the loop that no client and no panic has caused comes outside of transactions. -/
theorem Turn.passes {txn : Option Timestamp} {left : Bool}
    (turn : Turn (database L cfg) d c m d' txn left) (fine : d.Fine)
    (has : ∀ id : Timestamp, c.currentTxn = some id → d.handles[id]? ≠ none) :
    Passes d d' c.currentTxn txn ∧ (left = true → txn = none ∨
        (txn = c.currentTxn ∧ (Leaving c m ∨ ¬ Calm (database L cfg) d))) := by
  have same := of_same fine has rfl rfl
  cases turn with
  | idle => exact ⟨same, nofun⟩
  | leave leaving => exact ⟨same, fun _ => .inr ⟨rfl, .inl leaving⟩⟩
  | panic alarm => exact ⟨same, fun _ => .inr ⟨rfl, .inr alarm⟩⟩
  | execute sql _ panics =>
    refine ⟨of_same fine has rfl rfl, ?_⟩
    intro left
    exact .inr ⟨rfl, .inr fun calm => calm.execute sql (panics left)⟩
  | executeBound template values _ panics =>
    refine ⟨of_same fine has rfl rfl, ?_⟩
    intro left
    exact .inr ⟨rfl, .inr fun calm => calm.executeBound template values (panics left)⟩
  | bulkInsert table columns rows _ panics =>
    refine ⟨of_same fine has rfl rfl, ?_⟩
    intro left
    exact .inr ⟨rfl, .inr fun calm => calm.bulkInsert table columns rows (panics left)⟩
  | executeInTxn t here sql _ panics =>
    obtain ⟨passes, calm⟩ := executeInTxn_passes fine (has t here) (L.parseTxn sql)
    rw [here]
    exact ⟨passes, fun left => absurd (panics left) calm⟩
  | executeBoundInTxn t here template values _ panics =>
    obtain ⟨passes, calm⟩ := executeInTxn_passes fine (has t here) (L.bindTxn template values)
    rw [here]
    exact ⟨passes, fun left => absurd (panics left) calm⟩
  | savepoint t here name =>
    obtain ⟨txn, found⟩ := ne_none_iff_exists'.mp (has t here)
    rw [here]
    simp only [database, Shared.savepoint, found]
    exact ⟨withTxn_passes fine found rfl rfl, nofun⟩
  | rollbackTo t here name _ ok =>
    obtain ⟨txn, found⟩ := ne_none_iff_exists'.mp (has t here)
    rw [here]
    simp only [database, Shared.rollbackTo, found] at ok
    split at ok
    · cases ok
    · cases ok
      exact ⟨withTxn_passes fine found rfl rfl, nofun⟩
  | release t here name _ ok =>
    obtain ⟨txn, found⟩ := ne_none_iff_exists'.mp (has t here)
    rw [here]
    simp only [database, Shared.release, found] at ok
    split at ok
    · cases ok
    · cases ok
      exact ⟨withTxn_passes fine found rfl rfl, nofun⟩
  | begin here t ok =>
    rw [here]
    exact ⟨beginTransaction_passes fine ok, nofun⟩
  | beginFailed here failed => exact absurd rfl (failed _)
  | commit t here _ =>
    rw [here]
    exact ⟨commitTransaction_passes fine (has t here), fun _ => .inl rfl⟩
  | rollback t here _ =>
    rw [here]
    exact ⟨rollbackTransaction_passes fine (has t here), fun _ => .inl rfl⟩

/-- Every connection finds its handle. -/
structure ServerState.Tidy (s : ServerState σ) : Prop where
  owned : s.Owned
  fine : s.db.Fine
  handles : ∀ (j : Nat) (c : Connection σ Timestamp), s.connections[j]? = some c →
    ∀ id : Timestamp, c.currentTxn = some id → s.db.handles[id]? ≠ none

theorem ServerState.tidy_init (e : Engine) : (ServerState.init e : ServerState σ).Tidy where
  owned := by
    refine ⟨?_, ?_⟩
    · intro k id held
      simp [ServerState.init, TransactionManager.new] at held
    · intro id active
      simp [ServerState.init, TransactionManager.new] at active
  fine := by
    intro id t found
    simp [ServerState.init] at found
  handles := by
    intro j c here
    simp [ServerState.init] at here

/-- The owner of a lock or a snapshot stays, unless it is the connection that moves. -/
theorem owner_set {connections : List (Connection σ Timestamp)} (here : connections[j]? = some c)
    (owner : c'.openTxn = some id ∨
      ((∃ (i : Nat) (c1 : Connection σ Timestamp), connections[i]? = some c1 ∧
        c1.openTxn = some id) ∧
        c.openTxn ≠ some id)) :
    ∃ (i : Nat) (c1 : Connection σ Timestamp),
      (connections.set j c')[i]? = some c1 ∧ c1.openTxn = some id := by
  rcases owner with own | ⟨⟨i, c1, there, own⟩, other⟩
  · have bound : j < connections.length := (List.getElem?_eq_some_iff.mp here).1
    exact ⟨j, c', by rw [List.getElem?_set_self bound], own⟩
  · have apart : j ≠ i := by
      rintro rfl
      rw [here] at there
      cases there
      exact other own
    exact ⟨i, c1, by rw [List.getElem?_set_ne apart, there], own⟩

theorem ServerState.Tidy.set (tidy : s.Tidy) (here : s.connections[j]? = some c)
    (passes : Passes s.db d' c.openTxn c'.openTxn)
    (handle : ∀ id : Timestamp, c'.currentTxn = some id → d'.handles[id]? ≠ none) :
    (⟨d', s.connections.set j c'⟩ : ServerState σ).Tidy where
  owned := by
    refine ⟨?_, ?_⟩
    · intro k id held
      refine owner_set here ((passes.locks k id held).imp_right ?_)
      rintro ⟨held, other⟩
      exact ⟨tidy.owned.locks k id held, other⟩
    · intro id active
      refine owner_set here ((passes.snapshots id active).imp_right ?_)
      rintro ⟨active, other⟩
      exact ⟨tidy.owned.snapshots id active, other⟩
  fine := passes.fine
  handles := by
    intro i c1 there id current
    by_cases same : j = i
    · subst same
      have bound : j < s.connections.length := (List.getElem?_eq_some_iff.mp here).1
      rw [List.getElem?_set_self bound] at there
      cases there
      exact handle id current
    · rw [List.getElem?_set_ne same] at there
      exact passes.handles id (tidy.handles i c1 there id current)

theorem Connection.openTxn_running {τ : Type} {c : Connection σ τ} (running : c.closed = false) :
    c.openTxn = c.currentTxn := by
  simp [openTxn, running]

theorem Connection.openTxn_closed {τ : Type} {c : Connection σ τ} (closed : c.closed = true) :
    c.openTxn = none := by
  simp [openTxn, closed]

theorem tidy_message (tidy : s.Tidy) (here : s.connections[j]? = some c)
    (outside : c.openTxn ≠ none → ¬ Leaving c m ∧ Calm (database L cfg) s.db) :
    (⟨(serve (database L cfg) ic s.db c m).db,
      s.connections.set j (serve (database L cfg) ic s.db c m).connection⟩ :
        ServerState σ).Tidy := by
  have has := tidy.handles j c here
  by_cases closed : c.closed = true
  · rw [serve_of_closed closed]
    refine tidy.set here ?_ has
    rw [show (Outcome.answer s.db c []).connection.openTxn = none from c.openTxn_closed closed,
      c.openTxn_closed closed]
    exact of_same tidy.fine (by simp) rfl rfl
  · have running : c.closed = false := by simpa using closed
    have turn : (serve (database L cfg) ic s.db c m).Turns (database L cfg) s.db c m :=
      serve_turns running
    obtain ⟨passes, ends⟩ := Turn.passes turn tidy.fine has
    generalize serve (database L cfg) ic s.db c m = o at passes ends ⊢
    have ended : o.connection.closed = true → o.connection.currentTxn = none := by
      intro left
      rcases ends left with none | ⟨same, cause⟩
      · exact none
      · rw [same]
        by_contra opened
        rw [← openTxn_running running] at opened
        obtain ⟨stays, calm⟩ := outside opened
        exact cause.elim stays fun alarm => alarm calm
    have opened : o.connection.openTxn = o.connection.currentTxn := by
      by_cases left : o.connection.closed = true
      · rw [openTxn_closed left, ended left]
      · exact openTxn_running (by simpa using left)
    refine tidy.set here ?_ passes.opened
    rw [opened, openTxn_running running]
    exact passes

theorem tidy_connect (tidy : s.Tidy) :
    ({ s with connections := s.connections ++ [.new] } : ServerState σ).Tidy := by
  have stays : ∀ (i : Nat) (c : Connection σ Timestamp), s.connections[i]? = some c →
      (s.connections ++ [new])[i]? = some c := by
    intro i c there
    rw [List.getElem?_append_left (List.getElem?_eq_some_iff.mp there).1, there]
  refine ⟨⟨?_, ?_⟩, tidy.fine, ?_⟩
  · intro k id held
    obtain ⟨i, c, there, own⟩ := tidy.owned.locks k id held
    exact ⟨i, c, stays i c there, own⟩
  · intro id active
    obtain ⟨i, c, there, own⟩ := tidy.owned.snapshots id active
    exact ⟨i, c, stays i c there, own⟩
  · intro i c there id current
    rw [List.getElem?_append] at there
    split at there
    · exact tidy.handles i c there id current
    · obtain rfl := List.mem_singleton.mp (List.mem_of_getElem? there)
      cases current

theorem tidy_step {s' : ServerState σ} {e : Event} (tidy : s.Tidy) (outside : EndsOutside L cfg s e)
    (h : s.step L cfg ic e = some s') : s'.Tidy := by
  cases e with
  | connect =>
    cases h
    exact tidy_connect tidy
  | message j m =>
    obtain ⟨c, here, rfl⟩ := map_eq_some_iff.mp h
    exact tidy_message tidy here (outside c here)
  | disconnect j =>
    obtain ⟨c, here, rfl⟩ := map_eq_some_iff.mp h
    refine tidy.set here ?_ (tidy.handles j c here)
    rw [outside c here, show c.close.openTxn = none from openTxn_closed rfl]
    exact of_same tidy.fine (by simp) rfl rfl

/-- As long as no connection ends inside a transaction, locks and snapshots belong to open
transactions, and a write is refused only for one of these. -/
theorem locks_belong_to_open_transactions {L : Surroundings σ} {cfg : Settings}
    {ic : Interceptors} {e : Engine} {events : List Event} {s : ServerState σ}
    (outside : Along (ServerState.step L cfg ic) (EndsOutside L cfg) (.init e) events)
    (reached : run (ServerState.step L cfg ic) (.init e) events = some s) :
    s.Owned ∧ ∀ (k : Bytes) (txn : Timestamp) (err : SqlError),
      s.db.manager.acquireWriteLock k txn = .error err →
        ∃ (j : Nat) (c : Connection σ Timestamp) (id : Timestamp), s.connections[j]? = some c ∧
          c.openTxn = some id ∧ id ≠ txn ∧ s.db.manager.writeLocks[k]? = some id := by
  have preserved : ∀ (s : ServerState σ) (e : Event) (s' : ServerState σ), s.Tidy →
      EndsOutside L cfg s e → s.step L cfg ic e = some s' → s'.Tidy :=
    fun _ _ _ tidy outside h => tidy_step tidy outside h
  have tidy := invariant_of_run preserved (ServerState.tidy_init e) outside reached
  refine ⟨tidy.owned, ?_⟩
  intro k txn err refused
  cases held : s.db.manager.writeLocks[k]? with
  | none =>
    simp [TransactionManager.acquireWriteLock, held] at refused
  | some id =>
    obtain ⟨j, c, here, own⟩ := tidy.owned.locks k id held
    refine ⟨j, c, id, here, own, ?_, rfl⟩
    rintro rfl
    simp [TransactionManager.acquireWriteLock, held] at refused

end Connections

/-- Around a database in which every text of a transaction inserts the row (1, 5). -/
def insertingOne : Surroundings Unit where
  prepare _ _ := some (.ok ⟨(), 0, none, none, false⟩)
  execute e _ := (e, some (.ok (.rowCount 0)))
  executeBound e _ _ := (e, some (.ok (.rowCount 0)))
  describeResultOids _ _ := none
  tableColumns _ _ := some (.ok [ascii "id", ascii "c"])
  bulkInsert e _ _ _ := (e, some (.ok ()))
  parseTxn _ := .ok [.ok (.insert (ascii "t") []
    (.values [[numberLiteral "1", numberLiteral "5"]]))]
  bindTxn _ _ := .ok []
  present r := .rowCount r.2
  report _ := ⟨ascii "40001", ascii "write-write conflict on key; transaction aborted"⟩
  applyWrites e writes :=
    match carryOut (autocommitTarget .numbers) e writes with
    | some d => (d.state, some (.ok ()))
    | none => (e, none)

def controlTexts : Interceptors where
  parseCopy _ := none
  parseTxnControl sql :=
    if sql = ascii "BEGIN" then some .begin
    else if sql = ascii "COMMIT" then some .commit
    else if sql = ascii "ROLLBACK" then some .rollback
    else none
  tryHandlePgCatalog _ := none

theorem calm_insertingOne (d : Shared) : Calm (database insertingOne .numbers) d :=
  ⟨nofun, nofun, nofun, nofun, nofun⟩

instance {σ τ : Type} (c : Connection σ τ) (m : FrontendMessage) : Decidable (Leaving c m) := by
  unfold Leaving
  split <;> infer_instance

/-- The part of `EndsOutside` that is about the messages. -/
def Stays {σ : Type} (s : ServerState σ) : Event → Prop
  | .connect => True
  | .message j m => ∀ c ∈ s.connections[j]?, c.openTxn ≠ none → ¬ Leaving c m
  | .disconnect j => ∀ c ∈ s.connections[j]?, c.openTxn = none

instance {σ : Type} (s : ServerState σ) (e : Event) : Decidable (Stays s e) := by
  unfold Stays
  split <;> infer_instance

def simpleQuery (j : Nat) (sql : String) : Event := .message j (.query (ascii sql))

/-- The first connection rolls back and goes; then the second inserts the same key. -/
def oneAfterTheOther : List Event :=
  [.connect, .connect, simpleQuery 0 "BEGIN", simpleQuery 0 "INSERT INTO t VALUES (1, 5)",
    simpleQuery 0 "ROLLBACK", .disconnect 0, simpleQuery 1 "BEGIN",
    simpleQuery 1 "INSERT INTO t VALUES (1, 5)"]

theorem locks_of_one_after_the_other :
    ∃ s, run (ServerState.step insertingOne .numbers controlTexts)
        (.init (Engine.fresh .plain .default)) oneAfterTheOther = some s ∧
      s.Owned ∧ s.db.manager.writeLocks[ascii "t:1"]? = some 2 := by
  have along : Along (ServerState.step insertingOne .numbers controlTexts) Stays
      (.init (Engine.fresh .plain .default)) oneAfterTheOther := by decide +kernel
  have outside : Along (ServerState.step insertingOne .numbers controlTexts)
      (EndsOutside insertingOne .numbers) (.init (Engine.fresh .plain .default))
      oneAfterTheOther := by
    refine along.mono ?_
    intro s e stays
    cases e with
    | connect => trivial
    | message j m => exact fun c here opened => ⟨stays c here opened, calm_insertingOne s.db⟩
    | disconnect j => exact stays
  have held : ∃ s ∈ run (ServerState.step insertingOne .numbers controlTexts)
      (.init (Engine.fresh .plain .default)) oneAfterTheOther,
      s.db.manager.writeLocks[ascii "t:1"]? = some 2 := by decide +kernel
  obtain ⟨s, reached, held⟩ := held
  exact ⟨s, reached, (locks_belong_to_open_transactions outside reached).1, held⟩

/-- The first connection goes away with its transaction open. -/
def gone : List Event :=
  [.connect, .connect, simpleQuery 0 "BEGIN", simpleQuery 0 "INSERT INTO t VALUES (1, 5)",
    .disconnect 0, simpleQuery 1 "BEGIN", simpleQuery 1 "INSERT INTO t VALUES (1, 5)"]

/-- Its lock stays, nobody has the transaction open, and no other transaction can take the
lock. -/
theorem lock_of_lost_connection : ∃ s, run (ServerState.step insertingOne .numbers controlTexts)
        (.init (Engine.fresh .plain .default)) gone = some s ∧
      ¬ s.Owned ∧ s.connections.map openTxn = [none, some 2] ∧
      s.db.manager.writeLocks[ascii "t:1"]? = some 1 ∧
      (s.db.manager.acquireWriteLock (ascii "t:1") 2).isOk = false := by
  have lost : ∃ s ∈ run (ServerState.step insertingOne .numbers controlTexts)
      (.init (Engine.fresh .plain .default)) gone,
      s.connections.map openTxn = [none, some 2] ∧ s.db.manager.writeLocks[ascii "t:1"]? = some 1 ∧
        (s.db.manager.acquireWriteLock (ascii "t:1") 2).isOk = false := by
    decide +kernel
  obtain ⟨s, reached, opened, held, refused⟩ := lost
  refine ⟨s, reached, ?_, opened, held, refused⟩
  intro owned
  obtain ⟨j, c, here, own⟩ := owned.locks _ _ held
  have listed : some 1 ∈ s.connections.map openTxn :=
    own ▸ List.mem_map_of_mem (List.mem_of_getElem? here)
  rw [opened] at listed
  simp at listed

end GalaxDb.Server
