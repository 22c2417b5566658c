import GalaxDb.Sql.Executor
import GalaxDb.Storage.Recorded

/-!
# Sessions that interleave

Transactions and autocommit statements of several clients, as the atomic steps of the
code. A transaction reads its snapshot timestamp, draws its id and registers it in three
steps, takes one lock at a time, and applies its writes one by one after the manager has
released its locks. An autocommit statement scans and then applies its writes.
-/

namespace GalaxDb.Sql

open Bytes Executor

/-- What a database is opened with. -/
structure Settings where
  env : Platform
  order : IterOrder
  catalog : List TableEntry
  index : Bytes → FilterExpr → Option (List Bytes)

/-- A database with `numbersTable`. -/
def Settings.numbers : Settings := ⟨.plain, .byId, [numbersTable], fun _ _ => none⟩

/-- A statement of a transaction. -/
inductive Request where
  | plan (p : QueryPlan)
  | sorted (table : Bytes) (filter : Option FilterExpr) (columns : List Bytes) (s : SortLimit)

/-- In the source the message ends with the statement. -/
def bulkInTxn : SqlError :=
  .featureNotSupported (ascii "statement not supported inside a transaction (v1)")

/-- A transaction takes no bulk insert. -/
def requestEffect (ctx : ExecutorContext) : Request → Except SqlError Effect
  | .plan (.bulkInsert _ _ _) => .error bulkInTxn
  | .plan p => planEffect ctx p
  | .sorted table filter columns s => sortedScan ctx table filter columns s

/-- What a statement returns: rows, and the number of rows it has written. -/
abbrev Response := Except SqlError (List Columns × Nat)

def Effect.response (f : Effect) : Response :=
  match f.failure with
  | some e => .error e
  | none => .ok (f.rows.map Prod.snd, f.writes.length)

/-- How far a client has come. A statement buffers its writes one at a time, a commit and
an autocommit statement apply theirs one at a time. -/
inductive Pc where
  | starting (serializable : Bool) (readTs : Timestamp)
  | drawn (serializable : Bool) (readTs txnId : Timestamp)
  | idle (t : TxnHandle)
  | buffering (t : TxnHandle) (r : Request) (effect : Effect)
    (pending : List (Bytes × Option Bytes))
  | applying (pending : List (Bytes × Option Bytes))
  | committed
  | aborted

/-- One transaction or autocommit statement, with what it has read and written so far.
`readTs` is the snapshot of a transaction, `seenTs` the latest write when the client came,
`history` all that it has buffered or planned to write, in order. Times count steps. -/
structure Client where
  pc : Pc
  readTs : Option Timestamp
  seenTs : Timestamp
  history : List (Bytes × Option Bytes)
  startedAt : Nat
  finishedAt : Option Nat
  wrote : List (Row Bytes Bytes)
  responses : List (Request × Response)

structure Db where
  engine : Engine
  manager : TransactionManager
  clients : List Client
  clock : Nat

inductive Act where
  | begin (serializable : Bool)
  | autocommit (p : QueryPlan)
  | exec (i : Nat) (r : Request)
  | commit (i : Nat)
  | rollback (i : Nat)
  | advance (i : Nat)

namespace Client

/-- The statement is over when all its writes are buffered. -/
def bufferRest (c : Client) (t : TxnHandle) (r : Request) (effect : Effect)
    (pending : List (Bytes × Option Bytes)) : Client :=
  if pending = [] then
    { c with pc := .idle t, responses := c.responses ++ [(r, effect.response)] }
  else { c with pc := .buffering t r effect pending }

/-- A statement that fails leaves the transaction and its buffer as they are. -/
def fails (c : Client) (t : TxnHandle) (r : Request) (e : SqlError) : Client :=
  { c with pc := .idle t, responses := c.responses ++ [(r, .error e)] }

/-- A write has been buffered. -/
def claim (c : Client) (w : Bytes × Option Bytes) : Client :=
  { c with history := c.history ++ [w] }

def record (c : Client) (rows : List (Row Bytes Bytes)) : Client :=
  { c with wrote := c.wrote ++ rows }

/-- The commit is over when all writes are applied. -/
def applyRest (c : Client) (clock : Nat) (pending : List (Bytes × Option Bytes)) : Client :=
  if pending = [] then { c with pc := .committed, finishedAt := some clock }
  else { c with pc := .applying pending }

end Client

namespace Db

def init (cfg : Settings) (config : EngineConfig) : Db where
  engine := Engine.fresh cfg.env config
  manager := TransactionManager.new
  clients := []
  clock := 0

/-- The state after one step of the client at place `i`, which may be a new one. -/
def moved (s : Db) (i : Nat) (e : Engine) (m : TransactionManager) (c : Client) : Db where
  engine := e
  manager := m
  clients := if i = s.clients.length then s.clients ++ [c] else s.clients.set i c
  clock := s.clock + 1

def txnContext (cfg : Settings) (s : Db) (t : TxnHandle) : ExecutorContext :=
  .inTxn cfg.catalog s.engine cfg.order t

def autoContext (cfg : Settings) (s : Db) : ExecutorContext :=
  ⟨cfg.catalog, cfg.index, .latest s.engine cfg.order⟩

def newClient (s : Db) (pc : Pc) (readTs : Option Timestamp) : Client :=
  ⟨pc, readTs, s.engine.latestCommitTs, [], s.clock, none, [], []⟩

/-- `begin_transaction` first reads the timestamp of the latest write. -/
def beginTransaction (s : Db) (serializable : Bool) : Db :=
  let readTs := s.engine.latestCommitTs
  s.moved s.clients.length s.engine s.manager
    (s.newClient (.starting serializable readTs) (some readTs))

/-- The scan of an autocommit statement, which plans its writes. -/
def autocommit (cfg : Settings) (s : Db) (p : QueryPlan) : Db :=
  match planEffect (s.autoContext cfg) p with
  | .error e => s.moved s.clients.length s.engine s.manager
      { s.newClient .aborted none with responses := [(.plan p, .error e)] }
  | .ok effect => s.moved s.clients.length s.engine s.manager (({ s.newClient .aborted none with
          responses := [(.plan p, effect.response)]
          history := effect.writes }).applyRest s.clock effect.writes)

def exec (cfg : Settings) (s : Db) (i : Nat) (c : Client) (t : TxnHandle) (r : Request) : Db :=
  match requestEffect (s.txnContext cfg t) r with
  | .error e => s.moved i s.engine s.manager (c.fails t r e)
  | .ok effect => s.moved i s.engine s.manager
      (c.bufferRest (effect.reads.foldl TxnHandle.recordRead t) r effect effect.writes)

/-- The manager certifies and releases the locks; then the buffered writes are applied. A
transaction that is not certified stays open. -/
def commitTransaction (s : Db) (i : Nat) (c : Client) (t : TxnHandle) : Db :=
  match s.manager.commitSerializable t.txnId t.reads (writeKeys t.writes) t.serializable with
  | .error _ => s.moved i s.engine s.manager c
  | .ok r => s.moved i s.engine r.1 (c.applyRest s.clock t.writes.toList)

def rollbackTransaction (s : Db) (i : Nat) (c : Client) (t : TxnHandle) : Db :=
  s.moved i s.engine (s.manager.abort t.txnId) { c with pc := .aborted }

def bufferNext (s : Db) (i : Nat) (c : Client) (t : TxnHandle) (r : Request) (effect : Effect)
    (w : Bytes × Option Bytes) (rest : List (Bytes × Option Bytes)) : Db :=
  match t.bufferWrite s.manager w.1 w.2 with
  | .error e => s.moved i s.engine s.manager (c.fails t r e)
  | .ok next => s.moved i s.engine next.1 ((c.claim w).bufferRest next.2 r effect rest)

/-- One `put_sync` or `delete_sync`; a delete that finds nothing writes nothing. -/
def applyNext (cfg : Settings) (s : Db) (i : Nat) (c : Client) (w : Bytes × Option Bytes)
    (rest : List (Bytes × Option Bytes)) : Option Db :=
  match w.2 with
  | some value =>
    (s.engine.putSync cfg.env w.1 value).map fun r => s.moved i r.1 s.manager
      ((c.record [⟨w.1, r.2, some value⟩]).applyRest s.clock rest)
  | none =>
    let r := s.engine.deleteSync cfg.env w.1
    some (s.moved i r.1 s.manager ((c.record
      (if r.2 then [⟨w.1, s.engine.nextTimestamp, none⟩] else [])).applyRest s.clock rest))

def advance (cfg : Settings) (s : Db) (i : Nat) (c : Client) : Option Db :=
  match c.pc with
  | .starting serializable readTs =>
    let r := s.manager.drawId
    some (s.moved i s.engine r.1 { c with pc := .drawn serializable readTs r.2 })
  | .drawn serializable readTs txnId =>
    some (s.moved i s.engine (s.manager.register txnId)
      { c with pc := .idle (.new readTs txnId serializable) })
  | .buffering t r effect (w :: rest) => some (s.bufferNext i c t r effect w rest)
  | .applying (w :: rest) => s.applyNext cfg i c w rest
  | _ => none

/-- A call that the state of its client does not allow is no step. -/
def step (cfg : Settings) (s : Db) : Act → Option Db
  | .begin serializable => some (s.beginTransaction serializable)
  | .autocommit p => some (s.autocommit cfg p)
  | .exec i r => (s.clients[i]?).bind fun c =>
    match c.pc with
    | .idle t => some (s.exec cfg i c t r)
    | _ => none
  | .commit i => (s.clients[i]?).bind fun c =>
    match c.pc with
    | .idle t => some (s.commitTransaction i c t)
    | _ => none
  | .rollback i => (s.clients[i]?).bind fun c =>
    match c.pc with
    | .idle t => some (s.rollbackTransaction i c t)
    | _ => none
  | .advance i => (s.clients[i]?).bind (s.advance cfg i)

end Db

end GalaxDb.Sql
