import GalaxDb.Server.Messages
import Std.Data.ExtTreeMap

/-!
# A connection

The query loop of one connection: simple queries, the extended protocol and the COPY
sub-protocol, with the prepared statements, the portals and the transaction block of the
connection. The database is what the loop calls; one message is one step.
-/

namespace GalaxDb.Server

open Bytes Sql

/-- A statement parsed once. What the parser returns stays abstract. -/
structure PreparedTemplate (σ : Type) where
  stmts : σ
  paramCount : Nat
  columns : Option (List Bytes)
  columnTypeOids : Option (List Nat)
  isRead : Bool
  deriving DecidableEq

inductive PreparedStatement (σ : Type) where
  | normal (template : PreparedTemplate σ) (paramTypes : List Int)
  | copy (cmd : CopyCommand)
  deriving DecidableEq

inductive TxnControl where
  | begin
  | commit
  | rollback
  | savepoint (name : Bytes)
  | release (name : Bytes)
  | rollbackTo (name : Bytes)
  deriving DecidableEq

/-- How the server reads a query text before the parser sees it. -/
structure Interceptors where
  parseCopy : Bytes → Option CopyCommand
  parseTxnControl : Bytes → Option TxnControl
  tryHandlePgCatalog : Bytes → Option QueryResult

/-- What a worker returns; nothing if it panics. -/
abbrev Worker (α : Type) := Option (Except ErrorInfo α)

/-- The calls of the loop. `τ` are the handles of transactions, whose buffers and savepoints
are shared and so belong to the state of the database. -/
structure Database (δ σ τ : Type) where
  prepare : δ → Bytes → Worker (PreparedTemplate σ)
  execute : δ → Bytes → δ × Worker QueryResult
  executeBound : δ → PreparedTemplate σ → List BoundValue → δ × Worker QueryResult
  executeInTxn : δ → τ → Bytes → δ × Worker QueryResult
  executeBoundInTxn : δ → τ → PreparedTemplate σ → List BoundValue → δ × Worker QueryResult
  describeResultOids : δ → Bytes → Option (List Nat)
  beginTransaction : δ → δ × Worker τ
  commitTransaction : δ → τ → δ × Worker Unit
  rollbackTransaction : δ → τ → δ × Worker Unit
  savepoint : δ → τ → Bytes → δ
  rollbackTo : δ → τ → Bytes → Except Unit δ
  release : δ → τ → Bytes → Except Unit δ
  tableColumns : δ → Bytes → Worker (List Bytes)
  bulkInsert : δ → Bytes → List Bytes → List (List Bytes) → δ × Worker Unit

/-- COPY FROM STDIN under way, and whether a simple query has started it. -/
structure CopyState where
  cmd : CopyCommand
  buf : Bytes
  simple : Bool
  deriving DecidableEq

structure Connection (σ τ : Type) where
  prepared : Std.ExtTreeMap Bytes (PreparedStatement σ) compare
  portals : Std.ExtTreeMap Bytes Portal compare
  currentTxn : Option τ
  txnFailed : Bool
  copying : Option CopyState
  closed : Bool

/-- A statement that is handed to the engine. -/
inductive Execution (σ : Type) where
  | simple (sql : Bytes)
  | bound (template : PreparedTemplate σ) (values : List BoundValue)
  | copy (cmd : CopyCommand)
  | copyRows (cmd : CopyCommand) (rows : List (List Bytes))
  deriving DecidableEq

/-- What one message leads to. -/
structure Outcome (δ σ τ : Type) where
  db : δ
  connection : Connection σ τ
  responses : List Response
  ran : List (Execution σ)

variable {δ σ τ : Type}

namespace Connection

def new : Connection σ τ := ⟨∅, ∅, none, false, none, false⟩

/-- The loop is left: nothing is read from this client any more. -/
def close (c : Connection σ τ) : Connection σ τ := { c with closed := true }

def status (c : Connection σ τ) : TxnStatus :=
  if c.txnFailed then .failed else if c.currentTxn.isSome then .inTransaction else .idle

end Connection

def Outcome.answer (d : δ) (c : Connection σ τ) (responses : List Response) : Outcome δ σ τ :=
  ⟨d, c, responses, []⟩

/-- After a simple query the client is told that the next one may come. -/
def Outcome.ready (o : Outcome δ σ τ) : Outcome δ σ τ :=
  if o.connection.closed then o
  else { o with responses := o.responses ++ [.readyForQuery o.connection.status] }

def writeError (sqlstate message : Bytes) : Response := .errorResponse ⟨sqlstate, message⟩

def statementMissing (name : Bytes) : Response :=
  writeError (ascii "26000") (ascii "prepared statement \"" ++ name ++ ascii "\" does not exist")

def portalMissing (name : Bytes) : Response :=
  writeError (ascii "34000") (ascii "portal \"" ++ name ++ ascii "\" does not exist")

def txnAborted : Response :=
  writeError (ascii "25P02")
    (ascii "current transaction is aborted, commands ignored until end of transaction block")

def outsideBlock (command : Bytes) : Response :=
  writeError (ascii "25P01") (command ++ ascii " can only be used in transaction blocks")

def noSuchSavepoint (name : Bytes) : Response :=
  writeError (ascii "3B001") (ascii "no such savepoint: " ++ name)

def writeQueryResult (result : Except ErrorInfo QueryResult) (described : Bool)
    (oids : Option (List Nat)) (formats : Option (List Int)) : List Response :=
  match result with
  | .ok r => [.queryResult r described oids formats]
  | .error e => [.errorResponse e]

def writeDescribeRows (columns : Option (List Bytes)) (oids : Option (List Nat)) : List Response :=
  match columns with
  | some (c :: cs) => [.rowDescription (c :: cs) oids]
  | _ => [.noData]

section Loop

variable (D : Database δ σ τ) (ic : Interceptors)

/-- A nested BEGIN changes nothing, and a failed block commits as a rollback. -/
def handleTxnControl (d : δ) (c : Connection σ τ) : TxnControl → Outcome δ σ τ
  | .begin =>
    match c.currentTxn with
    | some _ => .answer d c [.commandComplete (ascii "BEGIN")]
    | none =>
      let r := D.beginTransaction d
      match r.2 with
      | some (.ok t) =>
        .answer r.1 { c with currentTxn := some t, txnFailed := false }
          [.commandComplete (ascii "BEGIN")]
      | _ => .answer r.1 c.close []
  | .commit =>
    match c.currentTxn with
    | none => .answer d c [.commandComplete (ascii "COMMIT")]
    | some t =>
      if c.txnFailed then
        let r := D.rollbackTransaction d t
        match r.2 with
        | none => .answer r.1 { c with currentTxn := none }.close []
        | some _ => .answer r.1 { c with currentTxn := none, txnFailed := false }
            [.commandComplete (ascii "ROLLBACK")]
      else
        let r := D.commitTransaction d t
        match r.2 with
        | none => .answer r.1 { c with currentTxn := none }.close []
        | some (.ok _) =>
          .answer r.1 { c with currentTxn := none } [.commandComplete (ascii "COMMIT")]
        | some (.error e) => .answer r.1 { c with currentTxn := none } [.errorResponse e]
  | .rollback =>
    match c.currentTxn with
    | none => .answer d c [.commandComplete (ascii "ROLLBACK")]
    | some t =>
      let r := D.rollbackTransaction d t
      match r.2 with
      | none => .answer r.1 { c with currentTxn := none }.close []
      | some _ => .answer r.1 { c with currentTxn := none, txnFailed := false }
          [.commandComplete (ascii "ROLLBACK")]
  | .savepoint name =>
    match c.currentTxn with
    | none => .answer d c [outsideBlock (ascii "SAVEPOINT")]
    | some t => .answer (D.savepoint d t name) c [.commandComplete (ascii "SAVEPOINT")]
  | .rollbackTo name =>
    match c.currentTxn with
    | none => .answer d c [outsideBlock (ascii "ROLLBACK TO SAVEPOINT")]
    | some t =>
      match D.rollbackTo d t name with
      | .ok d => .answer d { c with txnFailed := false } [.commandComplete (ascii "ROLLBACK")]
      | .error _ => .answer d c [noSuchSavepoint name]
  | .release name =>
    match c.currentTxn with
    | none => .answer d c [outsideBlock (ascii "RELEASE SAVEPOINT")]
    | some t =>
      match D.release d t name with
      | .ok d => .answer d c [.commandComplete (ascii "RELEASE")]
      | .error _ => .answer d c [noSuchSavepoint name]

/-- An error of a statement inside a block fails the block. -/
def Connection.note (c : Connection σ τ) (result : Except ErrorInfo QueryResult) : Connection σ τ :=
  match result with
  | .ok _ => c
  | .error _ => { c with txnFailed := true }

def runSimpleQueryTxn (d : δ) (c : Connection σ τ) (sql : Bytes) : Outcome δ σ τ :=
  match ic.parseTxnControl sql with
  | some ctrl => handleTxnControl D d c ctrl
  | none =>
    if c.txnFailed then .answer d c [txnAborted]
    else
      match ic.tryHandlePgCatalog sql with
      | some r => .answer d c [.queryResult r true none none]
      | none =>
        match c.currentTxn with
        | some t =>
          let r := D.executeInTxn d t sql
          match r.2 with
          | none => ⟨r.1, c.close, [], [.simple sql]⟩
          | some result => ⟨r.1, c.note result,
              writeQueryResult result true (D.describeResultOids r.1 sql) none, [.simple sql]⟩
        | none =>
          let r := D.execute d sql
          match r.2 with
          | none => ⟨r.1, c.close, [], [.simple sql]⟩
          | some result => ⟨r.1, c,
              writeQueryResult result true (D.describeResultOids r.1 sql) none, [.simple sql]⟩

def copyProjection (columns : List Bytes) : Bytes :=
  match columns with
  | [] => ascii "*"
  | c :: cs => c ++ cs.flatMap fun name => ascii ", " ++ name

/-- All columns of the table if the command names none. -/
def CopyCommand.numCols (cmd : CopyCommand) (columns : List Bytes) : Nat :=
  if cmd.columns = [] then columns.length else cmd.columns.length

/-- The rows go out as text lines. -/
def runCopyOut (c : Connection σ τ) (cmd : CopyCommand) (numCols : Nat)
    (r : δ × Worker QueryResult) : Outcome δ σ τ :=
  match r.2 with
  | none => ⟨r.1, c.close, [], [.copy cmd]⟩
  | some (.ok (.rows rows)) =>
    let width := (rows.head?.map List.length).getD numCols
    let lines := rows.map fun row =>
      Response.copyData (encodeTextRow (row.map Prod.snd) ++ [10])
    ⟨r.1, c, .copyOutResponse (width % 2 ^ 16) :: (lines ++ [.copyDone,
      .commandComplete (ascii "COPY " ++ natDigits rows.length)]), [.copy cmd]⟩
  | some (.ok _) => ⟨r.1, c, [.copyOutResponse (numCols % 2 ^ 16), .copyDone,
      .commandComplete (ascii "COPY 0")], [.copy cmd]⟩
  | some (.error e) => ⟨r.1, c, [.errorResponse e], [.copy cmd]⟩

/-- COPY FROM STDIN goes on with the next frames of the client. -/
def runCopy (d : δ) (c : Connection σ τ) (cmd : CopyCommand) (simple : Bool) : Outcome δ σ τ :=
  match D.tableColumns d cmd.table with
  | none => ⟨d, c.close, [], [.copy cmd]⟩
  | some (.error e) => ⟨d, c, [.errorResponse e], [.copy cmd]⟩
  | some (.ok columns) =>
    match cmd.direction with
    | .copyIn => ⟨d, { c with copying := some ⟨cmd, [], simple⟩ },
        [.copyInResponse (cmd.numCols columns % 2 ^ 16)], [.copy cmd]⟩
    | .copyOut => runCopyOut c cmd (cmd.numCols columns) (D.execute d
        (ascii "SELECT " ++ copyProjection cmd.columns ++ ascii " FROM " ++ cmd.table))

/-- The frames of COPY FROM STDIN; Flush and Sync are skipped among them. -/
def serveCopy (d : δ) (c : Connection σ τ) (s : CopyState) : FrontendMessage → Outcome δ σ τ
  | .copyData data => .answer d { c with copying := some { s with buf := s.buf ++ data } } []
  | .copyDone =>
    let rows := copyRows s.buf
    let ended := { c with copying := none }
    let r := D.bulkInsert d s.cmd.table s.cmd.columns rows
    match r.2 with
    | none => ⟨r.1, ended.close, [], [.copyRows s.cmd rows]⟩
    | some result =>
      let response := match result with
        | .ok _ => .commandComplete (ascii "COPY " ++ natDigits rows.length)
        | .error e => .errorResponse e
      let o := ⟨r.1, ended, [response], [.copyRows s.cmd rows]⟩
      if s.simple then Outcome.ready o else o
  | .copyFail message =>
    let o := .answer d { c with copying := none }
      [writeError (ascii "57014") (ascii "COPY from stdin failed: " ++ message)]
    if s.simple then Outcome.ready o else o
  | .flush | .sync => .answer d c []
  | _ => .answer d c.close []

/-- COPY is recognised before the parser is asked. -/
def serveParse (d : δ) (c : Connection σ τ) (statement query : Bytes) (paramTypes : List Int) :
    Outcome δ σ τ :=
  match ic.parseCopy query with
  | some cmd => .answer d { c with prepared := c.prepared.insert statement (.copy cmd) }
      [.parseComplete]
  | none =>
    match D.prepare d query with
    | none => .answer d c.close []
    | some (.ok template) =>
      .answer d { c with prepared := c.prepared.insert statement (.normal template paramTypes) }
        [.parseComplete]
    | some (.error e) => .answer d c [.errorResponse e]

/-- The portal that a Bind makes, or the error it is answered with. -/
def Connection.bound (c : Connection σ τ) (statement : Bytes) (paramFormats : List Int)
    (params : List (Option Bytes)) (resultFormats : List Int) : Except Response Portal :=
  match c.prepared[statement]? with
  | none => .error (statementMissing statement)
  | some (.copy _) => .ok ⟨statement, [], []⟩
  | some (.normal _ paramTypes) =>
    match bindPortal paramTypes statement paramFormats params resultFormats with
    | .ok p => .ok p
    | .error message => .error (writeError (ascii "22023") message)

def serveBind (d : δ) (c : Connection σ τ) (portal statement : Bytes) (paramFormats : List Int)
    (params : List (Option Bytes)) (resultFormats : List Int) : Outcome δ σ τ :=
  match c.bound statement paramFormats params resultFormats with
  | .ok p => .answer d { c with portals := c.portals.insert portal p } [.bindComplete]
  | .error response => .answer d c [response]

def describeStatement (c : Connection σ τ) (name : Bytes) : List Response :=
  match c.prepared[name]? with
  | none => [statementMissing name]
  | some (.copy _) => [.parameterDescription [], .noData]
  | some (.normal template paramTypes) =>
    .parameterDescription (resolveParamOids paramTypes template.paramCount) ::
      writeDescribeRows template.columns template.columnTypeOids

/-- The columns come from the statement that now has the name the portal refers to. -/
def describePortal (c : Connection σ τ) (name : Bytes) : List Response :=
  match c.portals[name]? with
  | none => [portalMissing name]
  | some p =>
    match c.prepared[p.statement]? with
    | some (.normal template _) => writeDescribeRows template.columns template.columnTypeOids
    | _ => writeDescribeRows none none

/-- The rows of a bound statement go out without a description. -/
def runBound (c : Connection σ τ) (template : PreparedTemplate σ) (p : Portal) (inTxn : Bool)
    (r : δ × Worker QueryResult) : Outcome δ σ τ :=
  match r.2 with
  | none => ⟨r.1, c.close, [], [.bound template p.values]⟩
  | some result => ⟨r.1, if inTxn then c.note result else c,
      writeQueryResult result false template.columnTypeOids (some p.resultFormats),
      [.bound template p.values]⟩

/-- A portal runs the statement that now has the name it refers to. -/
def serveExecute (d : δ) (c : Connection σ τ) (portal : Bytes) : Outcome δ σ τ :=
  match c.portals[portal]? with
  | none => .answer d c [portalMissing portal]
  | some p =>
    match c.prepared[p.statement]? with
    | none => .answer d c [statementMissing p.statement]
    | some (.copy cmd) => runCopy D d c cmd false
    | some (.normal template _) =>
      if c.txnFailed then .answer d c [txnAborted]
      else
        match c.currentTxn with
        | some t => runBound c template p true (D.executeBoundInTxn d t template p.values)
        | none => runBound c template p false (D.executeBound d template p.values)

def serveClose (d : δ) (c : Connection σ τ) (kind : UInt8) (name : Bytes) : Outcome δ σ τ :=
  if kind = kindStatement then
    .answer d { c with prepared := c.prepared.erase name } [.closeComplete]
  else .answer d { c with portals := c.portals.erase name } [.closeComplete]

def copyInBlock : Response :=
  writeError (ascii "0A000") (ascii "COPY inside an explicit transaction is not supported (v1)")

def serveQuery (d : δ) (c : Connection σ τ) (sql : Bytes) : Outcome δ σ τ :=
  match ic.parseCopy sql with
  | some cmd =>
    if c.currentTxn.isSome then (Outcome.answer d c [copyInBlock]).ready
    else
      let o := runCopy D d c cmd true
      if o.connection.copying.isSome then o else o.ready
  | none => (runSimpleQueryTxn D ic d c sql).ready

def serveMessage (d : δ) (c : Connection σ τ) : FrontendMessage → Outcome δ σ τ
  | .query sql => serveQuery D ic d c sql
  | .parse statement query paramTypes => serveParse D ic d c statement query paramTypes
  | .bind portal statement paramFormats params resultFormats =>
    serveBind d c portal statement paramFormats params resultFormats
  | .describe kind name =>
    .answer d c (if kind = kindStatement then describeStatement c name else describePortal c name)
  | .execute portal _ => serveExecute D d c portal
  | .close kind name => serveClose d c kind name
  | .sync => .answer d c [.readyForQuery c.status]
  | .flush => .answer d c []
  | .terminate => .answer d c.close []
  | .copyData _ | .copyDone | .copyFail _ | .malformed => .answer d c.close []

/-- One turn of the query loop. -/
def serve (d : δ) (c : Connection σ τ) (m : FrontendMessage) : Outcome δ σ τ :=
  if c.closed then .answer d c []
  else
    match c.copying with
    | some s => serveCopy D d c s m
    | none => serveMessage D ic d c m

/-- The next message of the client, or other connections have changed the database. -/
inductive Arrival (δ : Type) where
  | message (m : FrontendMessage)
  | world (d : δ)

variable {D ic}

theorem serve_of_closed {d : δ} {c : Connection σ τ} (closed : c.closed = true)
    (m : FrontendMessage) : serve D ic d c m = .answer d c [] := by
  rw [serve, if_pos closed]

end Loop

end GalaxDb.Server
