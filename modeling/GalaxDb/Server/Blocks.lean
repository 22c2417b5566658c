import GalaxDb.Server.Locks

/-!
# Transaction blocks

What a transaction block promises: nothing of it is committed before its COMMIT, after an
error nothing happens in it until it is rolled back, and the status that the client is told
is that of the block. The rule is kept here beside the loop, as a state of its own. The loop
follows it for the statements it hands to the open transaction; a COPY that is executed
through a portal and errors of other messages are not looked at.
-/

namespace GalaxDb.Server

open Bytes Sql Run Response

/-- The control command of a simple query. -/
def Interceptors.control (ic : Interceptors) : FrontendMessage → Option TxnControl
  | .query sql => if (ic.parseCopy sql).isSome then none else ic.parseTxnControl sql
  | _ => none

/-- The commands that a failed block waits for. -/
def TxnControl.recovers : TxnControl → Bool
  | .commit | .rollback | .rollbackTo _ => true
  | .begin | .savepoint _ | .release _ => false

/-- The rule for a block: it is opened by BEGIN, fails with the first error, goes on after a
successful ROLLBACK TO, and ends with COMMIT or ROLLBACK. -/
def TxnStatus.after (s : TxnStatus) (control : Option TxnControl) (error : Bool) : TxnStatus :=
  match control with
  | some .begin => if s = .idle then .inTransaction else s
  | some .commit | some .rollback => .idle
  | some (.rollbackTo _) => if s = .idle then .idle else if error then .failed else .inTransaction
  | some (.savepoint _) | some (.release _) | none =>
    if s = .inTransaction ∧ error = true then .failed else s

def Outcome.errs {δ σ τ : Type} (o : Outcome δ σ τ) : Bool := o.responses.any isError

/-- The database, the connection, and the state of its block by the rule. -/
structure Blocks (σ : Type) where
  db : Shared
  connection : Connection σ Timestamp
  block : TxnStatus

def CopyCommand.select (cmd : CopyCommand) : Bytes :=
  ascii "SELECT " ++ copyProjection cmd.columns ++ ascii " FROM " ++ cmd.table

section Loop

variable {σ : Type} (L : Surroundings σ) (cfg : Settings) (ic : Interceptors)

def Blocks.next (w : Blocks σ) : Arrival Shared → Blocks σ
  | .world d => { w with db := d }
  | .message m =>
    let o := serve (database L cfg) ic w.db w.connection m
    ⟨o.db, o.connection, w.block.after (ic.control m) o.errs⟩

def Blocks.step (w : Blocks σ) (a : Arrival Shared) : Option (Blocks σ) :=
  some (w.next L cfg ic a)

/-- An open block keeps its effects to itself, a failed one has none, and the client is told
the state of the block. -/
def Contained (w : Blocks σ) : Arrival Shared → Prop
  | .world _ => True
  | .message m =>
    let o := serve (database L cfg) ic w.db w.connection m
    (w.block ≠ .idle → (ic.control m = some .commit → w.block = .failed) →
        o.db.engine = w.db.engine) ∧
      (w.block = .failed → (∀ ctrl, ic.control m = some ctrl → ctrl.recovers = false) →
        o.db = w.db) ∧
      ∀ status, .readyForQuery status ∈ o.responses → status = w.block.after (ic.control m) o.errs

/-- A COPY TO STDOUT that reads the table and nothing else. -/
def CopyReads (d : Shared) (cmd : CopyCommand) : Prop :=
  cmd.direction = .copyOut ∧ (L.execute d.engine cmd.select).1 = d.engine

/-- In an open block, messages that are not statements of the transaction succeed. -/
def Succeeds (d : Shared) (c : Connection σ Timestamp) (t : Timestamp) : FrontendMessage → Prop
  | .query sql => ic.parseCopy sql = none ∧ match ic.parseTxnControl sql with
    | some (.rollbackTo name) => (d.rollbackTo t name).isOk
    | some (.release name) => (d.release t name).isOk
    | _ => True
  | .parse _ query _ => ic.parseCopy query = none → ∀ e, L.prepare d.engine query ≠ some (.error e)
  | .bind _ statement paramFormats params resultFormats =>
    (c.bound statement paramFormats params resultFormats).isOk
  | .describe kind name =>
    if kind = kindStatement then c.prepared[name]? ≠ none else c.portals[name]? ≠ none
  | .execute portal _ => ∃ p s, c.portals[portal]? = some p ∧ c.prepared[p.statement]? = some s ∧
    ∀ cmd, s = .copy cmd →
      CopyReads L d cmd ∧ (∀ e, L.tableColumns d.engine cmd.table ≠ some (.error e)) ∧
      ∀ e, (L.execute d.engine cmd.select).2 ≠ some (.error e)
  | _ => True

/-- In a failed block, savepoints are neither set nor released, and no COPY writes. -/
def Refrains (d : Shared) (c : Connection σ Timestamp) (t : Timestamp) : FrontendMessage → Prop
  | .query sql => ic.parseCopy sql = none → match ic.parseTxnControl sql with
    | some (.savepoint _) => False
    | some (.release name) => (d.release t name).isOk = false
    | _ => True
  | .execute portal _ => ∀ p cmd, c.portals[portal]? = some p →
    c.prepared[p.statement]? = some (.copy cmd) → CopyReads L d cmd
  | _ => True

/-- What a client keeps to inside of a block. -/
def Regular (w : Blocks σ) : Arrival Shared → Prop
  | .world _ => True
  | .message m => w.connection.closed = false → ∀ t, w.connection.currentTxn = some t →
    if w.connection.txnFailed then Refrains L ic w.db w.connection t m
    else Succeeds L ic w.db w.connection t m

/-- The rule and the variables of the loop say the same, and COPY FROM STDIN is outside. -/
structure Agrees {τ : Type} (c : Connection σ τ) (block : TxnStatus) : Prop where
  status : block = c.status
  opened : c.txnFailed = true → c.currentTxn ≠ none
  copying : c.copying ≠ none → c.currentTxn = none

/-- What one message has to keep to. -/
structure InBlock (d : Shared) (c : Connection σ Timestamp) (m : FrontendMessage)
    (o : Outcome Shared σ Timestamp) : Prop where
  engine : c.status ≠ .idle → (ic.control m = some .commit → c.status = .failed) →
    o.db.engine = d.engine
  quiet : c.status = .failed → (∀ ctrl, ic.control m = some ctrl → ctrl.recovers = false) → o.db = d
  told : ∀ status, .readyForQuery status ∈ o.responses →
    o.connection.closed = false ∧ status = o.connection.status
  agrees : o.connection.closed = false → Agrees o.connection (c.status.after (ic.control m) o.errs)

variable {L cfg ic} {d : Shared} {c : Connection σ Timestamp} {m : FrontendMessage}
  {o : Outcome Shared σ Timestamp}

theorem status_of_failed {τ : Type} {c : Connection σ τ} (failed : c.txnFailed = true) :
    c.status = .failed := by
  simp [Connection.status, failed]

theorem status_of_open {τ : Type} {c : Connection σ τ} {t : τ} (here : c.currentTxn = some t)
    (fine : c.txnFailed = false) : c.status = .inTransaction := by
  simp [Connection.status, fine, here]

variable {block : TxnStatus} {sql : Bytes}

theorem Agrees.idle {τ : Type} {c : Connection σ τ} (agrees : Agrees c block)
    (here : c.currentTxn = none) : c.status = .idle := by
  have fine : c.txnFailed = false := by
    by_contra failed
    exact agrees.opened (by simpa using failed) here
  simp [Connection.status, fine, here]

theorem InBlock.ready (kept : InBlock ic d c m o) : InBlock ic d c m o.ready := by
  unfold Outcome.ready
  split
  · exact kept
  · next running =>
    have running : o.connection.closed = false := by simpa using running
    refine ⟨kept.engine, kept.quiet, ?_, ?_⟩
    · intro status told
      rcases List.mem_append.mp told with before | last
      · exact kept.told status before
      · cases List.mem_singleton.mp last
        exact ⟨running, rfl⟩
    · intro _
      have same :
          Outcome.errs { o with responses := o.responses ++ [.readyForQuery o.connection.status] } =
          o.errs := by
        simp [Outcome.errs, isError]
      rw [same]
      exact kept.agrees running

/-- Messages that leave the block as it is. -/
theorem InBlock.of_same (agrees : Agrees c block) (db : c.status ≠ .idle → o.db = d)
    (txn : o.connection.currentTxn = c.currentTxn) (failed : o.connection.txnFailed = c.txnFailed)
    (copying : o.connection.copying ≠ none → c.currentTxn = none)
    (told : ∀ status, .readyForQuery status ∈ o.responses →
      o.connection.closed = false ∧ status = o.connection.status)
    (stays : c.status.after (ic.control m) o.errs = c.status) : InBlock ic d c m o := by
  have same : o.connection.status = c.status := by
    simp [Connection.status, txn, failed]
  refine ⟨fun inside _ => by rw [db inside], ?_, told, ?_⟩
  · intro failed _
    exact db (by simp [failed])
  intro _
  refine ⟨by rw [stays, same], ?_, ?_⟩
  · rw [failed, txn]
    exact agrees.opened
  · rw [txn]
    exact copying

/-- The loop is left. -/
theorem InBlock.of_closed (db :
    c.status ≠ .idle → o.db.engine = d.engine ∧ (c.status = .failed → o.db = d))
    (closed : o.connection.closed = true) (silent : o.responses = []) : InBlock ic d c m o := by
  refine ⟨fun inside _ => (db inside).1, ?_, ?_, ?_⟩
  · intro failed _
    exact (db (by simp [failed])).2 failed
  · simp [silent]
  · simp [closed]

/-- Outside of a block only the status counts. -/
theorem InBlock.of_idle (agrees : Agrees c block) (here : c.currentTxn = none)
    (told : ∀ status, .readyForQuery status ∈ o.responses →
      o.connection.closed = false ∧ status = o.connection.status)
    (after : o.connection.closed = false →
      Agrees o.connection (TxnStatus.idle.after (ic.control m) o.errs)) : InBlock ic d c m o := by
  have idle := agrees.idle here
  refine ⟨?_, ?_, told, ?_⟩
  · intro inside
    exact absurd idle inside
  · intro failed
    rw [idle] at failed
    cases failed
  · rw [idle]
    exact after

theorem InBlock.answer (agrees : Agrees c block) (responses : List Response)
    (silent : ∀ status, .readyForQuery status ∉ responses)
    (stays : c.status.after (ic.control m) (responses.any isError) = c.status) :
    InBlock ic d c m (.answer d c responses) :=
  .of_same agrees (fun _ => rfl) rfl rfl agrees.copying
    (fun status told => absurd told (silent status)) stays

/-- Errors fail a block only if it is open and has not failed. -/
theorem after_of_not_open {s : TxnStatus} {control : Option TxnControl} {error : Bool}
    (plain : control = none ∨ ∃ name, control = some (.savepoint name) ∨
      control = some (.release name))
    (fine : s = .inTransaction → error = false) : s.after control error = s := by
  rcases plain with rfl | ⟨name, rfl | rfl⟩ <;> simp only [TxnStatus.after] <;> split
  all_goals first | rfl | (rename_i both; simp [fine both.1] at both)

section Control

variable {L : Surroundings σ} {cfg : Settings}

theorem handleTxnControl_begin (agrees : Agrees c c.status) (outside : c.copying = none)
    (control : ic.control m = some .begin) :
    InBlock ic d c m (handleTxnControl (database L cfg) d c .begin) := by
  simp only [handleTxnControl]
  cases here : c.currentTxn with
  | some t =>
    refine .answer agrees _ (by simp) ?_
    rw [control, TxnStatus.after, if_neg]
    simp only [Connection.status, here]
    split <;> simp
  | none =>
    simp only [database, Shared.beginTransaction]
    refine .of_idle agrees here (by simp [Outcome.answer]) ?_
    intro _
    rw [control]
    exact ⟨rfl, by rintro ⟨⟩, fun copying => absurd outside copying⟩

/-- After COMMIT and ROLLBACK the connection is outside of blocks. -/
theorem agrees_idle {c' : Connection σ Timestamp} (here : c'.currentTxn = none)
    (fine : c'.txnFailed = false) : Agrees c' .idle := by
  refine ⟨?_, ?_, fun _ => here⟩
  · simp [Connection.status, fine, here]
  · simp [fine]

theorem rollbackTransaction_engine (id : Timestamp) :
    (d.rollbackTransaction id).1.engine = d.engine := by
  unfold Shared.rollbackTransaction
  split <;> rfl

theorem handleTxnControl_rollback (agrees : Agrees c c.status)
    (control : ic.control m = some .rollback) :
    InBlock ic d c m (handleTxnControl (database L cfg) d c .rollback) := by
  simp only [handleTxnControl]
  cases here : c.currentTxn with
  | none =>
    refine .answer agrees _ (by simp) ?_
    rw [control, agrees.idle here]
    rfl
  | some t =>
    simp only [database]
    split
    · refine ⟨fun _ _ => rollbackTransaction_engine t, ?_, by simp [Outcome.answer], by rintro ⟨⟩⟩
      intro _ plain
      cases plain _ control
    · refine ⟨fun _ _ => rollbackTransaction_engine t, ?_, by simp [Outcome.answer], ?_⟩
      · intro _ plain
        cases plain _ control
      · intro _
        rw [control]
        exact agrees_idle rfl rfl

theorem handleTxnControl_commit (agrees : Agrees c c.status)
    (control : ic.control m = some .commit) :
    InBlock ic d c m (handleTxnControl (database L cfg) d c .commit) := by
  simp only [handleTxnControl]
  cases here : c.currentTxn with
  | none =>
    refine .answer agrees _ (by simp) ?_
    rw [control, agrees.idle here]
    rfl
  | some t =>
    by_cases failed : c.txnFailed = true
    · simp only [failed, if_true, database]
      split
      · refine ⟨fun _ _ => rollbackTransaction_engine t, ?_, by simp [Outcome.answer], by rintro ⟨⟩⟩
        intro _ plain
        cases plain _ control
      · refine ⟨fun _ _ => rollbackTransaction_engine t, ?_, by simp [Outcome.answer], ?_⟩
        · intro _ plain
          cases plain _ control
        · intro _
          rw [control]
          exact agrees_idle rfl rfl
    · have fine : c.txnFailed = false := by simpa using failed
      have inside : c.status = .inTransaction := status_of_open here fine
      simp only [fine, Bool.false_eq_true, if_false]
      have commits : ∀ {o : Outcome Shared σ Timestamp},
          (∀ status, .readyForQuery status ∉ o.responses) →
          (o.connection.closed = false → Agrees o.connection .idle) → InBlock ic d c m o := by
        intro o silent after
        refine ⟨?_, ?_, fun status told => absurd told (silent status), ?_⟩
        · intro _ only
          rw [inside] at only
          cases only control
        · rw [inside]
          rintro ⟨⟩
        · rw [control]
          exact after
      split
      · exact commits (by simp [Outcome.answer]) (by rintro ⟨⟩)
      · exact commits (by simp [Outcome.answer]) fun _ => agrees_idle rfl rfl
      · exact commits (by simp [Outcome.answer]) fun _ => agrees_idle rfl rfl

/-- A command inside of a block that has not failed, and that does not end it. -/
theorem InBlock.of_open {t : Timestamp} (here : c.currentTxn = some t)
    (fine : c.txnFailed = false) (engine : o.db.engine = d.engine)
    (txn : o.connection.currentTxn = some t) (copying : o.connection.copying = none)
    (told : ∀ status, .readyForQuery status ∈ o.responses →
      o.connection.closed = false ∧ status = o.connection.status)
    (after : o.connection.closed = false →
      o.connection.status = TxnStatus.inTransaction.after (ic.control m) o.errs) :
    InBlock ic d c m o := by
  have inside : c.status = .inTransaction := status_of_open here fine
  refine ⟨fun _ _ => engine, ?_, told, ?_⟩
  · rw [inside]
    nofun
  · intro running
    rw [inside]
    refine ⟨(after running).symm, ?_, ?_⟩
    · rw [txn]
      nofun
    · rw [copying]
      nofun

variable {name : Bytes}

theorem handleTxnControl_savepoint (agrees : Agrees c c.status) (outside : c.copying = none)
    (control : ic.control m = some (.savepoint name))
    (fine : ∀ t, c.currentTxn = some t → c.txnFailed = false) :
    InBlock ic d c m (handleTxnControl (database L cfg) d c (.savepoint name)) := by
  simp only [handleTxnControl]
  cases here : c.currentTxn with
  | none =>
    refine .answer agrees _ (by simp [outsideBlock, writeError]) ?_
    rw [control, agrees.idle here]
    rfl
  | some t =>
    have engine : (d.savepoint t name).engine = d.engine := by
      unfold Shared.savepoint
      split <;> rfl
    refine .of_open here (fine t here) engine here outside (by simp [Outcome.answer]) ?_
    intro _
    rw [control]
    exact status_of_open here (fine t here)

theorem handleTxnControl_rollbackTo (agrees : Agrees c c.status) (outside : c.copying = none)
    (control : ic.control m = some (.rollbackTo name))
    (known : ∀ t, c.currentTxn = some t → c.txnFailed = false → (d.rollbackTo t name).isOk) :
    InBlock ic d c m (handleTxnControl (database L cfg) d c (.rollbackTo name)) := by
  simp only [handleTxnControl]
  cases here : c.currentTxn with
  | none =>
    refine .answer agrees _ (by simp [outsideBlock, writeError]) ?_
    rw [control, agrees.idle here]
    rfl
  | some t =>
    simp only [database]
    have open_ : c.status ≠ .idle := by
      simp only [Connection.status, here]
      split <;> simp
    cases undone : d.rollbackTo t name with
    | ok d' =>
      have engine : d'.engine = d.engine := by
        unfold Shared.rollbackTo at undone
        split at undone
        · cases undone
        · split at undone
          · cases undone
          · cases undone
            rfl
      refine ⟨fun _ _ => engine, ?_, by simp [Outcome.answer], ?_⟩
      · intro _ plain
        cases plain _ control
      · intro _
        rw [control, TxnStatus.after, if_neg open_]
        exact ⟨rfl, by rintro ⟨⟩, fun copying => absurd outside copying⟩
    | error e =>
      have failed : c.txnFailed = true := by
        by_contra fine
        have ok := known t here (by simpa using fine)
        rw [undone] at ok
        cases ok
      refine .answer agrees _ (by simp [noSuchSavepoint, writeError]) ?_
      rw [control, status_of_failed failed]
      rfl

theorem handleTxnControl_release (agrees : Agrees c c.status) (outside : c.copying = none)
    (control : ic.control m = some (.release name))
    (known : ∀ t, c.currentTxn = some t → (d.release t name).isOk = !c.txnFailed) :
    InBlock ic d c m (handleTxnControl (database L cfg) d c (.release name)) := by
  simp only [handleTxnControl]
  cases here : c.currentTxn with
  | none =>
    refine .answer agrees _ (by simp [outsideBlock, writeError]) ?_
    rw [control, agrees.idle here]
    rfl
  | some t =>
    have found := known t here
    simp only [database]
    cases released : d.release t name with
    | ok d' =>
      have fine : c.txnFailed = false := by
        rw [released] at found
        simpa [Except.isOk, Except.toBool] using found
      have engine : d'.engine = d.engine := by
        unfold Shared.release at released
        split at released
        · cases released
        · split at released
          · cases released
          · cases released
            rfl
      refine .of_open here fine engine here outside (by simp [Outcome.answer]) ?_
      intro _
      rw [control]
      exact status_of_open here fine
    | error e =>
      have failed : c.txnFailed = true := by
        rw [released] at found
        simpa [Except.isOk, Except.toBool] using found
      refine .answer agrees _ (by simp [noSuchSavepoint, writeError]) ?_
      rw [control, status_of_failed failed]
      rfl

end Control

theorem executeInTxn_engine (id : Timestamp)
    (stmts : Except ErrorInfo (List (Except ErrorInfo SessionStatement))) :
    (d.executeInTxn L cfg id stmts).1.engine = d.engine := by
  unfold Shared.executeInTxn
  split <;> rfl

theorem errs_writeQueryResult (result : Except ErrorInfo QueryResult) (described : Bool)
    (oids : Option (List Nat)) (formats : Option (List Int)) :
    (writeQueryResult result described oids formats).any isError = !result.isOk := by
  cases result <;> rfl

theorem silent_writeQueryResult (result : Except ErrorInfo QueryResult) (described : Bool)
    (oids : Option (List Nat)) (formats : Option (List Int)) (status : TxnStatus) :
    .readyForQuery status ∉ writeQueryResult result described oids formats := by
  cases result <;> simp [writeQueryResult]

/-- A statement of the open transaction. -/
theorem InBlock.statement {t : Timestamp} (here : c.currentTxn = some t) (fine :
    c.txnFailed = false)
    (outside : c.copying = none) (control : ic.control m = none)
    {r : Except ErrorInfo QueryResult} {described : Bool} {oids : Option (List Nat)}
    {formats : Option (List Int)} {ran : List (Execution σ)} {d' : Shared}
    (engine : d'.engine = d.engine) :
    InBlock ic d c m ⟨d', c.note r, writeQueryResult r described oids formats, ran⟩ := by
  refine .of_open here fine engine ?_ ?_ ?_ ?_
  · rw [(c.note_frame r).1, here]
  · cases r <;> exact outside
  · intro status told
    exact absurd told (silent_writeQueryResult r described oids formats status)
  · intro _
    rw [control]
    cases r with
    | ok result => exact status_of_open here fine
    | error e => exact status_of_failed rfl

/-- The part of `Regular` that is about one message. -/
def RegularAt (L : Surroundings σ) (ic : Interceptors) (d : Shared) (c : Connection σ Timestamp)
    (m : FrontendMessage) : Prop :=
  ∀ t, c.currentTxn = some t → if c.txnFailed then Refrains L ic d c t m else Succeeds L ic d c t m

theorem handleTxnControl_inBlock (agrees : Agrees c c.status) (outside : c.copying = none)
    (plain : ic.parseCopy sql = none) {ctrl : TxnControl}
    (parsed : ic.parseTxnControl sql = some ctrl) (regular : RegularAt L ic d c (.query sql)) :
    InBlock ic d c (.query sql) (handleTxnControl (database L cfg) d c ctrl) := by
  have control : ic.control (.query sql) = some ctrl := by
    simp [Interceptors.control, plain, parsed]
  cases ctrl with
  | begin => exact handleTxnControl_begin agrees outside control
  | commit => exact handleTxnControl_commit agrees control
  | rollback => exact handleTxnControl_rollback agrees control
  | savepoint name =>
    refine handleTxnControl_savepoint agrees outside control ?_
    intro t here
    have kept := regular t here
    by_contra failed
    simp [failed, Refrains, plain, parsed] at kept
  | rollbackTo name =>
    refine handleTxnControl_rollbackTo agrees outside control ?_
    intro t here fine
    have kept := regular t here
    simpa [fine, Succeeds, plain, parsed] using kept
  | release name =>
    refine handleTxnControl_release agrees outside control ?_
    intro t here
    have kept := regular t here
    cases fine : c.txnFailed with
    | true => simpa [fine, Refrains, plain, parsed] using kept
    | false => simpa [fine, Succeeds, plain, parsed] using kept

theorem runSimpleQueryTxn_inBlock (agrees : Agrees c c.status) (outside : c.copying = none)
    (plain : ic.parseCopy sql = none) (regular : RegularAt L ic d c (.query sql)) :
    InBlock ic d c (.query sql) (runSimpleQueryTxn (database L cfg) ic d c sql) := by
  simp only [runSimpleQueryTxn]
  cases parsed : ic.parseTxnControl sql with
  | some ctrl => exact handleTxnControl_inBlock agrees outside plain parsed regular
  | none =>
    have control : ic.control (.query sql) = none := by
      simp [Interceptors.control, plain, parsed]
    cases failed : c.txnFailed with
    | true =>
      refine .answer agrees _ (by simp [txnAborted, writeError]) ?_
      rw [control, status_of_failed failed]
      rfl
    | false =>
      simp only [Bool.false_eq_true, if_false]
      split
      · refine .answer agrees _ (by simp) (after_of_not_open (.inl control) ?_)
        simp [isError]
      · cases here : c.currentTxn with
        | some t =>
          have engine := @executeInTxn_engine σ L cfg d t (L.parseTxn sql)
          simp only [database]
          split
          · refine .of_closed (fun _ => ⟨engine, ?_⟩) rfl rfl
            rw [status_of_open here failed]
            rintro ⟨⟩
          · exact .statement here failed outside control engine
        | none =>
          simp only
          split
          · refine .of_idle agrees here (by simp) (by rintro ⟨⟩)
          · refine .of_idle agrees here ?_ ?_
            · intro status told
              exact absurd told (silent_writeQueryResult _ _ _ _ status)
            · intro _
              rw [control]
              exact ⟨(agrees.idle here).symm, agrees.opened, fun _ => here⟩

/-- The rows of a COPY TO STDOUT are read in the committed state. -/
theorem runCopyOut_inBlock (agrees : Agrees c c.status) (control : ic.control m = none)
    (cmd : CopyCommand) (numCols : Nat) {r : Shared × Worker QueryResult}
    (db : c.status ≠ .idle → r.1 = d)
    (fine : c.status = .inTransaction → ∀ e, r.2 ≠ some (.error e)) :
    InBlock ic d c m (runCopyOut c cmd numCols r) := by
  unfold runCopyOut
  split
  · refine .of_closed ?_ rfl rfl
    intro inside
    exact ⟨by rw [db inside], fun _ => db inside⟩
  · refine .of_same agrees db rfl rfl agrees.copying (by simp) (after_of_not_open (.inl control) ?_)
    simp [Outcome.errs, isError]
  · refine .of_same agrees db rfl rfl agrees.copying (by simp) (after_of_not_open (.inl control) ?_)
    simp [Outcome.errs, isError]
  · next e failed =>
    refine .of_same agrees db rfl rfl agrees.copying (by simp) (after_of_not_open (.inl control) ?_)
    intro inside
    exact absurd failed (fine inside e)

/-- COPY outside of a block, or one that reads and, unless the block has failed, succeeds. -/
theorem runCopy_inBlock (agrees : Agrees c c.status) (control : ic.control m = none)
    (cmd : CopyCommand) (simple : Bool)
    (reads : c.currentTxn ≠ none → CopyReads L d cmd)
    (fine : c.status = .inTransaction → (∀ e, L.tableColumns d.engine cmd.table ≠ some (.error e)) ∧
      ∀ e, (L.execute d.engine cmd.select).2 ≠ some (.error e)) :
    InBlock ic d c m (runCopy (database L cfg) d c cmd simple) := by
  have inside : c.status ≠ .idle → c.currentTxn ≠ none := fun other here => other (agrees.idle here)
  unfold runCopy
  split
  · exact .of_closed (fun _ => ⟨rfl, fun _ => rfl⟩) rfl rfl
  · next e failed =>
    refine .of_same agrees (fun _ => rfl) rfl rfl agrees.copying (by simp)
      (after_of_not_open (.inl control) ?_)
    intro opened
    exact absurd failed ((fine opened).1 e)
  · next columns _ =>
    split
    · next direction =>
      refine .of_same agrees (fun _ => rfl) rfl rfl ?_ (by simp)
        (after_of_not_open (.inl control) ?_)
      · intro _
        by_contra opened
        have other := (reads opened).1
        rw [direction] at other
        cases other
      · simp [Outcome.errs, isError]
    · refine runCopyOut_inBlock agrees control cmd _ ?_ fun opened => (fine opened).2
      intro other
      have same := (reads (inside other)).2
      simp only [database, Shared.engineCall]
      rw [← CopyCommand.select, same]

theorem serveQuery_inBlock (agrees : Agrees c c.status) (outside : c.copying = none)
    (regular : RegularAt L ic d c (.query sql)) :
    InBlock ic d c (.query sql) (serveQuery (database L cfg) ic d c sql) := by
  unfold serveQuery
  split
  · next cmd copies =>
    have control : ic.control (.query sql) = none := by simp [Interceptors.control, copies]
    split
    · next opened =>
      obtain ⟨t, here⟩ := Option.isSome_iff_exists.mp opened
      refine InBlock.ready (.answer agrees _ (by simp [copyInBlock, writeError]) ?_)
      refine after_of_not_open (.inl control) ?_
      intro inside
      have kept := regular t here
      have fine : c.txnFailed = false := by
        by_contra failed
        rw [status_of_failed (by simpa using failed)] at inside
        cases inside
      simp [fine, Succeeds, copies] at kept
    · next closed =>
      have here : c.currentTxn = none := by simpa using closed
      have kept : InBlock ic d c (.query sql) (runCopy (database L cfg) d c cmd true) := by
        refine runCopy_inBlock agrees control cmd true (fun opened => absurd here opened) ?_
        rw [agrees.idle here]
        nofun
      simp only
      split
      · exact kept
      · exact kept.ready
  · next plain => exact (runSimpleQueryTxn_inBlock agrees outside plain regular).ready

/-- An `Execute` message keeps the status of the block. -/
theorem serveExecute_inBlock (agrees : Agrees c c.status) (outside : c.copying = none)
    {portal : Bytes} {maxRows : Int} (regular : RegularAt L ic d c (.execute portal maxRows)) :
    InBlock ic d c (.execute portal maxRows) (serveExecute (database L cfg) d c portal) := by
  have control : ic.control (.execute portal maxRows) = none := rfl
  have found : c.status = .inTransaction → ∃ t, c.currentTxn = some t ∧
      Succeeds L ic d c t (.execute portal maxRows) := by
    intro opened
    cases here : c.currentTxn with
    | none =>
      rw [agrees.idle here] at opened
      cases opened
    | some t =>
      have kept := regular t here
      have fine : c.txnFailed = false := by
        by_contra failed
        rw [status_of_failed (by simpa using failed)] at opened
        cases opened
      rw [fine] at kept
      exact ⟨t, rfl, kept⟩
  unfold serveExecute
  split
  · next missing =>
    refine .answer agrees _ (by simp [portalMissing, writeError])
      (after_of_not_open (.inl control) ?_)
    intro opened
    obtain ⟨_, _, p, _, there, _⟩ := found opened
    rw [missing] at there
    cases there
  · next p here =>
    split
    · next missing =>
      refine .answer agrees _ (by simp [statementMissing, writeError])
        (after_of_not_open (.inl control) ?_)
      intro opened
      obtain ⟨_, _, p', _, there, stored, _⟩ := found opened
      rw [here] at there
      cases there
      rw [missing] at stored
      cases stored
    · next cmd stored =>
      have succeeds : c.status = .inTransaction → CopyReads L d cmd ∧
          (∀ e, L.tableColumns d.engine cmd.table ≠ some (.error e)) ∧
            ∀ e, (L.execute d.engine cmd.select).2 ≠ some (.error e) := by
        intro opened
        obtain ⟨_, _, p', s, there, stored', copies⟩ := found opened
        rw [here] at there
        cases there
        rw [stored] at stored'
        cases stored'
        exact copies cmd rfl
      refine runCopy_inBlock agrees control cmd false ?_ fun opened => (succeeds opened).2
      intro opened
      obtain ⟨t, current⟩ := Option.ne_none_iff_exists'.mp opened
      have kept := regular t current
      cases failed : c.txnFailed with
      | true =>
        rw [failed] at kept
        exact kept p cmd here stored
      | false => exact (succeeds (status_of_open current failed)).1
    · next template _ _ =>
      cases failed : c.txnFailed with
      | true =>
        refine .answer agrees _ (by simp [txnAborted, writeError]) ?_
        rw [control, status_of_failed failed]
        rfl
      | false =>
        simp only [Bool.false_eq_true, if_false]
        cases current : c.currentTxn with
        | some t =>
          have engine := @executeInTxn_engine σ L cfg d t (L.bindTxn template p.values)
          simp only [database, runBound]
          split
          · refine .of_closed (fun _ => ⟨engine, ?_⟩) rfl rfl
            rw [status_of_open current failed]
            rintro ⟨⟩
          · exact .statement current failed outside control engine
        | none =>
          simp only [runBound]
          split
          · exact .of_idle agrees current (by simp) (by rintro ⟨⟩)
          · refine .of_idle agrees current ?_ ?_
            · intro status told
              exact absurd told (silent_writeQueryResult _ _ _ _ status)
            · intro _
              exact ⟨(agrees.idle current).symm, agrees.opened, fun _ => current⟩

theorem open_of_status {τ : Type} {c : Connection σ τ} (agrees : Agrees c block)
    (opened : c.status = .inTransaction) : ∃ t, c.currentTxn = some t ∧ c.txnFailed = false := by
  cases here : c.currentTxn with
  | none =>
    rw [agrees.idle here] at opened
    cases opened
  | some t =>
    by_contra failed
    rw [status_of_failed (by simpa using failed)] at opened
    cases opened

/-- Each message keeps the status of the block. -/
theorem serveMessage_inBlock (agrees : Agrees c c.status) (outside : c.copying = none)
    (running : c.closed = false) (regular : RegularAt L ic d c m) :
    InBlock ic d c m (serveMessage (database L cfg) ic d c m) := by
  have leave : InBlock ic d c m (.answer d c.close []) :=
    .of_closed (fun _ => ⟨rfl, fun _ => rfl⟩) rfl rfl
  have same : ∀ {o : Outcome Shared σ Timestamp}, ic.control m = none → o.db = d →
      o.connection.currentTxn = c.currentTxn → o.connection.txnFailed = c.txnFailed →
      o.connection.copying = c.copying → (∀ status, .readyForQuery status ∉ o.responses) →
      (c.status = .inTransaction → o.errs = false) → InBlock ic d c m o := by
    intro o control db txn failed copying silent fine
    refine .of_same agrees (fun _ => db) txn failed ?_
      (fun status told => absurd told (silent status))
      (after_of_not_open (.inl control) fine)
    rw [copying]
    exact agrees.copying
  have succeeds : c.status = .inTransaction → ∃ t, Succeeds L ic d c t m := by
    intro opened
    obtain ⟨t, here, fine⟩ := open_of_status agrees opened
    have kept := regular t here
    rw [fine] at kept
    exact ⟨t, kept⟩
  cases m with
  | query sql => exact serveQuery_inBlock agrees outside regular
  | execute portal maxRows => exact serveExecute_inBlock agrees outside regular
  | parse statement query paramTypes =>
    simp only [serveMessage, serveParse]
    split
    · exact same rfl rfl rfl rfl rfl (by simp [Outcome.answer]) fun _ => rfl
    · next plain =>
      split
      · exact leave
      · exact same rfl rfl rfl rfl rfl (by simp [Outcome.answer]) fun _ => rfl
      · next e failed =>
        refine same rfl rfl rfl rfl rfl (by simp [Outcome.answer]) ?_
        intro opened
        obtain ⟨_, parses⟩ := succeeds opened
        exact absurd failed (parses plain e)
  | bind portal statement paramFormats params resultFormats =>
    simp only [serveMessage, serveBind]
    split
    · exact same rfl rfl rfl rfl rfl (by simp [Outcome.answer]) fun _ => rfl
    · next response failed =>
      have shape : ∃ sqlstate message, response = writeError sqlstate message := by
        unfold Connection.bound at failed
        split at failed
        · cases failed
          exact ⟨_, _, rfl⟩
        · cases failed
        · split at failed
          · cases failed
          · cases failed
            exact ⟨_, _, rfl⟩
      obtain ⟨sqlstate, message, rfl⟩ := shape
      refine same rfl rfl rfl rfl rfl (by simp [Outcome.answer, writeError]) ?_
      intro opened
      obtain ⟨_, binds⟩ := succeeds opened
      simp only [Succeeds, failed] at binds
      cases binds
  | describe kind name =>
    simp only [serveMessage]
    split
    · next statement =>
      unfold describeStatement
      split
      · next missing =>
        refine same rfl rfl rfl rfl rfl (by simp [Outcome.answer, statementMissing, writeError]) ?_
        intro opened
        obtain ⟨_, known⟩ := succeeds opened
        simp [Succeeds, statement, missing] at known
      · exact same rfl rfl rfl rfl rfl (by simp [Outcome.answer]) fun _ => rfl
      · refine same rfl rfl rfl rfl rfl ?_ fun _ => ?_
        · unfold writeDescribeRows
          split <;> simp [Outcome.answer]
        · unfold writeDescribeRows
          split <;> simp [Outcome.errs, Outcome.answer, isError]
    · next other =>
      unfold describePortal
      split
      · next missing =>
        refine same rfl rfl rfl rfl rfl (by simp [Outcome.answer, portalMissing, writeError]) ?_
        intro opened
        obtain ⟨_, known⟩ := succeeds opened
        simp [Succeeds, other, missing] at known
      · refine same rfl rfl rfl rfl rfl ?_ fun _ => ?_
        · unfold writeDescribeRows
          repeat' split
          all_goals simp [Outcome.answer]
        · unfold writeDescribeRows
          repeat' split
          all_goals simp [Outcome.errs, Outcome.answer, isError]
  | close kind name =>
    simp only [serveMessage, serveClose]
    split <;> exact same rfl rfl rfl rfl rfl (by simp [Outcome.answer]) fun _ => rfl
  | sync =>
    refine .of_same agrees (fun _ => rfl) rfl rfl agrees.copying ?_
      (after_of_not_open (.inl rfl) fun _ => rfl)
    intro status told
    cases List.mem_singleton.mp told
    exact ⟨running, rfl⟩
  | flush => exact same rfl rfl rfl rfl rfl (by simp [serveMessage, Outcome.answer]) fun _ => rfl
  | terminate => exact leave
  | copyData data => exact leave
  | copyDone => exact leave
  | copyFail message => exact leave
  | malformed => exact leave

/-- COPY FROM STDIN under way, and so outside of a block. -/
theorem serveCopy_inBlock (agrees : Agrees c c.status) {s : CopyState} (inside :
    c.copying = some s) :
    InBlock ic d c m (serveCopy (database L cfg) d c s m) := by
  have here : c.currentTxn = none := agrees.copying (by simp [inside])
  have fine : c.txnFailed = false := by
    by_contra failed
    exact agrees.opened (by simpa using failed) here
  have leave : InBlock ic d c m (.answer d c.close []) :=
    .of_closed (fun _ => ⟨rfl, fun _ => rfl⟩) rfl rfl
  have outside : ∀ {o : Outcome Shared σ Timestamp}, ic.control m = none →
      o.connection.currentTxn = none → o.connection.txnFailed = false →
      (∀ status, .readyForQuery status ∉ o.responses) → InBlock ic d c m o := by
    intro o control txn failed silent
    refine .of_idle agrees here (fun status told => absurd told (silent status)) ?_
    intro _
    rw [control]
    exact agrees_idle txn failed
  cases m with
  | copyDone =>
    simp only [serveCopy]
    split
    · exact outside rfl here fine (by simp)
    · next result _ =>
      split
      · refine (outside rfl here fine ?_).ready
        cases result <;> simp
      · refine outside rfl here fine ?_
        cases result <;> simp
  | copyFail message =>
    simp only [serveCopy]
    split
    · exact (outside rfl here fine (by simp [Outcome.answer, writeError])).ready
    · exact outside rfl here fine (by simp [Outcome.answer, writeError])
  | copyData data | flush | sync =>
    exact outside rfl here fine (by simp [serveCopy, Outcome.answer])
  | _ => exact leave

/-- The state of the block by the rule is that of the loop, as long as the loop runs. -/
def Blocks.Agreed (w : Blocks σ) : Prop :=
  w.connection.closed = false → Agrees w.connection w.block

theorem serve_inBlock {w : Blocks σ} (agreed : w.Agreed) (running : w.connection.closed = false)
    (regular : Regular L ic w (.message m)) :
    InBlock ic w.db w.connection m (serve (database L cfg) ic w.db w.connection m) := by
  have agrees : Agrees w.connection w.connection.status :=
    ⟨rfl, (agreed running).opened, (agreed running).copying⟩
  unfold serve
  rw [if_neg (by simp [running])]
  split
  · next s inside => exact serveCopy_inBlock agrees inside
  · next outside => exact serveMessage_inBlock agrees outside running (regular running)

variable {a : Arrival Shared} {w : Blocks σ}

theorem contained_of_regular (agreed : w.Agreed) (regular : Regular L ic w a) :
    Contained L cfg ic w a := by
  cases a with
  | world d => trivial
  | message m =>
    simp only [Contained]
    by_cases closed : w.connection.closed = true
    · rw [serve_of_closed closed]
      exact ⟨fun _ _ => rfl, fun _ _ => rfl, nofun⟩
    · have running : w.connection.closed = false := by simpa using closed
      have kept := @serve_inBlock σ L cfg ic m w agreed running regular
      have status := (agreed running).status
      rw [status]
      refine ⟨kept.engine, kept.quiet, ?_⟩
      intro s told
      obtain ⟨open_, rfl⟩ := kept.told s told
      exact (kept.agrees open_).status.symm

theorem agreed_next (agreed : w.Agreed) (regular : Regular L ic w a) :
    (w.next L cfg ic a).Agreed := by
  cases a with
  | world d => exact agreed
  | message m =>
    intro open_
    by_cases closed : w.connection.closed = true
    · simp only [Blocks.next] at open_
      rw [serve_of_closed closed] at open_
      simp [Outcome.answer, closed] at open_
    · have running : w.connection.closed = false := by simpa using closed
      have kept := @serve_inBlock σ L cfg ic m w agreed running regular
      simp only [Blocks.next]
      rw [(agreed running).status]
      exact kept.agrees open_

/-- As long as the client keeps COPY out of its blocks, messages other than statements do not
fail there, and savepoints are not touched in a failed block, a block contains its effects
and the client is told its state. -/
theorem block_contains_effects (L : Surroundings σ) (cfg : Settings) (ic : Interceptors) (d :
    Shared)
    {arrivals : List (Arrival Shared)}
    (regular : Along (Blocks.step L cfg ic) (Regular L ic) ⟨d, .new, .idle⟩ arrivals) :
    Along (Blocks.step L cfg ic) (Contained L cfg ic) ⟨d, .new, .idle⟩ arrivals := by
  have preserved : ∀ (w : Blocks σ) (a : Arrival Shared) (w' : Blocks σ), w.Agreed →
      Regular L ic w a → w.step L cfg ic a = some w' → w'.Agreed := by
    intro w a w' agreed here h
    cases h
    exact agreed_next agreed here
  have shows : ∀ (w : Blocks σ) (a : Arrival Shared), w.Agreed → Regular L ic w a →
      Contained L cfg ic w a := fun w a agreed here => contained_of_regular agreed here
  have fresh : (⟨d, .new, .idle⟩ : Blocks σ).Agreed := fun _ => agrees_idle rfl rfl
  exact regular.of_invariant preserved shows fresh

end Loop

/-- A block with two statements, of which the second fails. -/
def failingBlock : List (Arrival Shared) :=
  [.message (.query (ascii "BEGIN")), .message (.query (ascii "INSERT INTO t VALUES (1, 5)")),
    .message (.query (ascii "INSERT INTO t VALUES (1, 5)")), .message .sync]

theorem contained_failingBlock : Along (Blocks.step insertingOne .numbers controlTexts)
        (Contained insertingOne .numbers controlTexts)
        ⟨⟨Engine.fresh .plain .default, .new, ∅⟩, .new, .idle⟩ failingBlock ∧
      (run (Blocks.step insertingOne .numbers controlTexts)
        ⟨⟨Engine.fresh .plain .default, .new, ∅⟩, .new, .idle⟩ failingBlock).map Blocks.block =
          some .failed := by
  have plain : ∀ a ∈ failingBlock, a = .message .sync ∨ ∃ sql, a = .message (.query sql) ∧
      (controlTexts.parseTxnControl sql = none ∨ controlTexts.parseTxnControl sql = some .begin) :=
        by
    intro a here
    simp only [failingBlock, List.mem_cons, List.not_mem_nil, or_false] at here
    rcases here with rfl | rfl | rfl | rfl
    · exact .inr ⟨_, rfl, .inr rfl⟩
    · exact .inr ⟨_, rfl, .inl rfl⟩
    · exact .inr ⟨_, rfl, .inl rfl⟩
    · exact .inl rfl
  refine ⟨?_, by decide +kernel⟩
  apply block_contains_effects
  refine (along_of_forall _ plain).mono ?_
  intro w a plain
  rcases plain with rfl | ⟨sql, rfl, parsed⟩
  · intro _ t _
    split <;> trivial
  · intro _ t _
    rcases parsed with parsed | parsed
    · split
      · simp [Refrains, parsed]
      · simp only [Succeeds, parsed]
        exact ⟨rfl, trivial⟩
    · split
      · simp [Refrains, parsed]
      · simp only [Succeeds, parsed]
        exact ⟨rfl, trivial⟩

/-- Around a database in which COPY FROM STDIN inserts one row. -/
def copyingOne : Surroundings Unit :=
  { insertingOne with
    bulkInsert := fun e _ _ _ =>
      insertingOne.applyWrites e [(ascii "t:9", some (ascii "9"))] }

def copyTexts : Interceptors :=
  { controlTexts with
    parseCopy := fun sql =>
      if sql = ascii "COPY t FROM STDIN" then some ⟨ascii "t", [], .copyIn⟩ else none }

/-- COPY in a block, through the extended protocol. -/
def copyInOpenBlock : List (Arrival Shared) :=
  [.message (.parse [] (ascii "COPY t FROM STDIN") []), .message (.query (ascii "BEGIN")),
    .message (.bind [] [] [] [] []), .message (.execute [] 0), .message (.copyData (ascii "9")),
    .message .copyDone]

/-- The COPY of an open block is committed at once; and a COPY that the block refuses leaves
it open, as the client is told. -/
theorem copy_escapes_block :
    ¬ Along (Blocks.step copyingOne .numbers copyTexts) (Contained copyingOne .numbers copyTexts)
        ⟨⟨Engine.fresh .plain .default, .new, ∅⟩, .new, .idle⟩ copyInOpenBlock ∧
      ¬ Along (Blocks.step copyingOne .numbers copyTexts) (Contained copyingOne .numbers copyTexts)
        ⟨⟨Engine.fresh .plain .default, .new, ∅⟩, .new, .idle⟩
        [.message (.query (ascii "BEGIN")), .message (.query (ascii "COPY t FROM STDIN"))] := by
  constructor
  · intro along
    have contained := (((((along.2 _ rfl).2 _ rfl).2 _ rfl).2 _ rfl).2 _ rfl).1
    have engine := contained.1 (by decide +kernel) nofun
    have same := congrArg Engine.nextTimestamp engine
    revert same
    decide +kernel
  · intro along
    have told := (along.2 _ rfl).1.2.2 .inTransaction (by decide +kernel)
    revert told
    decide +kernel

end GalaxDb.Server
