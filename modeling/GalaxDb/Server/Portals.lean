import GalaxDb.Server.Series

/-!
# Portals

What a Bind promises: an Execute of the portal runs the statement it was bound to, once, and
sends the rows of its result in parts of at most `max_rows`. The loop keeps only the name of
the statement, looks it up at every Execute, and never reads `max_rows`.
-/

namespace GalaxDb.Server

open Std Bytes Run Outcome Function

/-- A row that goes to the client: one of a result, or a line of COPY. -/
inductive SentRow where
  | data (cells : List (Bytes × Bytes))
  | line (text : Bytes)
  deriving DecidableEq

def Response.rows : Response → List SentRow
  | .queryResult (.rows rows) _ _ _ => rows.map .data
  | .copyData line => [.line line]
  | _ => []

variable {δ σ τ : Type}

def Outcome.rows (o : Outcome δ σ τ) : List SentRow := o.responses.flatMap Response.rows

/-- The first `max_rows` rows; zero stands for no limit. -/
def limited (maxRows : Int) (rows : List SentRow) : List SentRow :=
  if 0 < maxRows then rows.take maxRows.toNat else rows

/-- What the engine is handed for a statement. -/
def PreparedStatement.execution (values : List BoundValue) : PreparedStatement σ → Execution σ
  | .normal template _ => .bound template values
  | .copy cmd => .copy cmd

/-- A failed block takes no statement but COPY. -/
def Connection.blocks (c : Connection σ τ) : PreparedStatement σ → Bool
  | .normal _ _ => c.txnFailed
  | .copy _ => false

section Loop

variable (D : Database δ σ τ) (ic : Interceptors)

/-- The second half of an Execute, when the portal and its statement are found. -/
def runPrepared (d : δ) (c : Connection σ τ) (p : Portal) : PreparedStatement σ → Outcome δ σ τ
  | .copy cmd => runCopy D d c cmd false
  | .normal template _ =>
    if c.txnFailed then .answer d c [txnAborted]
    else
      match c.currentTxn with
      | some t => runBound c template p true (D.executeBoundInTxn d t template p.values)
      | none => runBound c template p false (D.executeBound d template p.values)

/-- What a Bind has fixed: the statement of that moment and the portal with its values; once
the statement has run, the rows of its result that are still to be sent. -/
structure Binding (σ : Type) where
  statement : PreparedStatement σ
  portal : Portal
  rest : Option (List SentRow)

/-- What is to happen at an Execute. -/
structure Due (δ σ : Type) where
  db : δ
  ran : List (Execution σ)
  rows : List SentRow

/-- The first Execute runs the bound statement, the later ones run nothing and go on with
the rows of the first. -/
def Binding.due (b : Binding σ) (d : δ) (c : Connection σ τ) : Due δ σ :=
  match b.rest with
  | none =>
    let whole := runPrepared D d c b.portal b.statement
    ⟨whole.db, whole.ran, whole.rows⟩
  | some rest => ⟨d, [], rest⟩

/-- A statement that a failed block has refused is still to run. -/
def Binding.fetched (b : Binding σ) (d : δ) (c : Connection σ τ) (maxRows : Int) : Binding σ :=
  if b.rest.isNone ∧ (b.due D d c).ran = [] then b
  else { b with rest := some ((b.due D d c).rows.drop (limited maxRows (b.due D d c).rows).length) }

/-- The database, the connection, and what the client has bound. -/
structure Bindings (δ σ τ : Type) where
  db : δ
  connection : Connection σ τ
  bound : Bytes → Option (Binding σ)

/-- The connection serves messages, not the frames of a COPY. -/
def Connection.Serving (c : Connection σ τ) : Prop := c.closed = false ∧ c.copying = none

instance (c : Connection σ τ) : Decidable c.Serving := by
  unfold Connection.Serving
  infer_instance

def Bindings.boundBy (w : Bindings δ σ τ) : FrontendMessage → Bytes → Option (Binding σ)
  | .bind portal statement paramFormats params resultFormats =>
    match w.connection.prepared[statement]?,
        w.connection.bound statement paramFormats params resultFormats with
    | some s, .ok p => update w.bound portal (some ⟨s, p, none⟩)
    | _, _ => w.bound
  | .close kind name =>
    if kind = kindStatement then w.bound else update w.bound name none
  | .execute portal maxRows => update w.bound portal
      ((w.bound portal).map fun b => b.fetched D w.db w.connection maxRows)
  | _ => w.bound

def Bindings.next (w : Bindings δ σ τ) : Arrival δ → Bindings δ σ τ
  | .world d => { w with db := d }
  | .message m =>
    let o := serve D ic w.db w.connection m
    ⟨o.db, o.connection, if w.connection.Serving then w.boundBy D m else w.bound⟩

def Bindings.step (w : Bindings δ σ τ) (a : Arrival δ) : Option (Bindings δ σ τ) :=
  some (w.next D ic a)

/-- An Execute does what is due for its portal, and nothing for a portal that is not bound. -/
def ExecutesBound (w : Bindings δ σ τ) : Arrival δ → Prop
  | .message (.execute portal maxRows) => w.connection.Serving →
    let o := serve D ic w.db w.connection (.execute portal maxRows)
    match w.bound portal with
    | none => o.db = w.db ∧ o.ran = [] ∧ o.rows = []
    | some b =>
      let due := b.due D w.db w.connection
      o.db = due.db ∧ o.ran = due.ran ∧ o.rows = limited maxRows due.rows
  | _ => True

/-- The name still stands for what the portal was bound to. In a failed block it is enough
that it does not stand for a COPY. -/
def StillPrepared (c : Connection σ τ) (b : Binding σ) : Prop :=
  if c.blocks b.statement then ∀ cmd, c.prepared[b.portal.statement]? ≠ some (.copy cmd)
  else c.prepared[b.portal.statement]?.map (·.execution b.portal.values) =
    some (b.statement.execution b.portal.values)

/-- A portal is executed while its statement has its name, with a limit that its result does
not reach, and only once. -/
def ExecutedOnce (w : Bindings δ σ τ) : Arrival δ → Prop
  | .message (.execute portal maxRows) => w.connection.Serving → ∀ b, w.bound portal = some b →
      match b.rest with
      | none => StillPrepared w.connection b ∧ (0 < maxRows →
          ((runPrepared D w.db w.connection b.portal b.statement).rows.length : Int) ≤ maxRows)
      | some _ => ExecuteRefused w.connection portal
  | _ => True

variable {D ic} {d : δ} {c : Connection σ τ}

theorem serveExecute_eq (portal : Bytes) : serveExecute D d c portal = match c.portals[portal]? with
      | none => .answer d c [portalMissing portal]
      | some p =>
        match c.prepared[p.statement]? with
        | none => .answer d c [statementMissing p.statement]
        | some s => runPrepared D d c p s := by
  unfold serveExecute
  cases c.portals[portal]? with
  | none => rfl
  | some p =>
    simp only
    cases c.prepared[p.statement]? with
    | none => rfl
    | some s => cases s <;> rfl

theorem runPrepared_ran (p : Portal) (s : PreparedStatement σ) :
    (runPrepared D d c p s).ran = if c.blocks s then [] else [s.execution p.values] := by
  cases s with
  | copy cmd => exact runCopy_ran d c cmd false
  | normal template paramTypes =>
    by_cases failed : c.txnFailed = true
    · simp [runPrepared, Connection.blocks, failed, answer]
    · simp only [runPrepared, Connection.blocks, failed, Bool.false_eq_true, if_false]
      split <;> exact (runBound_frame _ _ _ _).1

variable {s : PreparedStatement σ} {w : Bindings δ σ τ} {p : Portal} {maxRows : Int}

theorem runPrepared_of_blocks (blocked : c.blocks s = true) :
    runPrepared D d c p s = .answer d c [txnAborted] := by
  cases s with
  | copy cmd => cases blocked
  | normal template paramTypes => exact if_pos blocked

/-- Nothing but the execution counts; the declared types have been used by the Bind. -/
theorem runPrepared_congr {s' : PreparedStatement σ}
    (same : s.execution p.values = s'.execution p.values) :
    runPrepared D d c p s = runPrepared D d c p s' := by
  cases s <;> cases s' <;> cases same <;> rfl

theorem limited_eq_self_iff {rows : List SentRow} :
    limited maxRows rows = rows ↔ (0 < maxRows → (rows.length : Int) ≤ maxRows) := by
  unfold limited
  split
  · next positive =>
    rw [List.take_eq_self_iff]
    omega
  · next unlimited => exact iff_of_true rfl fun positive => absurd positive unlimited

/-- The portals of the connection are those the client has bound. -/
def Bindings.Matched (w : Bindings δ σ τ) : Prop :=
  ∀ portal, w.connection.portals[portal]? = (w.bound portal).map Binding.portal

/-- A statement that has run has nothing left to send. -/
def Bindings.Spent (w : Bindings δ σ τ) : Prop :=
  ∀ portal b rest, w.bound portal = some b → b.rest = some rest → rest = []

variable {portal : Bytes}

/-- What the first Execute of a portal does, against what is due. -/
theorem executes_first_iff (found : c.portals[portal]? = some p) :
    ((serveExecute D d c portal).db = (runPrepared D d c p s).db ∧
        (serveExecute D d c portal).ran = (runPrepared D d c p s).ran ∧
          (serveExecute D d c portal).rows = limited maxRows (runPrepared D d c p s).rows) ↔
      StillPrepared c ⟨s, p, none⟩ ∧
        (0 < maxRows → ((runPrepared D d c p s).rows.length : Int) ≤ maxRows) := by
  rw [← limited_eq_self_iff, serveExecute_eq, found, StillPrepared]
  simp only
  by_cases blocked : c.blocks s = true
  · -- The statement is refused, so whatever now has its name must be refused as well.
    have silent : (runPrepared D d c p s).rows = [] := by
      rw [runPrepared_of_blocks blocked]
      rfl
    have short : limited maxRows [] = [] := limited_eq_self_iff.mpr fun positive => by simp; omega
    rw [if_pos blocked, silent, short, runPrepared_of_blocks blocked]
    cases stored : c.prepared[p.statement]? with
    | none =>
      simp only [answer]
      exact iff_of_true ⟨trivial, trivial, rfl⟩ ⟨by rintro _ ⟨⟩, trivial⟩
    | some s' =>
      simp only
      cases s' with
      | copy cmd =>
        constructor
        · rintro ⟨_, ran, _⟩
          rw [runPrepared_ran] at ran
          cases ran
        · rintro ⟨other, _⟩
          exact absurd rfl (other cmd)
      | normal template paramTypes =>
        have failed : c.txnFailed = true := by
          cases s with
          | copy cmd => cases blocked
          | normal template paramTypes => exact blocked
        rw [runPrepared_of_blocks (s := .normal template paramTypes) failed]
        exact iff_of_true ⟨rfl, rfl, rfl⟩ ⟨by rintro _ ⟨⟩, trivial⟩
  · rw [if_neg blocked]
    have runs : (runPrepared D d c p s).ran = [s.execution p.values] := by
      rw [runPrepared_ran, if_neg blocked]
    cases stored : c.prepared[p.statement]? with
    | none =>
      constructor
      · rintro ⟨_, ran, _⟩
        rw [runs] at ran
        cases ran
      · rintro ⟨same, _⟩
        cases same
    | some s' =>
      simp only [Option.map_some, Option.some.injEq]
      constructor
      · rintro ⟨_, ran, rows⟩
        rw [runs, runPrepared_ran] at ran
        split at ran
        · cases ran
        · have same : s'.execution p.values = s.execution p.values := List.cons.inj ran |>.1
          rw [runPrepared_congr same] at rows
          exact ⟨same, rows.symm⟩
      · rintro ⟨same, short⟩
        rw [runPrepared_congr same, short]
        exact ⟨rfl, rfl, rfl⟩

theorem runCopyOut_names (c : Connection σ τ) (cmd : CopyCommand) (numCols : Nat)
    (r : δ × Worker QueryResult) :
    (runCopyOut c cmd numCols r).connection.prepared = c.prepared ∧
      (runCopyOut c cmd numCols r).connection.portals = c.portals := by
  unfold runCopyOut
  split <;> exact ⟨rfl, rfl⟩

theorem runCopy_names (d : δ) (c : Connection σ τ) (cmd : CopyCommand) (simple : Bool) :
    (runCopy D d c cmd simple).connection.prepared = c.prepared ∧
      (runCopy D d c cmd simple).connection.portals = c.portals := by
  unfold runCopy
  split
  · exact ⟨rfl, rfl⟩
  · exact ⟨rfl, rfl⟩
  · split
    · exact ⟨rfl, rfl⟩
    · exact runCopyOut_names _ _ _ _

theorem Connection.note_names (c : Connection σ τ) (result : Except ErrorInfo QueryResult) :
    (c.note result).prepared = c.prepared ∧ (c.note result).portals = c.portals := by
  cases result <;> exact ⟨rfl, rfl⟩

theorem runBound_names (template : PreparedTemplate σ) (p : Portal) (inTxn : Bool)
    (r : δ × Worker QueryResult) :
    (runBound c template p inTxn r).connection.prepared = c.prepared ∧
      (runBound c template p inTxn r).connection.portals = c.portals := by
  unfold runBound
  split
  · exact ⟨rfl, rfl⟩
  · split
    · exact c.note_names _
    · exact ⟨rfl, rfl⟩

/-- An Execute changes neither the statements nor the portals. -/
theorem serveExecute_names (portal : Bytes) :
    (serveExecute D d c portal).connection.prepared = c.prepared ∧
      (serveExecute D d c portal).connection.portals = c.portals := by
  unfold serveExecute
  split
  · exact ⟨rfl, rfl⟩
  · split
    · exact ⟨rfl, rfl⟩
    · exact runCopy_names d c _ false
    · split
      · exact ⟨rfl, rfl⟩
      · split <;> exact runBound_names _ _ _ _

theorem handleTxnControl_portals (ctrl : TxnControl) :
    (handleTxnControl D d c ctrl).connection.portals = c.portals := by
  cases ctrl <;> simp only [handleTxnControl] <;> repeat' split
  all_goals rfl

theorem serveQuery_portals (sql : Bytes) :
    (serveQuery D ic d c sql).connection.portals = c.portals := by
  unfold serveQuery
  split
  · split
    · rw [ready_connection]
      rfl
    · simp only
      split
      · exact (runCopy_names _ _ _ _).2
      · rw [ready_connection]
        exact (runCopy_names _ _ _ _).2
  · rw [ready_connection]
    unfold runSimpleQueryTxn
    split
    · exact handleTxnControl_portals _
    · split
      · rfl
      · split
        · rfl
        · split <;> simp only <;> split
          · rfl
          · exact (c.note_names _).2
          · rfl
          · rfl

theorem serveCopy_portals (s : CopyState) (m : FrontendMessage) :
    (serveCopy D d c s m).connection.portals = c.portals := by
  cases m with
  | copyDone =>
    simp only [serveCopy]
    split
    · rfl
    · split
      · rw [ready_connection]
      · rfl
  | copyFail message =>
    simp only [serveCopy]
    split
    · rw [ready_connection]
      rfl
    · rfl
  | _ => rfl

theorem serveExecute_rows_of_idle (refused : ExecuteRefused c portal) :
    (serveExecute D d c portal).db = d ∧ (serveExecute D d c portal).rows = [] := by
  rw [serveExecute_eq]
  cases found : c.portals[portal]? with
  | none => exact ⟨rfl, rfl⟩
  | some p =>
    simp only
    cases stored : c.prepared[p.statement]? with
    | none => exact ⟨rfl, rfl⟩
    | some s =>
      obtain ⟨failed, plain⟩ := refused p found s stored
      have blocked : c.blocks s = true := by
        cases s with
        | copy cmd => exact absurd rfl (plain cmd)
        | normal template paramTypes => exact failed
      simp only
      rw [runPrepared_of_blocks blocked]
      exact ⟨rfl, rfl⟩

theorem serve_of_serving (serving : c.Serving) (m : FrontendMessage) :
    serve D ic d c m = serveMessage D ic d c m :=
  serve_outside_copy serving.1 serving.2 m

theorem executesBound_iff (matched : w.Matched) (spent : w.Spent) (a : Arrival δ) :
    ExecutesBound D ic w a ↔ ExecutedOnce D w a := by
  cases a with
  | world d => exact Iff.rfl
  | message m =>
    cases m with
    | execute portal maxRows =>
      refine forall_congr' fun serving => ?_
      rw [serve_of_serving serving, serveMessage]
      have found := matched portal
      cases bound : w.bound portal with
      | none =>
        rw [bound, Option.map_none] at found
        rw [serveExecute_eq, found]
        exact iff_of_true ⟨rfl, rfl, rfl⟩ (by rintro _ ⟨⟩)
      | some b =>
        rw [bound, Option.map_some] at found
        simp only [Option.some.injEq, forall_eq']
        obtain ⟨s, p, rest⟩ := b
        cases rest with
        | none => exact executes_first_iff found
        | some rest =>
          obtain rfl := spent portal _ rest bound rfl
          have short : limited maxRows [] = [] :=
            limited_eq_self_iff.mpr fun positive => by simp; omega
          simp only [Binding.due, short]
          constructor
          · rintro ⟨_, ran, _⟩
            apply serveExecute_idle_iff.mp
            obtain ⟨prepared, portals⟩ :=
              serveExecute_names (D := D) (d := w.db) (c := w.connection)
              portal
            exact ⟨prepared, portals, ran⟩
          · intro refused
            obtain ⟨db, rows⟩ := serveExecute_rows_of_idle (D := D) (d := w.db) refused
            exact ⟨db, (serveExecute_idle_iff.mpr refused).ran, rows⟩
    | _ => exact Iff.rfl

theorem Binding.fetched_portal (b : Binding σ) (maxRows : Int) :
    (b.fetched D d c maxRows).portal = b.portal := by
  unfold Binding.fetched
  split <;> rfl

/-- A Bind finds its statement, or it makes no portal. -/
theorem Connection.exists_prepared {statement : Bytes} {paramFormats : List Int}
    {params : List (Option Bytes)} {resultFormats : List Int}
    (made : c.bound statement paramFormats params resultFormats = .ok p) :
    ∃ s, c.prepared[statement]? = some s := by
  unfold Connection.bound at made
  split at made
  · cases made
  · next cmd stored => exact ⟨_, stored⟩
  · next template paramTypes stored => exact ⟨_, stored⟩

theorem matched_boundBy (matched : w.Matched) (m : FrontendMessage) (portal : Bytes) :
    (serveMessage D ic w.db w.connection m).connection.portals[portal]? =
      (w.boundBy D m portal).map Binding.portal := by
  cases m with
  | query sql =>
    rw [serveMessage, serveQuery_portals]
    exact matched portal
  | parse statement query paramTypes =>
    have same : (serveMessage D ic w.db w.connection
        (.parse statement query paramTypes)).connection.portals =
        w.connection.portals := by
      simp only [serveMessage, serveParse]
      repeat' split
      all_goals rfl
    rw [same]
    exact matched portal
  | bind name statement paramFormats params resultFormats =>
    simp only [serveMessage, serveBind, Bindings.boundBy]
    cases made : w.connection.bound statement paramFormats params resultFormats with
    | error response =>
      cases w.connection.prepared[statement]? <;> exact matched portal
    | ok p =>
      obtain ⟨s, stored⟩ := Connection.exists_prepared made
      rw [stored]
      simp only [answer, ExtTreeMap.getElem?_insert, update_apply,
        LawfulEqCmp.compare_eq_iff_eq]
      by_cases here : portal = name
      · simp [here]
      · simp [here, Ne.symm here, matched portal]
  | execute name maxRows =>
    rw [serveMessage, (serveExecute_names name).2, matched portal]
    simp only [Bindings.boundBy, update_apply]
    by_cases here : portal = name
    · subst here
      cases w.bound portal with
      | none => simp
      | some b => simp [b.fetched_portal]
    · simp [here]
  | close kind name =>
    simp only [serveMessage, serveClose, Bindings.boundBy]
    split
    · exact matched portal
    · simp only [answer, ExtTreeMap.getElem?_erase, update_apply,
        LawfulEqCmp.compare_eq_iff_eq]
      by_cases here : portal = name
      · simp [here]
      · simp [here, Ne.symm here, matched portal]
  | _ => exact matched portal

theorem matched_next (matched : w.Matched) (a : Arrival δ) : (w.next D ic a).Matched := by
  cases a with
  | world d => exact matched
  | message m =>
    intro portal
    simp only [Bindings.next]
    by_cases serving : w.connection.Serving
    · rw [if_pos serving, serve_of_serving serving]
      exact matched_boundBy matched m portal
    · rw [if_neg serving, ← matched portal, serve]
      split
      · rfl
      · next running =>
        split
        · next s _ => rw [serveCopy_portals]
        · next outside => exact absurd ⟨by simpa using running, outside⟩ serving

theorem Binding.spent_fetched {b : Binding σ} (fits : b.rest = none → 0 < maxRows →
      ((runPrepared D d c b.portal b.statement).rows.length : Int) ≤ maxRows)
    (spent : ∀ rest, b.rest = some rest → rest = []) (rest : List SentRow)
    (after : (b.fetched D d c maxRows).rest = some rest) : rest = [] := by
  unfold Binding.fetched at after
  split at after
  · exact spent rest after
  · obtain rfl := Option.some.inj after
    apply List.drop_eq_nil_of_le
    cases before : b.rest with
    | none =>
      simp only [Binding.due, before]
      rw [limited_eq_self_iff.mpr (fits before)]
    | some old => simp [Binding.due, before, spent old before]

theorem spent_next (spent : w.Spent) {a : Arrival δ} (once : ExecutedOnce D w a) :
    (w.next D ic a).Spent := by
  cases a with
  | world d => exact spent
  | message m =>
    simp only [Bindings.Spent, Bindings.next]
    by_cases serving : w.connection.Serving
    · rw [if_pos serving]
      intro portal b rest bound left
      cases m with
      | bind name statement paramFormats params resultFormats =>
        simp only [Bindings.boundBy] at bound
        generalize w.connection.prepared[statement]? = stored at bound
        generalize w.connection.bound statement paramFormats params resultFormats = made at bound
        cases stored with
        | none => exact spent portal b rest bound left
        | some s =>
          cases made with
          | error response => exact spent portal b rest bound left
          | ok p =>
            simp only [update_apply] at bound
            split at bound
            · cases bound
              cases left
            · exact spent portal b rest bound left
      | close kind name =>
        simp only [Bindings.boundBy] at bound
        split at bound
        · exact spent portal b rest bound left
        · simp only [update_apply] at bound
          split at bound
          · cases bound
          · exact spent portal b rest bound left
      | execute name maxRows =>
        simp only [Bindings.boundBy, update_apply] at bound
        split at bound
        · obtain ⟨b0, before, rfl⟩ := Option.map_eq_some_iff.mp bound
          have here := once serving b0 before
          refine Binding.spent_fetched ?_ (fun rest => spent name b0 rest before) rest left
          intro first
          rw [first] at here
          exact here.2
        · exact spent portal b rest bound left
      | _ => exact spent portal b rest bound left
    · rw [if_neg serving]
      exact spent

/-- Every Execute of a connection does what is due for its portal exactly if every portal is
executed once, while its statement is there, with a limit that its result does not reach. -/
theorem executes_bound_iff_executed_once (D : Database δ σ τ) (ic : Interceptors) (d : δ)
    (arrivals : List (Arrival δ)) :
    Along (Bindings.step D ic) (ExecutesBound D ic) ⟨d, .new, fun _ => none⟩ arrivals ↔
      Along (Bindings.step D ic) (ExecutedOnce D) ⟨d, .new, fun _ => none⟩ arrivals := by
  have same : ∀ (w : Bindings δ σ τ) (a : Arrival δ), w.Matched ∧ w.Spent →
      (ExecutedOnce D w a ↔ ExecutesBound D ic w a) :=
    fun w a inv => (executesBound_iff inv.1 inv.2 a).symm
  have preserved : ∀ (w : Bindings δ σ τ) (a : Arrival δ) (w' : Bindings δ σ τ),
      w.Matched ∧ w.Spent → ExecutedOnce D w a → w.step D ic a = some w' →
        w'.Matched ∧ w'.Spent := by
    intro w a w' inv once h
    cases h
    exact ⟨matched_next inv.1 a, spent_next inv.2 once⟩
  have fresh : (⟨d, .new, fun _ => none⟩ : Bindings δ σ τ).Matched ∧
      (⟨d, .new, fun _ => none⟩ : Bindings δ σ τ).Spent := by
    refine ⟨?_, nofun⟩
    intro portal
    simp [Connection.new]
  exact (along_iff same preserved fresh).symm

end Loop

/-- The engine answers every bound statement with two rows. -/
def twoRows : Database (List (Bytes × List BoundValue)) Bytes Unit :=
  { remembering with
    executeBound := fun d template values => (d ++ [(template.stmts, values)],
      some (.ok (.rows [[(ascii "id", ascii "1")], [(ascii "id", ascii "2")]]))) }

def insertId : Bytes := ascii "INSERT INTO t VALUES ($1)"

def parsed (query : Bytes) : Arrival (List (Bytes × List BoundValue)) :=
  .message (.parse [] query [Oid.int4])

def boundTo (value : Bytes) : Arrival (List (Bytes × List BoundValue)) :=
  .message (.bind [] [] [] [some value] [])

def executed (maxRows : Int) : Arrival (List (Bytes × List BoundValue)) :=
  .message (.execute [] maxRows)

/-- The portal bound to the DELETE runs the INSERT parsed after it; it runs once for every
Execute; and two rows come where one was asked for. -/
theorem portal_follows_name_and_ignores_limit :
    ¬ Along (Bindings.step remembering plainTexts) (ExecutesBound remembering plainTexts)
        ⟨[], .new, fun _ => none⟩
          [parsed deleteById, boundTo (ascii "7"), parsed insertId, executed 0] ∧
      ¬ Along (Bindings.step remembering plainTexts) (ExecutesBound remembering plainTexts)
        ⟨[], .new, fun _ => none⟩ [parsed insertId, boundTo (ascii "7"), executed 0, executed 0] ∧
      ¬ Along (Bindings.step twoRows plainTexts) (ExecutesBound twoRows plainTexts)
        ⟨[], .new, fun _ => none⟩ [parsed deleteById, boundTo (ascii "7"), executed 1] := by
  refine ⟨?_, ?_, ?_⟩
  · intro along
    have executes := (((along.2 _ rfl).2 _ rfl).2 _ rfl).1 ⟨by decide +kernel, by decide +kernel⟩
    have ran := executes.2.1
    revert ran
    decide +kernel
  · intro along
    have executes := (((along.2 _ rfl).2 _ rfl).2 _ rfl).1 ⟨by decide +kernel, by decide +kernel⟩
    have ran := executes.2.1
    revert ran
    decide +kernel
  · intro along
    have executes := ((along.2 _ rfl).2 _ rfl).1 ⟨by decide +kernel, by decide +kernel⟩
    have rows := executes.2.2
    revert rows
    decide +kernel

end GalaxDb.Server
