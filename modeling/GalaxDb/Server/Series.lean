import GalaxDb.Server.Connection
import GalaxDb.Lib.Run

/-!
# Series of extended-protocol messages

A client sends Parse, Bind and Execute without waiting for the answers, and ends the series
with Sync. The loop has no state in which it skips messages: what comes after an error and
before the Sync is served like anything else.
-/

namespace GalaxDb.Server

open Std Bytes Run Outcome

/-- The messages of a series; a COPY that one of them starts brings its own frames. -/
def FrontendMessage.extended : FrontendMessage → Bool
  | .query _ => false
  | _ => true

/-- A message of the series, or other connections have changed the database. -/
inductive Input (δ : Type) where
  | message (m : FrontendMessage) (extended : m.extended = true)
  | world (d : δ)

/-- The database and the connection, and whether a message since the last Sync was answered
with an error. -/
structure Watched (δ σ τ : Type) where
  db : δ
  connection : Connection σ τ
  errored : Bool

variable {δ σ τ : Type} (D : Database δ σ τ) (ic : Interceptors)

/-- A Sync that COPY skips ends no series. -/
def Watched.ends (w : Watched δ σ τ) (m : FrontendMessage) : Bool :=
  m == .sync && w.connection.copying.isNone

def Watched.next (w : Watched δ σ τ) : Input δ → Watched δ σ τ
  | .world d => { w with db := d }
  | .message m _ =>
    let o := serve D ic w.db w.connection m
    ⟨o.db, o.connection, !w.ends m && (w.errored || o.responses.any Response.isError)⟩

/-- A whole series, message by message. -/
def Watched.step (w : Watched δ σ τ) (i : Input δ) : Option (Watched δ σ τ) := some (w.next D ic i)

/-- After an error the message leaves statements and portals alone and runs nothing. -/
def Silent (w : Watched δ σ τ) : Input δ → Prop
  | .world _ => True
  | .message m _ => w.errored = true →
    (serve D ic w.db w.connection m).connection.prepared = w.connection.prepared ∧
      (serve D ic w.db w.connection m).connection.portals = w.connection.portals ∧
        (serve D ic w.db w.connection m).ran = []

/-- The text parses neither as COPY nor as a statement, or it gives what is stored already. -/
def ParseRefused (d : δ) (c : Connection σ τ) (statement query : Bytes) (paramTypes : List Int) :
    Prop :=
  (∀ cmd, ic.parseCopy query = some cmd → c.prepared[statement]? = some (.copy cmd)) ∧
    (ic.parseCopy query = none → ∀ template, D.prepare d query = some (.ok template) →
      c.prepared[statement]? = some (.normal template paramTypes))

/-- The portal cannot be made, or it is there already. -/
def BindRefused (c : Connection σ τ) (portal statement : Bytes) (paramFormats : List Int)
    (params : List (Option Bytes)) (resultFormats : List Int) : Prop :=
  ∀ p, c.bound statement paramFormats params resultFormats = .ok p → c.portals[portal]? = some p

/-- The portal or its statement is missing, or the transaction block has failed. -/
def ExecuteRefused (c : Connection σ τ) (portal : Bytes) : Prop :=
  ∀ p, c.portals[portal]? = some p → ∀ s, c.prepared[p.statement]? = some s →
    c.txnFailed = true ∧ ∀ cmd, s ≠ .copy cmd

/-- There is nothing to close. -/
def CloseRefused (c : Connection σ τ) (kind : UInt8) (name : Bytes) : Prop :=
  if kind = kindStatement then c.prepared[name]? = none else c.portals[name]? = none

def Refused (d : δ) (c : Connection σ τ) : FrontendMessage → Prop
  | .parse statement query paramTypes => ParseRefused D ic d c statement query paramTypes
  | .bind portal statement paramFormats params resultFormats =>
    BindRefused c portal statement paramFormats params resultFormats
  | .execute portal _ => ExecuteRefused c portal
  | .close kind name => CloseRefused c kind name
  | _ => True

/-- Between an error and the next Sync the client sends only what the loop refuses. -/
def Waits (w : Watched δ σ τ) : Input δ → Prop
  | .world _ => True
  | .message m _ => w.errored = true → w.connection.closed = false →
    Refused D ic w.db w.connection m

variable {D ic}

variable {m : FrontendMessage} {w : Watched δ σ τ} {k portal statement : Bytes}

theorem insert_eq_self_iff {β : Type} {m : ExtTreeMap Bytes β compare} {v : β} :
    m.insert k v = m ↔ m[k]? = some v := by
  constructor
  · intro same
    rw [← same, ExtTreeMap.getElem?_insert_self]
  · intro stored
    apply ExtTreeMap.ext_getElem?
    intro k'
    rw [ExtTreeMap.getElem?_insert]
    split
    · next here => rw [← LawfulEqCmp.eq_of_compare here, stored]
    · rfl

theorem erase_eq_self_iff {β : Type} {m : ExtTreeMap Bytes β compare} :
    m.erase k = m ↔ m[k]? = none := by
  constructor
  · intro same
    rw [← same, ExtTreeMap.getElem?_erase_self]
  · intro absent
    apply ExtTreeMap.ext_getElem?
    intro k'
    rw [ExtTreeMap.getElem?_erase]
    split
    · next here => rw [← LawfulEqCmp.eq_of_compare here, absent]
    · rfl

/-- What a message may not do after an error. -/
structure Outcome.Idle (o : Outcome δ σ τ) (c : Connection σ τ) : Prop where
  prepared : o.connection.prepared = c.prepared
  portals : o.connection.portals = c.portals
  ran : o.ran = []

theorem Outcome.idle_answer (d : δ) (c : Connection σ τ) (responses : List Response) :
    (answer d c responses).Idle c :=
  ⟨rfl, rfl, rfl⟩

theorem Outcome.idle_close (d : δ) (c : Connection σ τ) (responses : List Response) :
    (answer d c.close responses).Idle c :=
  ⟨rfl, rfl, rfl⟩

theorem runCopyOut_frame (c : Connection σ τ) (cmd : CopyCommand) (numCols : Nat)
    (r : δ × Worker QueryResult) :
    (runCopyOut c cmd numCols r).ran = [.copy cmd] ∧
      (runCopyOut c cmd numCols r).connection.copying = c.copying := by
  unfold runCopyOut
  split <;> exact ⟨rfl, rfl⟩

theorem runCopy_ran (d : δ) (c : Connection σ τ) (cmd : CopyCommand) (simple : Bool) :
    (runCopy D d c cmd simple).ran = [.copy cmd] := by
  unfold runCopy
  split
  · rfl
  · rfl
  · split
    · rfl
    · exact (runCopyOut_frame _ _ _ _).1

variable {d : δ} {c : Connection σ τ}

theorem runBound_frame (template : PreparedTemplate σ) (p : Portal) (inTxn : Bool)
    (r : δ × Worker QueryResult) :
    (runBound c template p inTxn r).ran = [.bound template p.values] ∧
      (runBound c template p inTxn r).connection.copying = c.copying := by
  unfold runBound
  split
  · exact ⟨rfl, rfl⟩
  · next result _ =>
    refine ⟨rfl, ?_⟩
    split
    · cases result <;> rfl
    · rfl

theorem serveParse_idle_iff {query : Bytes} {paramTypes : List Int} :
    (serveParse D ic d c statement query paramTypes).Idle c ↔
      ParseRefused D ic d c statement query paramTypes := by
  unfold serveParse ParseRefused
  cases ic.parseCopy query with
  | some cmd =>
    constructor
    · intro idle
      refine ⟨?_, nofun⟩
      rintro _ ⟨⟩
      exact insert_eq_self_iff.mp idle.prepared
    · intro stored
      exact ⟨insert_eq_self_iff.mpr (stored.1 cmd rfl), rfl, rfl⟩
  | none =>
    cases D.prepare d query with
    | none => exact iff_of_true (idle_close d c []) ⟨nofun, nofun⟩
    | some result =>
      cases result with
      | error e => exact iff_of_true (idle_answer d c _) ⟨nofun, nofun⟩
      | ok template =>
        constructor
        · intro idle
          refine ⟨nofun, ?_⟩
          rintro - _ ⟨⟩
          exact insert_eq_self_iff.mp idle.prepared
        · intro stored
          exact ⟨insert_eq_self_iff.mpr (stored.2 rfl template rfl), rfl, rfl⟩

theorem serveBind_idle_iff {paramFormats : List Int} {params : List (Option Bytes)}
    {resultFormats : List Int} :
    (serveBind d c portal statement paramFormats params resultFormats).Idle c ↔
      BindRefused c portal statement paramFormats params resultFormats := by
  unfold serveBind BindRefused
  generalize c.bound statement paramFormats params resultFormats = made
  cases made with
  | error response => exact iff_of_true (idle_answer d c _) nofun
  | ok p =>
    constructor
    · intro idle
      rintro _ ⟨⟩
      exact insert_eq_self_iff.mp idle.portals
    · intro stored
      exact ⟨rfl, insert_eq_self_iff.mpr (stored p rfl), rfl⟩

theorem serveExecute_idle_iff : (serveExecute D d c portal).Idle c ↔ ExecuteRefused c portal := by
  unfold serveExecute ExecuteRefused
  generalize c.portals[portal]? = found
  cases found with
  | none => exact iff_of_true (idle_answer d c _) nofun
  | some p =>
    simp only [Option.some.injEq, forall_eq']
    generalize c.prepared[p.statement]? = stored
    cases stored with
    | none => exact iff_of_true (idle_answer d c _) nofun
    | some s =>
      cases s with
      | copy cmd =>
        constructor
        · intro idle
          have ran := idle.ran
          simp [runCopy_ran] at ran
        · intro refused
          exact absurd rfl ((refused _ rfl).2 cmd)
      | normal template paramTypes =>
        by_cases failed : c.txnFailed = true
        · simp only [failed, if_true]
          refine iff_of_true (idle_answer d c _) ?_
          rintro _ ⟨⟩
          exact ⟨trivial, nofun⟩
        · constructor
          · intro idle
            have ran := idle.ran
            simp only [failed, Bool.false_eq_true, if_false] at ran
            split at ran <;> simp [runBound_frame] at ran
          · intro refused
            exact absurd (refused _ rfl).1 failed

theorem serveClose_idle_iff {kind : UInt8} {name : Bytes} :
    (serveClose d c kind name).Idle c ↔ CloseRefused c kind name := by
  unfold serveClose CloseRefused
  split
  · constructor
    · intro idle
      exact erase_eq_self_iff.mp idle.prepared
    · intro absent
      exact ⟨erase_eq_self_iff.mpr absent, rfl, rfl⟩
  · constructor
    · intro idle
      exact erase_eq_self_iff.mp idle.portals
    · intro absent
      exact ⟨rfl, erase_eq_self_iff.mpr absent, rfl⟩

/-- Outside of COPY the loop acts on exactly what it does not refuse. -/
theorem serveMessage_idle_iff (extended : m.extended = true) :
    (serveMessage D ic d c m).Idle c ↔ Refused D ic d c m := by
  cases m with
  | query sql => cases extended
  | parse statement query paramTypes => exact serveParse_idle_iff
  | bind portal statement paramFormats params resultFormats => exact serveBind_idle_iff
  | execute portal maxRows => exact serveExecute_idle_iff
  | close kind name => exact serveClose_idle_iff
  | describe kind name | sync | flush => exact iff_of_true (idle_answer d c _) trivial
  | terminate | copyData data | copyDone | copyFail message | malformed =>
    exact iff_of_true (idle_close d c _) trivial

theorem serve_outside_copy (closed : c.closed = false) (outside : c.copying = none)
    (m : FrontendMessage) : serve D ic d c m = serveMessage D ic d c m := by
  rw [serve, if_neg (by simp [closed]), outside]

theorem Outcome.ready_connection (o : Outcome δ σ τ) : o.ready.connection = o.connection := by
  unfold ready
  split <;> rfl

/-- COPY ends with the first error. -/
theorem serveCopy_copying (s : CopyState) (m : FrontendMessage) :
    (serveCopy D d c s m).connection.copying = none ∨
      (serveCopy D d c s m).responses.any Response.isError = false := by
  cases m with
  | copyDone =>
    left
    simp only [serveCopy]
    split
    · rfl
    · split
      · rw [ready_connection]
      · rfl
  | copyFail message =>
    left
    simp only [serveCopy]
    split
    · rw [ready_connection]
      rfl
    · rfl
  | _ => exact .inr rfl

theorem runCopy_copying (cmd : CopyCommand) (simple : Bool) (outside : c.copying = none) :
    (runCopy D d c cmd simple).connection.copying = none ∨
      (runCopy D d c cmd simple).responses.any Response.isError = false := by
  unfold runCopy
  split
  · exact .inl outside
  · exact .inl outside
  · split
    · exact .inr rfl
    · exact .inl ((runCopyOut_frame _ _ _ _).2.trans outside)

theorem serveExecute_copying (portal : Bytes) (outside : c.copying = none) :
    (serveExecute D d c portal).connection.copying = none ∨ ((serveExecute D d c portal).ran ≠ [] ∧
        (serveExecute D d c portal).responses.any Response.isError = false) := by
  unfold serveExecute
  split
  · exact .inl outside
  · split
    · exact .inl outside
    · next cmd _ =>
      rcases runCopy_copying cmd false outside with ended | fine
      · exact .inl ended
      · exact .inr ⟨by simp [runCopy_ran], fine⟩
    · split
      · exact .inl outside
      · left
        split <;> rw [(runBound_frame _ _ _ _).2, outside]

/-- COPY starts only with an Execute that is not answered with an error. -/
theorem serveMessage_copying (extended : m.extended = true) (outside : c.copying = none) :
    (serveMessage D ic d c m).connection.copying = none ∨ ((serveMessage D ic d c m).ran ≠ [] ∧
        (serveMessage D ic d c m).responses.any Response.isError = false) := by
  cases m with
  | query sql => cases extended
  | parse statement query paramTypes =>
    left
    simp only [serveMessage, serveParse]
    repeat' split
    all_goals exact outside
  | bind portal statement paramFormats params resultFormats =>
    left
    simp only [serveMessage, serveBind]
    split <;> exact outside
  | execute portal maxRows => exact serveExecute_copying portal outside
  | close kind name =>
    left
    simp only [serveMessage, serveClose]
    split <;> exact outside
  | _ => exact .inl outside

/-- No COPY is under way after an error. -/
def Watched.Outside (w : Watched δ σ τ) : Prop :=
  w.errored = true → w.connection.closed = false → w.connection.copying = none

theorem silent_iff_waits (outside : w.Outside) (i : Input δ) :
    Silent D ic w i ↔ Waits D ic w i := by
  cases i with
  | world d => exact Iff.rfl
  | message m extended =>
    by_cases closed : w.connection.closed = true
    · have idle : Silent D ic w (.message m extended) := by
        intro _
        rw [serve_of_closed closed]
        exact ⟨rfl, rfl, rfl⟩
      refine iff_of_true idle ?_
      intro _ open_
      simp [closed] at open_
    · have running : w.connection.closed = false := by simpa using closed
      constructor
      · intro silent errored _
        obtain ⟨prepared, portals, ran⟩ := silent errored
        rw [serve_outside_copy running (outside errored running)] at prepared portals ran
        exact (serveMessage_idle_iff extended).mp ⟨prepared, portals, ran⟩
      · intro waits errored
        obtain ⟨prepared, portals, ran⟩ :=
          (serveMessage_idle_iff extended).mpr (waits errored running)
        rw [serve_outside_copy running (outside errored running)]
        exact ⟨prepared, portals, ran⟩

theorem outside_next (outside : w.Outside) {i : Input δ} (silent : Silent D ic w i) :
    (w.next D ic i).Outside := by
  cases i with
  | world d => exact outside
  | message m extended =>
    intro errored running
    simp only [Watched.next, Bool.and_eq_true, Bool.or_eq_true] at errored running ⊢
    by_cases closed : w.connection.closed = true
    · rw [serve_of_closed closed] at running
      simp [answer, closed] at running
    · have closed : w.connection.closed = false := by simpa using closed
      cases copying : w.connection.copying with
      | some s =>
        have fine : w.errored = false := by
          by_contra before
          have none := outside (by simpa using before) closed
          simp [copying] at none
        have served : serve D ic w.db w.connection m = serveCopy D w.db w.connection s m := by
          rw [serve, if_neg (by simp [closed]), copying]
        rw [served] at errored ⊢
        simp only [fine, Bool.false_eq_true, false_or] at errored
        exact (serveCopy_copying s m).resolve_right (by simp [errored.2])
      | none =>
        rw [serve_outside_copy closed copying] at errored ⊢
        rcases serveMessage_copying extended copying with ended | started
        · exact ended
        · have before : w.errored = true := errored.2.resolve_right (by simp [started.2])
          have ran := (silent before).2.2
          rw [serve_outside_copy closed copying] at ran
          exact absurd ran started.1

/-- Nothing runs between an error and the next Sync exactly if the client sends nothing there
that the loop does not refuse anyway. -/
theorem nothing_runs_until_sync_iff (D : Database δ σ τ) (ic : Interceptors) (d : δ)
    (c : Connection σ τ) (inputs : List (Input δ)) :
    Along (Watched.step D ic) (Silent D ic) ⟨d, c, false⟩ inputs ↔
      Along (Watched.step D ic) (Waits D ic) ⟨d, c, false⟩ inputs := by
  have same : ∀ (w : Watched δ σ τ) (i : Input δ), w.Outside →
      (Silent D ic w i ↔ Waits D ic w i) := fun w i outside => silent_iff_waits outside i
  have preserved : ∀ (w : Watched δ σ τ) (i : Input δ) (w' : Watched δ σ τ), w.Outside →
      Silent D ic w i → w.step D ic i = some w' → w'.Outside := by
    intro w i w' outside silent h
    cases h
    exact outside_next outside silent
  exact along_iff same preserved nofun

/-- A database that remembers the statements it ran; an empty text is a syntax error. -/
def remembering : Database (List (Bytes × List BoundValue)) Bytes Unit where
  prepare := fun _ sql => some (if Sql.Scalar.trim sql = [] then
    .error ⟨ascii "42601", ascii "SQL parse error at position 0: empty SQL statement"⟩
    else .ok ⟨sql, 1, none, none, false⟩)
  execute := fun d sql => (d ++ [(sql, [])], some (.ok (.rowCount 1)))
  executeBound := fun d template values =>
    (d ++ [(template.stmts, values)], some (.ok (.rowCount 1)))
  executeInTxn := fun d _ _ => (d, some (.ok (.rowCount 1)))
  executeBoundInTxn := fun d _ _ _ => (d, some (.ok (.rowCount 1)))
  describeResultOids := fun _ _ => none
  beginTransaction := fun d => (d, some (.ok ()))
  commitTransaction := fun d _ => (d, some (.ok ()))
  rollbackTransaction := fun d _ => (d, some (.ok ()))
  savepoint := fun d _ _ => d
  rollbackTo := fun d _ _ => .ok d
  release := fun d _ _ => .ok d
  tableColumns := fun _ _ => some (.ok [])
  bulkInsert := fun d _ _ _ => (d, some (.ok ()))

def plainTexts : Interceptors := ⟨fun _ => none, fun _ => none, fun _ => none⟩

def deleteById : Bytes := ascii "DELETE FROM t WHERE id = $1"

/-- Parse, Bind and Execute of the unnamed statement and portal in one go. -/
def pipelined (query value : Bytes) : List (Input (List (Bytes × List BoundValue))) :=
  [.message (.parse [] query [Oid.int4]) rfl, .message (.bind [] [] [] [some value] []) rfl,
    .message (.execute [] 0) rfl, .message .sync rfl]

/-- The second Parse fails, and the statement of the first is run with its parameter. -/
theorem old_statement_runs_after_failed_parse :
    ¬ Along (Watched.step remembering plainTexts) (Silent remembering plainTexts)
        ⟨[], .new, false⟩ (pipelined deleteById (ascii "1") ++ pipelined [] (ascii "2")) ∧
      (run (Watched.step remembering plainTexts) ⟨[], .new, false⟩
          (pipelined deleteById (ascii "1") ++ pipelined [] (ascii "2"))).map Watched.db =
        some [(deleteById, [.int 1]), (deleteById, [.int 2])] := by
  constructor
  · intro silent
    have executed := ((((((silent.2 _ rfl).2 _ rfl).2 _ rfl).2 _ rfl).2 _ rfl).2 _ rfl).1
    have ran := (executed (by decide +kernel)).2.2
    revert ran
    decide +kernel
  · decide +kernel

end GalaxDb.Server
