import GalaxDb.Sql.Plans
import GalaxDb.Sql.Exec

/-!
# What a step of a session does

Every step moves one client, which may be a new one. The list of rows that the clients
have written is the record of the engine.
-/

namespace GalaxDb.Sql

open Executor List

/-- What a step makes of engine, manager and the client at place `i`. -/
inductive Move (cfg : Settings) (s : Db) : Act → Nat → Engine → TransactionManager → Client → Prop
  | begin (serializable : Bool) : Move cfg s (.begin serializable) s.clients.length s.engine
      s.manager (s.newClient (.starting serializable s.engine.latestCommitTs)
        (some s.engine.latestCommitTs))
  | autoFailed {p : QueryPlan} {e : SqlError}
      (failed : planEffect (s.autoContext cfg) p = .error e) :
      Move cfg s (.autocommit p) s.clients.length s.engine s.manager
        { s.newClient .aborted none with responses := [(.plan p, .error e)] }
  | autoPlanned {p : QueryPlan} {effect : Effect}
      (planned : planEffect (s.autoContext cfg) p = .ok effect) :
      Move cfg s (.autocommit p) s.clients.length s.engine s.manager
        (({ s.newClient .aborted none with
            responses := [(.plan p, effect.response)]
            history := effect.writes }).applyRest s.clock effect.writes)
  | draw {i : Nat} {c : Client} {serializable : Bool} {readTs : Timestamp}
      (here : s.clients[i]? = some c) (pc : c.pc = .starting serializable readTs) :
      Move cfg s (.advance i) i s.engine s.manager.drawId.1
        { c with pc := .drawn serializable readTs s.manager.drawId.2 }
  | register {i : Nat} {c : Client} {serializable : Bool} {readTs txnId : Timestamp}
      (here : s.clients[i]? = some c) (pc : c.pc = .drawn serializable readTs txnId) :
      Move cfg s (.advance i) i s.engine (s.manager.register txnId)
        { c with pc := .idle (.new readTs txnId serializable) }
  | execFailed {i : Nat} {c : Client} {t : TxnHandle} {r : Request} {e : SqlError}
      (here : s.clients[i]? = some c) (pc : c.pc = .idle t)
      (failed : requestEffect (s.txnContext cfg t) r = .error e) :
      Move cfg s (.exec i r) i s.engine s.manager (c.fails t r e)
  | execPlanned {i : Nat} {c : Client} {t : TxnHandle} {r : Request} {effect : Effect}
      (here : s.clients[i]? = some c) (pc : c.pc = .idle t)
      (planned : requestEffect (s.txnContext cfg t) r = .ok effect) :
      Move cfg s (.exec i r) i s.engine s.manager
        (c.bufferRest (effect.reads.foldl TxnHandle.recordRead t) r effect effect.writes)
  | refused {i : Nat} {c : Client} {t : TxnHandle} {e : SqlError}
      (here : s.clients[i]? = some c) (pc : c.pc = .idle t)
      (failed : s.manager.commitSerializable t.txnId t.reads (writeKeys t.writes) t.serializable =
        .error e) : Move cfg s (.commit i) i s.engine s.manager c
  | certified {i : Nat} {c : Client} {t : TxnHandle} {m : TransactionManager} {ts : Timestamp}
      (here : s.clients[i]? = some c) (pc : c.pc = .idle t)
      (certified : s.manager.commitSerializable t.txnId t.reads (writeKeys t.writes)
        t.serializable = .ok (m, ts)) :
      Move cfg s (.commit i) i s.engine m (c.applyRest s.clock t.writes.toList)
  | rolledBack {i : Nat} {c : Client} {t : TxnHandle}
      (here : s.clients[i]? = some c) (pc : c.pc = .idle t) :
      Move cfg s (.rollback i) i s.engine (s.manager.abort t.txnId) { c with pc := .aborted }
  | conflict {i : Nat} {c : Client} {t : TxnHandle} {r : Request} {effect : Effect} {key : Bytes}
      {value : Option Bytes} {rest : List (Bytes × Option Bytes)} {e : SqlError}
      (here : s.clients[i]? = some c) (pc : c.pc = .buffering t r effect ((key, value) :: rest))
      (failed : t.bufferWrite s.manager key value = .error e) :
      Move cfg s (.advance i) i s.engine s.manager (c.fails t r e)
  | buffered {i : Nat} {c : Client} {t t' : TxnHandle} {r : Request} {effect : Effect}
      {key : Bytes} {value : Option Bytes} {rest : List (Bytes × Option Bytes)}
      {m : TransactionManager}
      (here : s.clients[i]? = some c) (pc : c.pc = .buffering t r effect ((key, value) :: rest))
      (buffered : t.bufferWrite s.manager key value = .ok (m, t')) :
      Move cfg s (.advance i) i s.engine m ((c.claim (key, value)).bufferRest t' r effect rest)
  | put {i : Nat} {c : Client} {key value : Bytes} {rest : List (Bytes × Option Bytes)}
      {e : Engine} {ts : Timestamp} (here : s.clients[i]? = some c)
      (pc : c.pc = .applying ((key, some value) :: rest))
      (put : s.engine.putSync cfg.env key value = some (e, ts)) :
      Move cfg s (.advance i) i e s.manager
        ((c.record [⟨key, ts, some value⟩]).applyRest s.clock rest)
  | delete {i : Nat} {c : Client} {key : Bytes} {rest : List (Bytes × Option Bytes)} {e : Engine}
      {found : Bool} (here : s.clients[i]? = some c)
      (pc : c.pc = .applying ((key, none) :: rest))
      (deleted : s.engine.deleteSync cfg.env key = (e, found)) :
      Move cfg s (.advance i) i e s.manager
        ((c.record (if found then [⟨key, s.engine.nextTimestamp, none⟩] else [])).applyRest
          s.clock rest)

variable {cfg : Settings} {s s' : Db}

variable {c : Client} {i : Nat} {a : Act}

theorem advance_cases (here : s.clients[i]? = some c) (h : s.advance cfg i c = some s') :
    ∃ e m c', Move cfg s (.advance i) i e m c' ∧ s' = s.moved i e m c' := by
  simp only [Db.advance] at h
  split at h
  · cases h
    exact ⟨_, _, _, .draw here ‹_›, rfl⟩
  · cases h
    exact ⟨_, _, _, .register here ‹_›, rfl⟩
  · rename_i t r effect w rest pc
    cases h
    simp only [Db.bufferNext]
    split
    · exact ⟨_, _, _, .conflict here pc ‹_›, rfl⟩
    · rename_i next ok
      exact ⟨_, _, _, .buffered here pc ok, rfl⟩
  · rename_i w rest pc
    obtain ⟨key, value⟩ := w
    cases value with
    | some value =>
      obtain ⟨⟨e, ts⟩, put, rfl⟩ := Option.map_eq_some_iff.mp h
      exact ⟨_, _, _, .put here pc put, rfl⟩
    | none =>
      cases h
      exact ⟨_, _, _, .delete here pc rfl, rfl⟩
  · cases h

theorem step_cases (h : s.step cfg a = some s') :
    ∃ i e m c, Move cfg s a i e m c ∧ s' = s.moved i e m c := by
  cases a with
  | begin serializable =>
    cases h
    exact ⟨_, _, _, _, .begin serializable, rfl⟩
  | autocommit p =>
    cases h
    simp only [Db.autocommit]
    split
    · exact ⟨_, _, _, _, .autoFailed ‹_›, rfl⟩
    · exact ⟨_, _, _, _, .autoPlanned ‹_›, rfl⟩
  | exec i r =>
    obtain ⟨c, here, h⟩ := Option.bind_eq_some_iff.mp h
    split at h
    · rename_i t pc
      cases h
      simp only [Db.exec]
      split
      · exact ⟨_, _, _, _, .execFailed here pc ‹_›, rfl⟩
      · exact ⟨_, _, _, _, .execPlanned here pc ‹_›, rfl⟩
    · cases h
  | commit i =>
    obtain ⟨c, here, h⟩ := Option.bind_eq_some_iff.mp h
    split at h
    · rename_i t pc
      cases h
      simp only [Db.commitTransaction]
      split
      · exact ⟨_, _, _, _, .refused here pc ‹_›, rfl⟩
      · exact ⟨_, _, _, _, .certified here pc ‹_›, rfl⟩
    · cases h
  | rollback i =>
    obtain ⟨c, here, h⟩ := Option.bind_eq_some_iff.mp h
    split at h
    · cases h
      exact ⟨_, _, _, _, .rolledBack here ‹_›, rfl⟩
    · cases h
  | advance i =>
    obtain ⟨c, here, h⟩ := Option.bind_eq_some_iff.mp h
    obtain ⟨e, m, c', move, rfl⟩ := advance_cases here h
    exact ⟨i, e, m, c', move, rfl⟩

theorem Move.place {e : Engine} {m : TransactionManager} (h : Move cfg s a i e m c) :
    i ≤ s.clients.length := by
  cases h
  case begin => exact le_rfl
  case autoFailed => exact le_rfl
  case autoPlanned => exact le_rfl
  all_goals
    exact (List.getElem?_eq_some_iff.mp ‹_›).1.le

@[simp] theorem moved_engine (i : Nat) (e : Engine) (m : TransactionManager) (c : Client) :
    (s.moved i e m c).engine = e := rfl

@[simp] theorem moved_manager (i : Nat) (e : Engine) (m : TransactionManager) (c : Client) :
    (s.moved i e m c).manager = m := rfl

@[simp] theorem moved_clock (i : Nat) (e : Engine) (m : TransactionManager) (c : Client) :
    (s.moved i e m c).clock = s.clock + 1 := rfl

theorem moved_clients (place : i ≤ s.clients.length) (e : Engine) (m : TransactionManager)
    (c : Client) (j : Nat) :
    (s.moved i e m c).clients[j]? = if j = i then some c else s.clients[j]? := by
  simp only [Db.moved]
  split
  · subst i
    by_cases same : j = s.clients.length
    · simp [same]
    · rw [if_neg same, getElem?_append]
      split
      · rfl
      · rw [getElem?_eq_none (by simp; omega), getElem?_eq_none (by omega)]
  · by_cases same : i = j
    · subst same
      have inside : i < s.clients.length := by omega
      simp [inside]
    · simp [same, Ne.symm same]

section Base

/-- The key of the put that the client is about to make. -/
def Client.nextPut (c : Client) : Option Bytes :=
  match c.pc with
  | .applying ((key, some _) :: _) => some key
  | _ => none

/-- Statements are well formed, and no key with a zero byte reaches the index. -/
def Orderly (s : Db) : Act → Prop
  | .autocommit p => PlanOk p
  | .exec _ (.plan p) => PlanOk p
  | .advance i => ∀ key ∈ (s.clients[i]?).bind Client.nextPut, (0 : UInt8) ∉ key
  | _ => True

instance (s : Db) (a : Act) : Decidable (Orderly s a) := by
  unfold Orderly
  split <;> infer_instance

/-- No value to be written is empty. -/
def Values (writes : List (Bytes × Option Bytes)) : Prop := ∀ w ∈ writes, w.2 ≠ some []

/-- What the place of a client says about its history. -/
def Client.Fine (c : Client) : Prop :=
  match c.pc with
  | .starting _ readTs => c.readTs = some readTs ∧ c.wrote = [] ∧ c.finishedAt = none
  | .drawn _ readTs _ => c.readTs = some readTs ∧ c.wrote = [] ∧ c.finishedAt = none
  | .idle t => c.readTs = some t.readTs ∧ c.wrote = [] ∧ c.finishedAt = none ∧
      Values t.writes.toList
  | .buffering t _ _ pending => c.readTs = some t.readTs ∧ c.wrote = [] ∧ c.finishedAt = none ∧
      Values t.writes.toList ∧ Values pending
  | .applying pending => c.finishedAt = none ∧ Values pending
  | .committed => c.finishedAt ≠ none
  | .aborted => c.wrote = [] ∧ c.finishedAt = none

/-- The handle of a transaction that is open. -/
def Client.handle (c : Client) : Option TxnHandle :=
  match c.pc with
  | .idle t => some t
  | .buffering t _ _ _ => some t
  | _ => none

variable {rows : List (Row Bytes Bytes)} {c : Client} {e : Engine} {i : Nat}

theorem Client.Fine.handle {t : TxnHandle} (fine : c.Fine) (h : c.handle = some t) :
    c.readTs = some t.readTs := by
  simp only [Client.handle] at h
  split at h
  · rename_i pc
    cases h
    simp only [Client.Fine, pc] at fine
    exact fine.1
  · rename_i pc
    cases h
    simp only [Client.Fine, pc] at fine
    exact fine.1
  · cases h

/-- Engine and clients agree on what has been written. -/
structure Base (s : Db) (rows : List (Row Bytes Bytes)) : Prop where
  recorded : s.engine.Recorded rows
  wrote : ∀ x, x ∈ rows ↔ ∃ (j : Nat) (c : Client), s.clients[j]? = some c ∧ x ∈ c.wrote
  snapshot : ∀ (j : Nat) (c : Client), s.clients[j]? = some c → ∀ t, c.readTs = some t →
    t < s.engine.nextTimestamp
  started : ∀ (j : Nat) (c : Client), s.clients[j]? = some c → c.startedAt < s.clock
  finished : ∀ (j : Nat) (c : Client), s.clients[j]? = some c → ∀ f, c.finishedAt = some f →
    f < s.clock
  fine : ∀ (j : Nat) (c : Client), s.clients[j]? = some c → c.Fine

theorem base_init (cfg : Settings) (config : EngineConfig) : Base (Db.init cfg config) [] where
  recorded := Engine.recorded_fresh cfg.env config
  wrote := by simp [Db.init]
  snapshot := by simp [Db.init]
  started := by simp [Db.init]
  finished := by simp [Db.init]
  fine := by simp [Db.init]

/-- What a step does to the record: at most one row is added, by the client that moves. -/
structure Frame (s : Db) (i : Nat) (e : Engine) (c : Client) (rows new : List (Row Bytes Bytes)) :
    Prop where
  recorded : e.Recorded (rows ++ new)
  clock : s.engine.nextTimestamp ≤ e.nextTimestamp
  later : ∀ x ∈ new, s.engine.nextTimestamp ≤ x.ts
  fine : c.Fine
  old : ∀ c0, s.clients[i]? = some c0 → c.wrote = c0.wrote ++ new ∧ c.readTs = c0.readTs ∧
    c.startedAt = c0.startedAt ∧ (c.finishedAt = c0.finishedAt ∨
      c0.finishedAt = none ∧ c.finishedAt = some s.clock) ∧ (c0.finishedAt ≠ none → new = [])
  fresh : s.clients[i]? = none → c.wrote = [] ∧ new = [] ∧ c.startedAt = s.clock ∧
    (c.readTs = none ∨ c.readTs = some s.engine.latestCommitTs) ∧
    (c.finishedAt = none ∨ c.finishedAt = some s.clock)

theorem getElem?_length (s : Db) : s.clients[s.clients.length]? = none := by simp

theorem Client.fine_applyRest {clock : Nat} {pending : List (Bytes × Option Bytes)}
    (open_ : c.finishedAt = none) (values : Values pending) : (c.applyRest clock pending).Fine := by
  simp only [Client.applyRest]
  split <;> simp_all [Client.Fine]

theorem Client.applyRest_frame (c : Client) (clock : Nat) (pending : List (Bytes × Option Bytes)) :
    (c.applyRest clock pending).wrote = c.wrote ∧ (c.applyRest clock pending).readTs = c.readTs ∧
      (c.applyRest clock pending).startedAt = c.startedAt ∧
      ((c.applyRest clock pending).finishedAt = c.finishedAt ∨
        (c.applyRest clock pending).finishedAt = some clock) := by
  simp only [Client.applyRest]
  split <;> simp

theorem Client.bufferRest_frame (c : Client) (t : TxnHandle) (r : Request) (effect : Effect)
    (pending : List (Bytes × Option Bytes)) :
    (c.bufferRest t r effect pending).wrote = c.wrote ∧
      (c.bufferRest t r effect pending).readTs = c.readTs ∧
      (c.bufferRest t r effect pending).startedAt = c.startedAt ∧
      (c.bufferRest t r effect pending).finishedAt = c.finishedAt := by
  simp only [Client.bufferRest]
  split <;> simp

variable {new : List (Row Bytes Bytes)} {c0 : Client}

/-- A step that writes nothing. -/
theorem Frame.of_quiet (base : Base s rows) (here : s.clients[i]? = some c0) (fine : c.Fine)
    (wrote : c.wrote = c0.wrote) (readTs : c.readTs = c0.readTs)
    (started : c.startedAt = c0.startedAt) (finished : c.finishedAt = c0.finishedAt ∨
      c0.finishedAt = none ∧ c.finishedAt = some s.clock) :
    Frame s i s.engine c rows [] where
  recorded := by simpa using base.recorded
  clock := le_rfl
  later := by simp
  fine := fine
  old c' h := by
    obtain rfl : c0 = c' := Option.some.inj (here.symm.trans h)
    exact ⟨by simpa using wrote, readTs, started, finished, fun _ => rfl⟩
  fresh h := by simp [h] at here

/-- A step of a new client. -/
theorem Frame.of_new (base : Base s rows) (fine : c.Fine) (wrote : c.wrote = [])
    (started : c.startedAt = s.clock)
    (readTs : c.readTs = none ∨ c.readTs = some s.engine.latestCommitTs)
    (finished : c.finishedAt = none ∨ c.finishedAt = some s.clock) :
    Frame s s.clients.length s.engine c rows [] where
  recorded := by simpa using base.recorded
  clock := le_rfl
  later := by simp
  fine := fine
  old c' h := by simp at h
  fresh _ := ⟨wrote, rfl, started, readTs, finished⟩

/-- A step that applies a write. -/
theorem Frame.of_write {rest : List (Bytes × Option Bytes)} (here : s.clients[i]? = some c0)
    (unfinished : c0.finishedAt = none) (values : Values rest) (recorded : e.Recorded (rows ++ new))
    (clock : s.engine.nextTimestamp ≤ e.nextTimestamp)
    (later : ∀ x ∈ new, s.engine.nextTimestamp ≤ x.ts) :
    Frame s i e ((c0.record new).applyRest s.clock rest) rows new where
  recorded := recorded
  clock := clock
  later := later
  fine := Client.fine_applyRest unfinished values
  old c' h := by
    obtain rfl : c0 = c' := Option.some.inj (here.symm.trans h)
    obtain ⟨wrote, readTs, started, finished⟩ :=
      Client.applyRest_frame (c0.record new) s.clock rest
    exact ⟨wrote, readTs, started, finished.imp_right fun h => ⟨unfinished, h⟩,
      fun ended => absurd unfinished ended⟩
  fresh h := by simp [h] at here

theorem requestEffect_values {ctx : ExecutorContext} {r : Request} {effect : Effect}
    (fine : ∀ p, r = .plan p → PlanOk p) (ok : requestEffect ctx r = .ok effect) :
    Values effect.writes := by
  cases r with
  | plan p =>
    have planned : planEffect ctx p = .ok effect := by
      cases p
      case bulkInsert => cases ok
      all_goals exact ok
    exact planEffect_values (fine p rfl) planned
  | sorted table filter columns s =>
    simp [Values, (sortedScan_ok ok).1]

theorem values_insert {writes : WriteBuffer} (h : Values writes.toList) {key : Bytes}
    {value : Option Bytes} (nonempty : value ≠ some []) :
    Values (writes.insert key value).toList := by
  rintro ⟨k, v⟩ hw
  rw [Std.ExtTreeMap.mem_toList_iff_getElem?_eq_some, Std.ExtTreeMap.getElem?_insert] at hw
  split at hw
  · cases hw
    exact nonempty
  · exact h (k, v) (Std.ExtTreeMap.mem_toList_iff_getElem?_eq_some.mpr hw)

/-- Each move adds at most one row, of the client that moves. -/
theorem Move.frame {a : Act} {m : TransactionManager} (base : Base s rows) (orderly : Orderly s a)
    (move : Move cfg s a i e m c) : ∃ new, Frame s i e c rows new := by
  cases move with
  | begin serializable =>
    refine ⟨[], .of_new base ?_ rfl rfl (Or.inr rfl) (Or.inl rfl)⟩
    exact ⟨rfl, rfl, rfl⟩
  | autoFailed failed => exact ⟨[], .of_new base ⟨rfl, rfl⟩ rfl rfl (Or.inl rfl) (Or.inl rfl)⟩
  | autoPlanned planned =>
    rename_i p effect
    obtain ⟨wrote, readTs, started, finished⟩ := Client.applyRest_frame
      { s.newClient .aborted none with
        responses := [(.plan p, effect.response)]
        history := effect.writes } s.clock effect.writes
    exact ⟨[], .of_new base (Client.fine_applyRest rfl (planEffect_values orderly planned)) wrote
      started (Or.inl readTs) finished⟩
  | register here pc =>
    have fine := base.fine _ _ here
    simp only [Client.Fine, pc] at fine
    refine ⟨[], .of_quiet base here ⟨fine.1, fine.2.1, fine.2.2, ?_⟩ rfl rfl rfl (Or.inl rfl)⟩
    simp [Values, TxnHandle.new]
  | draw here pc | execFailed here pc failed =>
    have fine := base.fine _ _ here
    simp only [Client.Fine, pc] at fine
    exact ⟨[], .of_quiet base here fine rfl rfl rfl (Or.inl rfl)⟩
  | execPlanned here pc planned =>
    rename_i c0 t r effect
    have fine := base.fine _ _ here
    simp only [Client.Fine, pc] at fine
    obtain ⟨wrote, readTs, started, finished⟩ := Client.bufferRest_frame c0
      (effect.reads.foldl TxnHandle.recordRead t) r effect effect.writes
    obtain ⟨same, -, writes, -⟩ := recordRead_foldl t effect.reads
    have values : Values effect.writes := by
      apply requestEffect_values _ planned
      rintro p rfl
      exact orderly
    refine ⟨[], .of_quiet base here ?_ wrote readTs started (Or.inl finished)⟩
    simp only [Client.bufferRest]
    split
    · simp only [Client.Fine, same, writes]
      exact fine
    · simp only [Client.Fine, same, writes]
      exact ⟨fine.1, fine.2.1, fine.2.2.1, fine.2.2.2, values⟩
  | refused here pc failed =>
    exact ⟨[], .of_quiet base here (base.fine _ _ here) rfl rfl rfl (Or.inl rfl)⟩
  | certified here pc certified =>
    rename_i c0 t ts
    have fine := base.fine _ _ here
    simp only [Client.Fine, pc] at fine
    obtain ⟨wrote, readTs, started, finished⟩ := Client.applyRest_frame c0 s.clock t.writes.toList
    exact ⟨[], .of_quiet base here (Client.fine_applyRest fine.2.2.1 fine.2.2.2) wrote readTs
      started (finished.imp_right fun h => ⟨fine.2.2.1, h⟩)⟩
  | rolledBack here pc =>
    have fine := base.fine _ _ here
    simp only [Client.Fine, pc] at fine
    exact ⟨[], .of_quiet base here ⟨fine.2.1, fine.2.2.1⟩ rfl rfl rfl (Or.inl rfl)⟩
  | conflict here pc failed =>
    have fine := base.fine _ _ here
    simp only [Client.Fine, pc] at fine
    exact ⟨[], .of_quiet base here ⟨fine.1, fine.2.1, fine.2.2.1, fine.2.2.2.1⟩ rfl rfl rfl
      (Or.inl rfl)⟩
  | buffered here pc buffered =>
    rename_i c0 t t' r effect key value rest
    have fine := base.fine _ _ here
    simp only [Client.Fine, pc] at fine
    obtain ⟨-, rfl⟩ := bufferWrite_ok buffered
    obtain ⟨wrote, readTs, started, finished⟩ := Client.bufferRest_frame (c0.claim (key, value))
      { t with writes := t.writes.insert key value } r effect rest
    have values : Values (t.writes.insert key value).toList :=
      values_insert fine.2.2.2.1 (fine.2.2.2.2 _ mem_cons_self)
    have later : Values rest := fun w hw => fine.2.2.2.2 w (mem_cons_of_mem _ hw)
    refine ⟨[], .of_quiet base here ?_ wrote readTs started (Or.inl finished)⟩
    simp only [Client.bufferRest]
    split
    · exact ⟨fine.1, fine.2.1, fine.2.2.1, values⟩
    · exact ⟨fine.1, fine.2.1, fine.2.2.1, values, later⟩
  | put here pc put =>
    rename_i c0 key value rest ts
    have fine := base.fine _ _ here
    simp only [Client.Fine, pc] at fine
    have clean : (0 : UInt8) ∉ key := orderly key (by simp [here, Client.nextPut, pc])
    have nonempty : value ≠ [] := by
      rintro rfl
      exact fine.2 (key, some []) mem_cons_self rfl
    obtain ⟨e', eq, clock, recorded⟩ := base.recorded.put cfg.env clean nonempty
    cases eq.symm.trans put
    refine ⟨_, .of_write here fine.1 ?_ recorded clock.le (by simp)⟩
    exact fun w hw => fine.2 w (mem_cons_of_mem _ hw)
  | delete here pc deleted =>
    rename_i c0 key rest found
    have fine := base.fine _ _ here
    simp only [Client.Fine, pc] at fine
    have values : Values rest := fun w hw => fine.2 w (mem_cons_of_mem _ hw)
    rcases base.recorded.delete cfg.env key with ⟨-, eq⟩ | ⟨-, e', eq, clock, recorded⟩
    · cases eq.symm.trans deleted
      exact ⟨_, .of_write here fine.1 values (by simpa using base.recorded) le_rfl
        (by simp)⟩
    · cases eq.symm.trans deleted
      exact ⟨_, .of_write here fine.1 values recorded clock.le (by simp)⟩

/-- Each move keeps the base invariant, with the new rows behind the old. -/
theorem Base.moved (base : Base s rows) (place : i ≤ s.clients.length) (m : TransactionManager)
    (frame : Frame s i e c rows new) :
    Base (s.moved i e m c) (rows ++ new) where
  recorded := frame.recorded
  wrote x := by
    simp only [moved_clients place]
    rw [mem_append]
    constructor
    · rintro (old | added)
      · obtain ⟨j, cj, here, wrote⟩ := (base.wrote x).mp old
        by_cases same : j = i
        · subst same
          refine ⟨j, c, by simp, ?_⟩
          rw [(frame.old cj here).1]
          exact mem_append_left _ wrote
        · exact ⟨j, cj, by simpa [same] using here, wrote⟩
      · refine ⟨i, c, by simp, ?_⟩
        cases here : s.clients[i]? with
        | none => simp [(frame.fresh here).2.1] at added
        | some c0 =>
          rw [(frame.old c0 here).1]
          exact mem_append_right _ added
    · rintro ⟨j, cj, here, wrote⟩
      split at here
      · cases here
        cases old : s.clients[i]? with
        | none => simp [(frame.fresh old).1] at wrote
        | some c0 =>
          rw [(frame.old c0 old).1] at wrote
          exact (mem_append.mp wrote).imp_left fun h => (base.wrote x).mpr ⟨i, c0, old, h⟩
      · exact Or.inl ((base.wrote x).mpr ⟨j, cj, here, wrote⟩)
  snapshot j cj here t readTs := by
    rw [moved_clients place] at here
    apply Nat.lt_of_lt_of_le _ frame.clock
    split at here
    · cases here
      cases old : s.clients[i]? with
      | none =>
        have at_latest : t = s.engine.latestCommitTs := by
          rcases (frame.fresh old).2.2.2.1 with h | h <;> simp_all
        rw [at_latest]
        exact Nat.sub_lt base.recorded.started one_pos
      | some c0 => exact base.snapshot i c0 old t ((frame.old c0 old).2.1 ▸ readTs)
    · exact base.snapshot j cj here t readTs
  started j cj here := by
    rw [moved_clients place] at here
    apply Nat.lt_succ_of_le
    split at here
    · cases here
      cases old : s.clients[i]? with
      | none => exact (frame.fresh old).2.2.1.le
      | some c0 =>
        rw [(frame.old c0 old).2.2.1]
        exact (base.started i c0 old).le
    · exact (base.started j cj here).le
  finished j cj here f finished := by
    rw [moved_clients place] at here
    apply Nat.lt_succ_of_le
    split at here
    · cases here
      cases old : s.clients[i]? with
      | none => rcases (frame.fresh old).2.2.2.2 with h | h <;> simp_all
      | some c0 =>
        rcases (frame.old c0 old).2.2.2.1 with h | ⟨-, h⟩
        · exact (base.finished i c0 old f (h ▸ finished)).le
        · simp_all
    · exact (base.finished j cj here f finished).le
  fine j cj here := by
    rw [moved_clients place] at here
    split at here
    · cases here
      exact frame.fine
    · exact base.fine j cj here

end Base

end GalaxDb.Sql
