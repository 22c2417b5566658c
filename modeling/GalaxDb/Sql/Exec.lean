import GalaxDb.Sql.Readers
import GalaxDb.Sql.Session

/-!
# Statements one at a time

A statement carries out its writes in order, straight on the engine or into the buffer of
a transaction, and stops at the first that fails. Both paths share their code; a `Target`
is what differs between them.
-/

namespace GalaxDb.Sql

open Bytes Executor WriteLog TxnHandle Option

/-- Where the writes of a statement go. A write may be refused; it counts when there was
something to write. A write on which the engine panics has no result. -/
structure Target (σ : Type) where
  context : σ → ExecutorContext
  refuses : QueryPlan → Option SqlError
  /-- What an INSERT checks before its first row. -/
  opening : Bytes → Except SqlError Unit
  record : σ → List Bytes → σ
  write : σ → Bytes → Option Bytes → Option (Except SqlError (σ × Bool))

/-- `Database::execute` without a transaction. -/
def autocommitTarget (cfg : Settings) : Target Engine where
  context e := ⟨cfg.catalog, cfg.index, .latest e cfg.order⟩
  refuses _ := none
  opening table := (getTable cfg.catalog table).map fun _ => ()
  record e _ := e
  write e key value :=
    match value with
    | some v => (e.putSync cfg.env key v).map fun r => .ok (r.1, true)
    | none => some (.ok (e.deleteSync cfg.env key))

/-- `execute_in_txn` over an engine that nobody else writes to. -/
def txnTarget (cfg : Settings) (e : Engine) : Target (TransactionManager × TxnHandle) where
  context s := .inTxn cfg.catalog e cfg.order s.2
  refuses p :=
    match p with
    | .bulkInsert _ _ _ => some bulkInTxn
    | _ => none
  opening _ := .ok ()
  record s keys := (s.1, keys.foldl recordRead s.2)
  write s key value := some ((s.2.bufferWrite s.1 key value).map fun r => (r, true))

/-- The state after a statement, the writes it has carried out and what it returns. -/
structure Done (σ β : Type) where
  state : σ
  log : List (Bytes × Option Bytes)
  result : Except SqlError β

inductive Command where
  | insert (table : Bytes) (columns : List Bytes) (rows : List (List Expr))
  | plan (p : QueryPlan)

instance decidableForallOk {ε α : Type} (x : Except ε α) (P : α → Prop) [DecidablePred P] :
    Decidable (∀ a, x = .ok a → P a) :=
  match x with
  | .ok a => decidable_of_iff (P a) ⟨fun h _ eq => Except.ok.inj eq ▸ h, fun h => h a rfl⟩
  | .error _ => isTrue fun _ eq => nomatch eq

section Exec

variable {σ : Type} (T : Target σ)

def carryOut : σ → List (Bytes × Option Bytes) → Option (Done σ Nat)
  | s, [] => some ⟨s, [], .ok 0⟩
  | s, w :: rest =>
    match T.write s w.1 w.2 with
    | none => none
    | some (.error e) => some ⟨s, [], .error e⟩
    | some (.ok r) => (carryOut r.1 rest).map fun d =>
        ⟨d.state, w :: d.log, d.result.map fun n => n + r.2.toNat⟩

/-- What a statement returns when its writes went through. -/
def Effect.finish (effect : Effect) (n : Nat) : Response :=
  match effect.failure with
  | some e => .error e
  | none => .ok (effect.rows.map Prod.snd, n)

def execPlan (s : σ) (p : QueryPlan) : Option (Done σ (List Columns × Nat)) :=
  match T.refuses p with
  | some e => some ⟨s, [], .error e⟩
  | none =>
    match planEffect (T.context s) p with
    | .error e => some ⟨s, [], .error e⟩
    | .ok effect => (carryOut T (T.record s effect.reads) effect.writes).map fun d =>
        ⟨d.state, d.log, d.result.bind effect.finish⟩

/-- The values of one row of VALUES. -/
def rowValues : List Expr → Except SqlError (List Value)
  | [] => .ok []
  | e :: rest =>
    ((scalarFromExpr e).bind fun s => s.eval []).bind fun v =>
      (rowValues rest).map fun later => v :: later

/-- Rows are evaluated and written one at a time. -/
def insertRows (table : Bytes) (columns : List Bytes) : σ → List (List Expr) → Option (Done σ Nat)
  | s, [] => some ⟨s, [], .ok 0⟩
  | s, row :: rest =>
    match rowValues row with
    | .error e => some ⟨s, [], .error e⟩
    | .ok values =>
      match execPlan T s (.insert table columns values) with
      | none => none
      | some ⟨s', log, .error e⟩ => some ⟨s', log, .error e⟩
      | some ⟨s', log, .ok r⟩ => (insertRows table columns s' rest).map fun later =>
          ⟨later.state, log ++ later.log, later.result.map fun n => n + r.2⟩

def exec (s : σ) : Command → Option (Done σ (List Columns × Nat))
  | .insert table columns rows =>
    match T.opening table with
    | .error e => some ⟨s, [], .error e⟩
    | .ok _ => (insertRows T table columns s rows).map fun d =>
        ⟨d.state, d.log, d.result.map fun n => ([], n)⟩
  | .plan p => execPlan T s p

end Exec

section Keeps

variable {σ : Type} {T : Target σ} {P : σ → Prop}

/-- Neither recording a read nor a single write breaks `P`. -/
structure Keeps (T : Target σ) (P : σ → Prop) : Prop where
  record : ∀ s keys, P s → P (T.record s keys)
  write : ∀ s k v s' b, P s → T.write s k v = some (.ok (s', b)) → P s'

theorem Keeps.carryOut (keeps : Keeps T P) :
    ∀ {writes : List (Bytes × Option Bytes)} {s : σ} {d : Done σ Nat}, P s →
      carryOut T s writes = some d → P d.state
  | [], s, d, here, h => by
    cases h
    exact here
  | w :: rest, s, d, here, h => by
    rw [Sql.carryOut] at h
    split at h
    · cases h
    · cases h
      exact here
    · next r eq =>
      obtain ⟨d', h', rfl⟩ := map_eq_some_iff.mp h
      have later := keeps.carryOut (keeps.write s w.1 w.2 r.1 r.2 here eq) h'
      exact later

variable {d : Done σ (List Columns × Nat)} {s : σ}

theorem Keeps.execPlan (keeps : Keeps T P) {p : QueryPlan} (here : P s)
    (h : execPlan T s p = some d) : P d.state := by
  rw [Sql.execPlan] at h
  split at h
  · cases h
    exact here
  · split at h
    · cases h
      exact here
    · obtain ⟨d', h', rfl⟩ := map_eq_some_iff.mp h
      exact keeps.carryOut (keeps.record s _ here) h'

theorem Keeps.insertRows (keeps : Keeps T P) {table : Bytes} {columns : List Bytes} :
    ∀ {rows : List (List Expr)} {s : σ} {d : Done σ Nat}, P s →
      insertRows T table columns s rows = some d → P d.state
  | [], s, d, here, h => by
    cases h
    exact here
  | row :: rest, s, d, here, h => by
    rw [Sql.insertRows] at h
    split at h
    · cases h
      exact here
    · split at h
      · cases h
      · next eq =>
        cases h
        exact keeps.execPlan here eq
      · next eq =>
        obtain ⟨d', h', rfl⟩ := map_eq_some_iff.mp h
        have between := keeps.execPlan here eq
        have later := keeps.insertRows between h'
        exact later

theorem Keeps.exec (keeps : Keeps T P) {c : Command} (here : P s) (h : exec T s c = some d) :
    P d.state := by
  cases c with
  | plan p => exact keeps.execPlan here h
  | insert table columns rows =>
    rw [Sql.exec] at h
    split at h
    · cases h
      exact here
    · obtain ⟨d', h', rfl⟩ := map_eq_some_iff.mp h
      exact keeps.insertRows here h'

end Keeps

section Total

variable {σ : Type} {T : Target σ}

/-- No write panics. -/
def Target.Total (T : Target σ) : Prop := ∀ s k v, (T.write s k v).isSome

theorem Target.Total.carryOut (total : T.Total) :
    ∀ (writes : List (Bytes × Option Bytes)) (s : σ), (carryOut T s writes).isSome
  | [], _ => rfl
  | w :: rest, s => by
    rw [Sql.carryOut]
    split
    · next eq =>
      have written := total s w.1 w.2
      simp [eq] at written
    · rfl
    · next r _ => simpa using total.carryOut rest r.1

theorem Target.Total.execPlan (total : T.Total) (s : σ) (p : QueryPlan) :
    (execPlan T s p).isSome := by
  rw [Sql.execPlan]
  split
  · rfl
  · split
    · rfl
    · next effect _ => simpa using total.carryOut effect.writes _

theorem Target.Total.insertRows (total : T.Total) {table : Bytes} {columns : List Bytes} :
    ∀ (rows : List (List Expr)) (s : σ), (insertRows T table columns s rows).isSome
  | [], _ => rfl
  | row :: rest, s => by
    rw [Sql.insertRows]
    split
    · rfl
    · next values _ =>
      split
      · next eq =>
        have planned := total.execPlan s (.insert table columns values)
        simp [eq] at planned
      · rfl
      · next s' _ _ _ => simpa using total.insertRows rest s'

theorem Target.Total.exec (total : T.Total) (s : σ) (c : Command) : (exec T s c).isSome := by
  cases c with
  | plan p => exact total.execPlan s p
  | insert table columns rows =>
    rw [Sql.exec]
    split
    · rfl
    · simpa using total.insertRows rows s

theorem txnTarget_total (cfg : Settings) (e : Engine) : (txnTarget cfg e).Total := fun _ _ _ => rfl

end Total

section Tracks

/-- What there is to see of a state: a value at each key, and which keys are free to be
written. A write `v` shows as `enc v`, provided the write is clean. -/
structure View (σ ν : Type) where
  valid : σ → Prop
  look : σ → Bytes → Option ν
  enc : Option Bytes → Option ν
  clean : Bytes × Option Bytes → Prop
  free : σ → Bytes → Bool

/-- The view follows the writes; whether a key is free does not depend on them. -/
structure Tracks {σ ν : Type} (T : Target σ) (V : View σ ν) : Prop where
  recorded : ∀ s keys, (V.valid s → V.valid (T.record s keys)) ∧
    V.look (T.record s keys) = V.look s ∧ V.free (T.record s keys) = V.free s ∧
    (T.context (T.record s keys)).catalog = (T.context s).catalog
  written : ∀ (s : σ) (w : Bytes × Option Bytes) (r : σ × Bool), V.valid s → V.clean w →
    T.write s w.1 w.2 = some (.ok r) →
    V.valid r.1 ∧ V.look r.1 = write (V.look s) (w.1, V.enc w.2)
  accepted : ∀ (s : σ) (w : Bytes × Option Bytes) (r : σ × Bool),
    T.write s w.1 w.2 = some (.ok r) → V.free s w.1 = true ∧ V.free r.1 = V.free s ∧
    (T.context r.1).catalog = (T.context s).catalog
  refused : ∀ (s : σ) (w : Bytes × Option Bytes) (e : SqlError),
    T.write s w.1 w.2 = some (.error e) → V.free s w.1 = false

variable {σ ν β : Type} {T : Target σ} {V : View σ ν}

/-- The writes of a log as they show. -/
def View.shown (V : View σ ν) (log : List (Bytes × Option Bytes)) : List (Bytes × Option ν) :=
  log.map fun w => (w.1, V.enc w.2)

/-- What a statement leaves behind: the state shows the log, and is free as before. -/
structure Follows (T : Target σ) (V : View σ ν) (s : σ) (d : Done σ β) : Prop where
  shows : V.valid s → (∀ w ∈ d.log, V.clean w) → V.valid d.state ∧
    V.look d.state = (V.shown d.log).foldl write (V.look s)
  free : V.free d.state = V.free s
  catalog : (T.context d.state).catalog = (T.context s).catalog

theorem Follows.refl (s : σ) (result : Except SqlError β) : Follows T V s ⟨s, [], result⟩ :=
  ⟨fun ok _ => ⟨ok, rfl⟩, rfl, rfl⟩

variable {d : Done σ (List Columns × Nat)} {s : σ}

theorem Follows.trans {γ δ : Type} {d : Done σ β} {d' : Done σ γ} (h : Follows T V s d)
    (h' : Follows T V d.state d') (result : Except SqlError δ) :
    Follows T V s ⟨d'.state, d.log ++ d'.log, result⟩ where
  shows ok cleanLog := by
    obtain ⟨ok1, eq1⟩ := h.shows ok fun w hw => cleanLog w (List.mem_append_left _ hw)
    obtain ⟨ok2, eq2⟩ := h'.shows ok1 fun w hw => cleanLog w (List.mem_append_right _ hw)
    refine ⟨ok2, ?_⟩
    simp only [View.shown, List.map_append, List.foldl_append] at eq1 eq2 ⊢
    rw [eq2, eq1]
  free := h'.free.trans h.free
  catalog := h'.catalog.trans h.catalog

theorem carryOut_follows (tracks : Tracks T V) {writes : List (Bytes × Option Bytes)}
    {d : Done σ Nat} (h : carryOut T s writes = some d) :
    Follows T V s d ∧ d.log = writes.takeWhile (fun w => V.free s w.1) ∧
      ((∃ n, d.result = .ok n) ↔ d.log = writes) := by
  induction writes generalizing s d with
  | nil =>
    cases h
    exact ⟨.refl s _, rfl, by simp⟩
  | cons w rest ih =>
    simp only [carryOut] at h
    split at h
    · cases h
    · rename_i e refused
      cases h
      have busy := tracks.refused s w e refused
      exact ⟨.refl s _, by simp [busy], by simp⟩
    · rename_i r written
      obtain ⟨later, eq, rfl⟩ := map_eq_some_iff.mp h
      obtain ⟨able, still, catalog⟩ := tracks.accepted s w r written
      obtain ⟨follows, log, complete⟩ := ih eq
      have one : Follows T V s (⟨r.1, [w], .ok ()⟩ : Done σ Unit) :=
        ⟨fun ok cleanLog => tracks.written s w r ok (cleanLog w (by simp)) written, still, catalog⟩
      refine ⟨one.trans follows _, ?_, ?_⟩
      · rw [List.takeWhile_cons, if_pos able, log, still]
      · rw [List.cons.injEq, ← complete]
        cases later.result <;> simp [Except.map]

/-- What becomes of a plan: it is refused, or its writes are carried out as far as their keys
are free. -/
theorem execPlan_cases (tracks : Tracks T V) {p : QueryPlan} (h : execPlan T s p = some d) :
    Follows T V s d ∧ ((d.log = [] ∧ ∃ e, d.result = .error e ∧
          (T.refuses p = some e ∨ T.refuses p = none ∧ planEffect (T.context s) p = .error e)) ∨
        ∃ effect, T.refuses p = none ∧ planEffect (T.context s) p = .ok effect ∧
          d.log = effect.writes.takeWhile (fun w => V.free s w.1) ∧
          ((∃ r, d.result = .ok r) ↔ d.log = effect.writes ∧ effect.failure = none)) := by
  simp only [execPlan] at h
  split at h
  · rename_i e refused
    cases h
    exact ⟨.refl s _, Or.inl ⟨rfl, e, rfl, Or.inl refused⟩⟩
  rename_i admitted
  split at h
  · rename_i e failed
    cases h
    exact ⟨.refl s _, Or.inl ⟨rfl, e, rfl, Or.inr ⟨admitted, failed⟩⟩⟩
  · rename_i effect planned
    obtain ⟨later, eq, rfl⟩ := map_eq_some_iff.mp h
    obtain ⟨follows, log, complete⟩ := carryOut_follows tracks eq
    obtain ⟨valid, look, free, catalog⟩ := tracks.recorded s effect.reads
    refine ⟨⟨?_, follows.free.trans free, follows.catalog.trans catalog⟩,
      Or.inr ⟨effect, admitted, planned, free ▸ log, ?_⟩⟩
    · intro ok cleanLog
      obtain ⟨ok', eq'⟩ := follows.shows (valid ok) cleanLog
      exact ⟨ok', look ▸ eq'⟩
    · rw [← complete]
      cases later.result with
      | error e => simp [Except.bind]
      | ok n =>
        cases failure : effect.failure <;> simp [Except.bind, Effect.finish, failure]

theorem insertRows_follows (tracks : Tracks T V) {table : Bytes} {columns : List Bytes}
    {rows : List (List Expr)} {d : Done σ Nat} (h : insertRows T table columns s rows = some d) :
    Follows T V s d := by
  induction rows generalizing s d with
  | nil =>
    cases h
    exact .refl s _
  | cons row rest ih =>
    simp only [insertRows] at h
    split at h
    · cases h
      exact .refl s _
    split at h
    · cases h
    · rename_i one
      cases h
      obtain ⟨follows, -⟩ := execPlan_cases tracks one
      exact ⟨follows.shows, follows.free, follows.catalog⟩
    · rename_i one
      obtain ⟨later, eq, rfl⟩ := map_eq_some_iff.mp h
      exact (execPlan_cases tracks one).1.trans (ih eq) _

theorem exec_follows (tracks : Tracks T V) {c : Command} (h : exec T s c = some d) :
    Follows T V s d := by
  cases c with
  | plan p => exact (execPlan_cases tracks h).1
  | insert table columns rows =>
    simp only [exec] at h
    split at h
    · cases h
      exact .refl s _
    · obtain ⟨later, eq, rfl⟩ := map_eq_some_iff.mp h
      have follows := insertRows_follows tracks eq
      exact ⟨follows.shows, follows.free, follows.catalog⟩

end Tracks

section Instances

variable (cfg : Settings)

/-- The live rows of an engine. -/
def autocommitView : View Engine Bytes where
  valid e := ∃ rows, e.Recorded rows
  look e := e.get
  enc v := v
  clean w := (0 : UInt8) ∉ w.1 ∧ w.2 ≠ some []
  free _ _ := true

theorem contents_ofRows_snoc (rows : List (Row Bytes Bytes)) (x : Row Bytes Bytes) :
    contents (ofRows (rows ++ [x])) = write (contents (ofRows rows)) (x.key, x.val) := by
  rw [← contents_snoc]
  simp [ofRows]

theorem autocommit_tracks : Tracks (autocommitTarget cfg) autocommitView where
  recorded s keys := ⟨id, rfl, rfl, rfl⟩
  written := by
    rintro e ⟨key, value⟩ r ⟨rows, recorded⟩ ⟨clean, nonempty⟩ written
    have before : e.get = contents (ofRows rows) := funext recorded.get_eq
    cases value with
    | some v =>
      obtain ⟨e', put, -, recorded'⟩ := recorded.put cfg.env clean (by simpa using nonempty)
      simp only [autocommitTarget, put, map_some, some.injEq, Except.ok.injEq] at written
      subst written
      refine ⟨⟨_, recorded'⟩, ?_⟩
      simp only [autocommitView, before, ← contents_ofRows_snoc rows ⟨key, e.nextTimestamp, some v⟩]
      exact funext recorded'.get_eq
    | none =>
      simp only [autocommitTarget, some.injEq, Except.ok.injEq] at written
      rcases recorded.delete cfg.env key with ⟨missing, eq⟩ | ⟨-, e', eq, -, recorded'⟩
      · rw [eq] at written
        subst written
        refine ⟨⟨rows, recorded⟩, ?_⟩
        simp only [autocommitView, before]
        rw [write_of_eq missing]
      · rw [eq] at written
        subst written
        refine ⟨⟨_, recorded'⟩, ?_⟩
        simp only [autocommitView, before, ← contents_ofRows_snoc rows ⟨key, e.nextTimestamp, none⟩]
        exact funext recorded'.get_eq
  accepted _ _ _ _ := ⟨rfl, rfl, rfl⟩
  refused := by
    rintro e ⟨key, value⟩ err refused
    cases value <;> simp [autocommitTarget] at refused

def lockFree (m : TransactionManager) (txn : Timestamp) (key : Bytes) : Bool :=
  match m.writeLocks[key]? with
  | some holder => decide (holder = txn)
  | none => true

/-- The buffer of a transaction. -/
def txnView : View (TransactionManager × TxnHandle) (Option Bytes) where
  valid _ := True
  look s k := s.2.writes[k]?
  enc v := some v
  clean _ := True
  free s := lockFree s.1 s.2.txnId

variable {m : TransactionManager} {txn : Timestamp} {key : Bytes}

variable {m' : TransactionManager}

theorem acquireWriteLock_ok (ok : m.acquireWriteLock key txn = .ok m') :
    lockFree m txn key = true ∧ m' = { m with writeLocks := m.writeLocks.insert key txn } := by
  cases held : m.writeLocks[key]? with
  | some holder =>
    simp only [TransactionManager.acquireWriteLock, held] at ok
    split at ok
    · cases ok
    · rename_i own
      refine ⟨?_, (Except.ok.inj ok).symm⟩
      simp only [lockFree, held]
      simpa using own
  | none =>
    simp only [TransactionManager.acquireWriteLock, held] at ok
    refine ⟨?_, (Except.ok.inj ok).symm⟩
    simp only [lockFree, held]

theorem acquireWriteLock_error {e : SqlError} (failed : m.acquireWriteLock key txn = .error e) :
    e = .writeConflict ∧ lockFree m txn key = false := by
  cases held : m.writeLocks[key]? with
  | some holder =>
    simp only [TransactionManager.acquireWriteLock, held] at failed
    split at failed
    · rename_i other
      refine ⟨(Except.error.inj failed).symm, ?_⟩
      simp only [lockFree, held]
      simpa using other
    · cases failed
  | none =>
    simp only [TransactionManager.acquireWriteLock, held] at failed
    cases failed

theorem lockFree_insert (m : TransactionManager) (able : lockFree m txn key = true) :
    lockFree { m with writeLocks := m.writeLocks.insert key txn } txn = lockFree m txn := by
  funext k
  simp only [lockFree, Std.ExtTreeMap.getElem?_insert] at able ⊢
  by_cases same : key = k
  · subst same
    simpa using able.symm
  · simp [same]

theorem bufferWrite_ok {t t' : TxnHandle} {value : Option Bytes}
    (ok : t.bufferWrite m key value = .ok (m', t')) :
    m.acquireWriteLock key t.txnId = .ok m' ∧
      t' = { t with writes := t.writes.insert key value } := by
  simp only [bufferWrite] at ok
  cases lock : m.acquireWriteLock key t.txnId with
  | error e => simp [lock, Except.map] at ok
  | ok m1 =>
    simp only [lock, Except.map, Except.ok.injEq, Prod.mk.injEq] at ok
    exact ⟨by rw [ok.1], ok.2.symm⟩

theorem recordRead_foldl (t : TxnHandle) (keys : List Bytes) :
    (keys.foldl recordRead t).readTs = t.readTs ∧ (keys.foldl recordRead t).txnId = t.txnId ∧
      (keys.foldl recordRead t).writes = t.writes ∧
      (keys.foldl recordRead t).serializable = t.serializable := by
  induction keys generalizing t with
  | nil => simp
  | cons k rest ih =>
    have same : (t.recordRead k).readTs = t.readTs ∧ (t.recordRead k).txnId = t.txnId ∧
        (t.recordRead k).writes = t.writes ∧ (t.recordRead k).serializable = t.serializable := by
      simp only [recordRead]
      split <;> simp
    obtain ⟨h1, h2, h3, h4⟩ := ih (t.recordRead k)
    exact ⟨h1.trans same.1, h2.trans same.2.1, h3.trans same.2.2.1, h4.trans same.2.2.2⟩

theorem txn_tracks (e : Engine) : Tracks (txnTarget cfg e) txnView where
  recorded s keys := by
    obtain ⟨-, id, writes, -⟩ := recordRead_foldl s.2 keys
    simp [txnTarget, txnView, id, writes, ExecutorContext.inTxn]
  written := by
    rintro ⟨m, t⟩ ⟨key, value⟩ ⟨⟨m', t'⟩, counted⟩ - - written
    simp only [txnTarget, some.injEq] at written
    cases buffered : t.bufferWrite m key value with
    | error err => simp [buffered, Except.map] at written
    | ok r =>
      simp only [buffered, Except.map, Except.ok.injEq, Prod.mk.injEq] at written
      obtain ⟨rfl, -⟩ := written
      obtain ⟨-, rfl⟩ := bufferWrite_ok buffered
      refine ⟨trivial, funext fun k => ?_⟩
      simp only [txnView, write, Std.ExtTreeMap.getElem?_insert]
      by_cases same : key = k
      · subst same
        simp
      · simp [same, Function.update_of_ne (Ne.symm same)]
  accepted := by
    rintro ⟨m, t⟩ ⟨key, value⟩ ⟨⟨m', t'⟩, counted⟩ written
    simp only [txnTarget, some.injEq] at written
    cases buffered : t.bufferWrite m key value with
    | error err => simp [buffered, Except.map] at written
    | ok r =>
      simp only [buffered, Except.map, Except.ok.injEq, Prod.mk.injEq] at written
      obtain ⟨rfl, -⟩ := written
      obtain ⟨locked, rfl⟩ := bufferWrite_ok buffered
      obtain ⟨able, rfl⟩ := acquireWriteLock_ok locked
      exact ⟨able, lockFree_insert m able, rfl⟩
  refused := by
    rintro ⟨m, t⟩ ⟨key, value⟩ err refused
    simp only [txnTarget, some.injEq, bufferWrite] at refused
    cases locked : m.acquireWriteLock key t.txnId with
    | error err' => exact (acquireWriteLock_error locked).2
    | ok m' => simp [locked, Except.map] at refused

end Instances

end GalaxDb.Sql
