import GalaxDb.Lib.Savepoints
import GalaxDb.Server.Locks

/-!
# Savepoints of a block

The handle of a transaction keeps a copy of its buffer for every savepoint and looks a name up
from the last savepoint on. Its buffer is the one of a stack of nested transactions, whatever
else happens in the database meanwhile, and a block that was rolled back to a savepoint takes
statements again.
-/

namespace GalaxDb.Server

open Bytes Sql Savepoints Option List

/-- A call on the handle of a transaction. -/
abbrev BufferCall := Call Bytes (Bytes × Option Bytes)

def applyWrite (buffer : WriteBuffer) (w : Bytes × Option Bytes) : WriteBuffer :=
  buffer.insert w.1 w.2

/-- A write takes the lock of its key first. -/
def Shared.bufferWrite (d : Shared) (id : Timestamp) (key : Bytes) (value : Option Bytes) :
    Except Unit Shared :=
  match d.handles[id]? with
  | none => .error ()
  | some t =>
    match TxnHandle.bufferWrite d.manager t.handle key value with
    | .error _ => .error ()
    | .ok r => .ok ({ d with manager := r.1 }.withTxn id { t with handle := r.2 })

def Shared.bufferCall (d : Shared) (id : Timestamp) : BufferCall → Except Unit Shared
  | .write w => d.bufferWrite id w.1 w.2
  | .savepoint name => .ok (d.savepoint id name)
  | .rollbackTo name => d.rollbackTo id name
  | .release name => d.release id name

/-- While a block is open, its handle is called, or other connections do whatever they like
with all but this handle. -/
inductive BlockEvent where
  | call (c : BufferCall)
  | elsewhere (d : Shared)

/-- The database after an event, and whether the call has succeeded. -/
def Shared.event (d : Shared) (id : Timestamp) : BlockEvent → Shared × Bool
  | .call c =>
    match d.bufferCall id c with
    | .ok d => (d, true)
    | .error _ => (d, false)
  | .elsewhere d' =>
    match d.handles[id]? with
    | some t => (d'.withTxn id t, true)
    | none => (d', true)

def Shared.events (d : Shared) (id : Timestamp) : List BlockEvent → Shared × List Bool
  | [] => (d, [])
  | e :: rest =>
    let done := d.event id e
    let later := done.1.events id rest
    (later.1, done.2 :: later.2)

def Shared.buffer (d : Shared) (id : Timestamp) : Option WriteBuffer :=
  d.handles[id]?.map fun t => t.handle.writes

/-- The block as a stack of nested transactions. -/
abbrev NestedBlock := Nested Bytes (Bytes × Option Bytes)

namespace NestedBlock

/-- Whether a write gets its lock is decided outside the block. -/
def event (s : NestedBlock) (granted : Bool) : BlockEvent → NestedBlock × Bool
  | .call (.write w) => if granted then (s.extend [w], true) else (s, false)
  | .call c =>
    match s.call c with
    | some s => (s, true)
    | none => (s, false)
  | .elsewhere _ => (s, true)

def events (s : NestedBlock) : List BlockEvent → List Bool → NestedBlock × List Bool
  | e :: rest, granted :: later =>
    let done := event s granted e
    let after := events done.1 rest later
    (after.1, done.2 :: after.2)
  | _, _ => (s, [])

def empty : NestedBlock := ⟨[], []⟩

/-- All writes of the block that were not undone, in order. -/
def writes (s : NestedBlock) : WriteBuffer := Nested.content applyWrite ∅ s.base s.levels

end NestedBlock

section Agreement

/-- The handle has the buffer and the copies of this stack. -/
def Mirrors (d : Shared) (id : Timestamp) (s : NestedBlock) : Prop :=
  ∃ t, d.handles[id]? = some t ∧
    (⟨t.handle.writes, t.savepoints.reverse⟩ : Savepoints.Copied Bytes WriteBuffer) =
      s.copied applyWrite ∅

theorem Shared.handle_withTxn (d : Shared) (id : Timestamp) (t : OpenTxn) :
    (d.withTxn id t).handles[id]? = some t := by
  rw [Shared.withTxn, Std.ExtTreeMap.getElem?_insert_self]

theorem findSavepoint_spec (savepoints : List (Bytes × WriteBuffer)) (name : Bytes) :
    findSavepoint savepoints name = none ∧ Savepoints.Copied.find name savepoints.reverse = none ∨
      ∃ i copy, findSavepoint savepoints name = some i ∧ savepoints[i]? = some (name, copy) ∧
        Savepoints.Copied.find name savepoints.reverse =
          some (copy, (savepoints.take i).reverse) := by
  induction savepoints using List.reverseRecOn with
  | nil => exact Or.inl ⟨rfl, rfl⟩
  | append_singleton before last ih =>
    simp only [findSavepoint, reverse_append, reverse_cons, reverse_nil,
      nil_append, singleton_append, findIdx?_cons, Savepoints.Copied.find,
      length_append, length_singleton] at ih ⊢
    by_cases here : last.1 = name
    · refine Or.inr ⟨before.length, last.2, ?_, ?_, ?_⟩
      · simp [here]
      · rw [getElem?_append_right (le_refl _), Nat.sub_self, ← here]
        rfl
      · simp [here]
    · simp only [here, decide_false, Bool.false_eq_true, if_false]
      rcases ih with ⟨missing, none⟩ | ⟨i, copy, there, entry, found⟩
      · refine Or.inl ⟨?_, none⟩
        simp only [map_eq_none_iff] at missing ⊢
        exact missing
      · obtain ⟨k, position, rfl⟩ := map_eq_some_iff.mp there
        have inside := (List.getElem?_eq_some_iff.mp entry).1
        refine Or.inr ⟨before.length - 1 - k, copy, ?_, ?_, ?_⟩
        · rw [position]
          simp only [map_some, some.injEq]
          omega
        · rw [getElem?_append_left inside, entry]
        · rw [found, take_append_of_le_length (by omega)]

variable {d : Shared} {id : Timestamp} {s : NestedBlock}

/-- A call on the handle is the call on the copies. -/
theorem Mirrors.call (mirrors : Mirrors d id s) (c : BufferCall) (own : ∀ w, c ≠ .write w) :
    (∃ d' s', d.bufferCall id c = .ok d' ∧ s.call c = some s' ∧ Mirrors d' id s') ∨
      d.bufferCall id c = .error () ∧ s.call c = none := by
  obtain ⟨t, open_, same⟩ := mirrors
  have agree := @call_copied _ _ _ _ applyWrite ∅ s c
  rw [← same] at agree
  cases c with
  | write w => exact absurd rfl (own w)
  | savepoint name =>
    refine Or.inl
      ⟨_, _, rfl, rfl, { t with savepoints := t.savepoints ++ [(name, t.handle.writes)] },
      ?_, ?_⟩
    · rw [Shared.savepoint, open_, Shared.handle_withTxn]
    · rw [reverse_append]
      exact some.inj agree
  | rollbackTo name =>
    simp only [Shared.bufferCall, Shared.rollbackTo, open_, Savepoints.Copied.call] at agree ⊢
    rcases findSavepoint_spec t.savepoints name with
      ⟨missing, none⟩ | ⟨i, copy, there, entry, found⟩
    · rw [none] at agree
      rw [missing]
      exact Or.inr ⟨rfl, map_eq_none_iff.mp agree.symm⟩
    · rw [found] at agree
      rw [there]
      obtain ⟨s', called, state⟩ := map_eq_some_iff.mp agree.symm
      refine Or.inl ⟨_, s', rfl, called, _, Shared.handle_withTxn .., ?_⟩
      rw [state, entry]
      have last : t.savepoints.take (i + 1) = t.savepoints.take i ++ [(name, copy)] := by
        rw [take_add_one, entry]
        rfl
      rw [last, reverse_append]
      rfl
  | release name =>
    simp only [Shared.bufferCall, Shared.release, open_, Savepoints.Copied.call] at agree ⊢
    rcases findSavepoint_spec t.savepoints name with
      ⟨missing, none⟩ | ⟨i, copy, there, entry, found⟩
    · rw [none] at agree
      rw [missing]
      exact Or.inr ⟨rfl, map_eq_none_iff.mp agree.symm⟩
    · rw [found] at agree
      rw [there]
      obtain ⟨s', called, state⟩ := map_eq_some_iff.mp agree.symm
      exact Or.inl ⟨_, s', rfl, called, _, Shared.handle_withTxn .., state.symm⟩

/-- One event: both kinds of block answer alike and agree afterwards. -/
theorem Mirrors.event (mirrors : Mirrors d id s) (e : BlockEvent) :
    ∃ s', s.event (d.event id e).2 e = (s', (d.event id e).2) ∧ Mirrors (d.event id e).1 id s' := by
  cases e with
  | elsewhere d' =>
    obtain ⟨t, open_, same⟩ := mirrors
    simp only [Shared.event, open_]
    exact ⟨s, rfl, t, Shared.handle_withTxn .., same⟩
  | call c =>
    by_cases own : ∃ w, c = .write w
    · obtain ⟨w, rfl⟩ := own
      obtain ⟨t, open_, same⟩ := mirrors
      simp only [Shared.event, Shared.bufferCall, Shared.bufferWrite, open_, TxnHandle.bufferWrite]
      cases locked : d.manager.acquireWriteLock w.1 t.handle.txnId with
      | error _ => exact ⟨s, rfl, t, open_, same⟩
      | ok m =>
        refine ⟨s.extend [w], rfl, _, Shared.handle_withTxn .., ?_⟩
        have agree := @call_copied _ _ _ _ applyWrite ∅ s (.write w)
        rw [← same] at agree
        exact some.inj agree
    · have calls := mirrors.call c fun w is_write => own ⟨w, is_write⟩
      have asked (granted : Bool) : s.event granted (.call c) = match s.call c with
          | some s => (s, true)
          | none => (s, false) := by
        cases c with
        | write w => exact absurd ⟨w, rfl⟩ own
        | savepoint name | rollbackTo name | release name => rfl
      rw [asked]
      rcases calls with ⟨d', s', done, called, after⟩ | ⟨refused, unknown⟩
      · simp only [Shared.event, done, called]
        exact ⟨s', rfl, after⟩
      · simp only [Shared.event, refused, unknown]
        exact ⟨s, rfl, mirrors⟩

/-- Whole runs, by induction over the events. -/
theorem Mirrors.events (mirrors : Mirrors d id s) (events : List BlockEvent) :
    ∃ s', s.events events (d.events id events).2 = (s', (d.events id events).2) ∧
      Mirrors (d.events id events).1 id s' := by
  induction events generalizing d s with
  | nil => exact ⟨s, rfl, mirrors⟩
  | cons e rest ih =>
    obtain ⟨next, answered, agrees⟩ := mirrors.event e
    obtain ⟨last, later, after⟩ := ih agrees
    refine ⟨last, ?_, after⟩
    simp only [Shared.events, NestedBlock.events, answered, later]

theorem Mirrors.buffer (mirrors : Mirrors d id s) : d.buffer id = some s.writes := by
  obtain ⟨t, open_, same⟩ := mirrors
  rw [Shared.buffer, open_]
  exact congrArg (fun copied => some copied.current) same

/-- A block begins with an empty buffer and without savepoints. -/
theorem mirrors_empty (d : Shared) :
    Mirrors d.beginTransaction.1 d.manager.nextTimestamp NestedBlock.empty :=
  ⟨_, Shared.handle_withTxn .., rfl⟩

end Agreement

section Answers

variable {σ : Type} {L : Surroundings σ} {cfg : Settings} {d : Shared} {id : Timestamp}
  {s : NestedBlock} {c : Connection σ Timestamp} {name : Bytes}

theorem Mirrors.rollbackTo_live (L : Surroundings σ) (cfg : Settings) {back : NestedBlock}
    (mirrors : Mirrors d id s) (inside : c.currentTxn = some id)
    (live : s.call (.rollbackTo name) = some back) :
    ∃ d', handleTxnControl (database L cfg) d c (.rollbackTo name) =
        .answer d' { c with txnFailed := false } [.commandComplete (ascii "ROLLBACK")] ∧
      Mirrors d' id back := by
  rcases mirrors.call (.rollbackTo name) nofun with ⟨d', s', done, called, after⟩ | ⟨-, unknown⟩
  · obtain rfl := some.inj (called.symm.trans live)
    refine ⟨d', ?_, after⟩
    have restored : (database L cfg).rollbackTo d id name = .ok d' := done
    simp only [handleTxnControl, inside, restored]
  · rw [unknown] at live
    cases live

theorem Mirrors.rollbackTo_unknown (mirrors : Mirrors d id s) (inside : c.currentTxn = some id)
    (unknown : s.call (.rollbackTo name) = none) :
    handleTxnControl (database L cfg) d c (.rollbackTo name) =
      .answer d c [noSuchSavepoint name] := by
  rcases mirrors.call (.rollbackTo name) nofun with ⟨d', s', -, called, -⟩ | ⟨refused, -⟩
  · rw [unknown] at called
    cases called
  · have refused : (database L cfg).rollbackTo d id name = .error () := refused
    simp only [handleTxnControl, inside, refused]

theorem live_iff : s.Live name ↔ ∃ back, s.call (.rollbackTo name) = some back := by
  rw [Nested.Live, ← above_isSome_iff, isSome_iff_exists]
  constructor
  · rintro ⟨found, there⟩
    exact ⟨_, by rw [Nested.call, there]; rfl⟩
  · rintro ⟨back, called⟩
    obtain ⟨found, there, -⟩ := map_eq_some_iff.mp called
    exact ⟨found, there⟩

/-- A statement in a block that has not failed is handed to the engine. -/
theorem runSimpleQueryTxn_ran {ic : Interceptors} {sql : Bytes} (accepts : c.txnFailed = false)
    (inside : c.currentTxn = some id) (plain : ic.parseTxnControl sql = none)
    (own : ic.tryHandlePgCatalog sql = none) :
    (runSimpleQueryTxn (database L cfg) ic d c sql).ran = [.simple sql] := by
  unfold runSimpleQueryTxn
  rw [plain]
  rw [if_neg (by simp [accepts]), own]
  rw [inside]
  dsimp only
  split <;> rfl

/-- Savepoints are nested transactions. After any events since BEGIN, the calls were answered
and the buffer is filled as in the stack of levels. ROLLBACK TO a live savepoint restores the
level's start and takes the block out of its failed state; an unknown name changes nothing. -/
theorem savepoints_are_nested (L : Surroundings σ) (cfg : Settings) (ic : Interceptors)
    (before : Shared) (events : List BlockEvent) :
    let id := before.manager.nextTimestamp
    let run := before.beginTransaction.1.events id events
    let block := NestedBlock.empty.events events run.2
    block.2 = run.2 ∧ run.1.buffer id = some block.1.writes ∧
      ∀ (c : Connection σ Timestamp) (name : Bytes), c.currentTxn = some id →
        let o := handleTxnControl (database L cfg) run.1 c (.rollbackTo name)
        (∀ back, block.1.call (.rollbackTo name) = some back →
          o.db.buffer id = some (NestedBlock.writes back) ∧
            o.connection = { c with txnFailed := false } ∧
          o.responses = [.commandComplete (ascii "ROLLBACK")] ∧
          ∀ sql, ic.parseTxnControl sql = none → ic.tryHandlePgCatalog sql = none →
            (runSimpleQueryTxn (database L cfg) ic o.db o.connection sql).ran = [.simple sql]) ∧
        (¬ block.1.Live name →
          o.db = run.1 ∧ o.connection = c ∧ o.responses = [noSuchSavepoint name]) := by
  intro id run block
  obtain ⟨s, answered, mirrors⟩ := (mirrors_empty before).events events
  have state : block.1 = s := congrArg Prod.fst answered
  rw [state]
  refine ⟨congrArg Prod.snd answered, mirrors.buffer, fun c name inside => ⟨?_, ?_⟩⟩
  · intro back live
    obtain ⟨d', answer, after⟩ := mirrors.rollbackTo_live L cfg inside live
    rw [answer]
    exact ⟨after.buffer, rfl, rfl, fun sql plain own => runSimpleQueryTxn_ran rfl inside plain own⟩
  · intro dead
    have unknown : s.call (.rollbackTo name) = none := by
      rw [live_iff, not_exists] at dead
      exact eq_none_iff_forall_ne_some.mpr dead
    rw [mirrors.rollbackTo_unknown inside unknown]
    exact ⟨rfl, rfl, rfl⟩

end Answers

end GalaxDb.Server
