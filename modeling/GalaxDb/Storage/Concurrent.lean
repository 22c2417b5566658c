import GalaxDb.Storage.MapRefinement

/-!
# Writes and flushes that interleave

The calls of several threads as the atomic steps of the code. Memtables are shared
objects: the manager and every call refer to them by number, so a call may hold a table
that has been sealed in the meantime. Merging is left to the background worker.
-/

namespace GalaxDb

open Row

namespace Concurrent

inductive Call where
  | put (key value : Bytes)
  | delete (key : Bytes)
  | flush

/-- How far a call has come. A flush keeps the entries of its first snapshot. -/
inductive Pc where
  | putting (key value : Bytes)
  | deleting (key : Bytes)
  | found (key : Bytes)
  | drawn (row : Row Bytes Bytes)
  | logged (row : Row Bytes Bytes)
  | holding (row : Row Bytes Bytes) (table : Nat)
  | inserted (row : Row Bytes Bytes)
  | flushing
  | snapshot (table : Nat) (entries : List Flush.Entry) (sstId : Nat)
  | written (table : Nat) (entries : List Flush.Entry) (sstId : Nat) (result : FlushResult)
  | registered (table : Nat)
  | swapped (table : Nat)
  | done

def Pc.isDone : Pc → Bool
  | .done => true
  | _ => false

theorem Pc.eq_done_of_isDone {pc : Pc} (h : pc.isDone = true) : pc = .done := by
  cases pc <;> first | rfl | cases h

def Call.start : Call → Pc
  | .put key value => .putting key value
  | .delete key => .deleting key
  | .flush => .flushing

/-- `engine` is everything but the memtables. `writes` records every write under the
timestamp that was drawn for it. -/
structure State where
  engine : Engine
  tables : Nat → Memtable
  nextTable : Nat
  active : Nat
  sealedQueue : List Nat
  calls : List Pc
  writes : List (Row Bytes Bytes)

inductive Act where
  | call (c : Call)
  | advance (i : Nat)

namespace State

/-- The engine as a reader sees it now. -/
def view (s : State) : Engine :=
  { s.engine with
    memtableMgr := { s.engine.memtableMgr with
      active := s.tables s.active
      sealedQueue := s.sealedQueue.map s.tables } }

def moveTo (s : State) (i : Nat) (pc : Pc) : State := { s with calls := s.calls.set i pc }

def nextTs (s : State) (i : Nat) (key : Bytes) (value : Option Bytes) : State :=
  let row := Row.mk key s.engine.nextTimestamp value
  { s with
    engine := { s.engine with nextTimestamp := s.engine.nextTimestamp + 1 }
    calls := s.calls.set i (.drawn row)
    writes := s.writes ++ [row] }

def appendWal (env : Platform) (s : State) (row : Row Bytes Bytes) : State :=
  let wal := match row.val with
    | some value => s.engine.wal.append env.toWalCodec .rowPut (Engine.encodeKv row.key value)
    | none => s.engine.wal.append env.toWalCodec .rowDelete row.key
  { s with engine := { s.engine with wal := wal } }

def insertRow (s : State) (row : Row Bytes Bytes) (table : Nat) : State :=
  { s with tables :=
      Function.update s.tables table ((s.tables table).put row.key row.ts row.val).1 }

def updateArt (env : Platform) (s : State) (row : Row Bytes Bytes) : Option State :=
  match row.val with
  | some _ =>
    (s.engine.art.insert row.key (Engine.memtableLocation env row.key)).map (fun art =>
      { s with engine := { s.engine with art := art, rowCount := s.engine.rowCount + 1 } })
  | none => some { s with engine := { s.engine with art := s.engine.art.delete row.key } }

def registerSst (s : State) (entries : List Flush.Entry) (sstId : Nat) (result : FlushResult) :
    Option State :=
  let registered := Engine.registerFiles s.engine sstId result.files
  (Engine.insertAll registered.art
    ((entries.map Prod.fst).zip (Engine.flushLocations sstId result.blockMap))).map (fun art =>
      { s with engine := { registered with art := art } })

/-- The table that is active now is sealed, whichever one the caller has flushed. -/
def sealActive (s : State) : State :=
  let active := s.tables s.active
  if active.isSealed then s
  else
    { s with
      tables := Function.update (Function.update s.tables s.active active.sealTable) s.nextTable
        (Memtable.new s.engine.memtableMgr.sealThreshold)
      nextTable := s.nextTable + 1
      active := s.nextTable
      sealedQueue := s.sealedQueue ++ [s.active] }

def onFlushComplete (s : State) (table : Nat) : State :=
  { s with
    engine := { s.engine with memtableMgr :=
      s.engine.memtableMgr.onFlushComplete (s.tables table).size }
    sealedQueue := s.sealedQueue.tail }

/-- The next step of the call at place `i`. -/
def advance (env : Platform) (s : State) (i : Nat) : Pc → Option State
  | .putting key value => some (s.nextTs i key (some value))
  | .deleting key =>
    some (s.moveTo i (if s.engine.art.lookup key = none then .done else .found key))
  | .found key => some (s.nextTs i key none)
  | .drawn row => some ((s.appendWal env row).moveTo i (.logged row))
  | .logged row => some (s.moveTo i (.holding row s.active))
  | .holding row table => some ((s.insertRow row table).moveTo i (.inserted row))
  | .inserted row => (s.updateArt env row).map (fun s => s.moveTo i .done)
  | .flushing =>
    let entries := (s.tables s.active).iterAll
    if entries = [] then some (s.moveTo i .done)
    else
      let sstId := s.engine.nextSstId
      some ({ s with engine := { s.engine with nextSstId := sstId + 1 } }.moveTo i
        (.snapshot s.active entries sstId))
  | .snapshot table entries sstId =>
    let result := Flush.flushMemtableInner env.blockLen s.engine.flushConfig s.engine.columnar
      sstId s.engine.nextBlockId (s.tables table)
    some ({ s with engine := { s.engine with nextBlockId := result.nextBlockId } }.moveTo i
      (.written table entries sstId result))
  | .written table entries sstId result =>
    (s.registerSst entries sstId result).map (fun s => s.moveTo i (.registered table))
  | .registered table => some (s.sealActive.moveTo i (.swapped table))
  | .swapped table => some ((s.onFlushComplete table).moveTo i .done)
  | .done => some s

/-- A new call, or the next step of one that has been started. -/
def step (env : Platform) (s : State) : Act → Option State
  | .call c => some { s with calls := s.calls ++ [c.start] }
  | .advance i =>
    match s.calls[i]? with
    | some pc => s.advance env i pc
    | none => some s

/-- A new engine on an empty directory, with the background worker running. -/
def init (env : Platform) (config : EngineConfig) : State where
  engine := { Engine.fresh env config with bgWorkerActive := true }
  tables := fun _ => Memtable.new config.memtableSizeBytes
  nextTable := 1
  active := 0
  sealedQueue := []
  calls := []
  writes := []

def AllDone (s : State) : Prop := ∀ pc ∈ s.calls, pc.isDone = true

instance (s : State) : Decidable s.AllDone :=
  inferInstanceAs (Decidable (∀ pc ∈ s.calls, pc.isDone = true))

end State

end Concurrent

end GalaxDb
