import GalaxDb.Storage.Concurrent

/-!
# Compactions beside writes and flushes

A compaction holds its own lock from beginning to end, but the lock of the registry only
while it copies the inputs out of it and while it commits its outputs. Flushes register
their files in between.
-/

namespace GalaxDb

open Compaction

namespace ConcurrentCompaction

/-- How far a compaction has come. `maybe_compact` looks at the number of files and gives up
if another compaction is running; the explicit calls wait for it. -/
inductive Pc where
  | checking
  | trying
  | waiting (force : Bool)
  | locked (force : Bool)
  | merging (inputs : List (Nat × SstEntry))
  | built (inputs : List (Nat × SstEntry)) (outputs : List CompactionOutput)
  | committed (inputs : List (Nat × SstEntry))
  | done

/-- Between taking the compaction lock and leaving it. -/
def Pc.holdsLock : Pc → Bool
  | .locked _ => true
  | .merging _ => true
  | .built _ _ => true
  | .committed _ => true
  | _ => false

structure State where
  writers : Concurrent.State
  compactions : List Pc

inductive Act where
  | writer (a : Concurrent.Act)
  | maybeCompact
  | compact (force : Bool)
  | advance (i : Nat)

/-- What is built from the rows of the inputs. -/
def outputsOf (env : Platform) (e : Engine) (inputs : List (Nat × SstEntry)) :
    List CompactionOutput :=
  let rows := inputs.flatMap (fun entry => SstFile.rows (e.blocksOf entry.2))
  let versions := rows.foldl addVersion ∅
  let survived := survivors e.pinSource versions
  (workerChunks e.config.compactionConcurrency survived).flatMap
    (buildRun env.blockLen (latestTs e.pinSource versions) e.config.sstSizeBytes
      e.config.maxRowsPerSst e.columnar)

/-- All outputs are registered, and the inputs no longer, under one lock. -/
def commit (e : Engine) (inputs : List (Nat × SstEntry)) (outputs : List CompactionOutput) :
    Option Engine :=
  let inputIds := inputs.map Prod.fst
  (outputs.foldlM (Engine.commitOutput inputIds) e).map (fun e =>
    { e with sstRegistry := inputIds.foldl (fun reg id => reg.erase id) e.sstRegistry })

/-- The files of the inputs are removed from the directory. -/
def unlink (e : Engine) (inputs : List (Nat × SstEntry)) : Engine :=
  { e with files := inputs.foldl (fun files entry => files.erase entry.2.path) e.files }

namespace State

def engine (s : State) : Engine := s.writers.engine

def setEngine (s : State) (e : Engine) : State :=
  { s with writers := { s.writers with engine := e } }

def moveTo (s : State) (i : Nat) (pc : Pc) : State :=
  { s with compactions := s.compactions.set i pc }

/-- The next step of the compaction at place `i`. One that waits for the lock has none. -/
def advance (env : Platform) (order : IterOrder) (s : State) (i : Nat) : Pc → Option State
  | .checking =>
    some (s.moveTo i (if s.engine.sstRegistry.size < s.engine.config.l0CompactionTrigger then .done
      else .trying))
  | .trying =>
    some (s.moveTo i (if s.compactions.any Pc.holdsLock then .done else .locked false))
  | .waiting force =>
    if s.compactions.any Pc.holdsLock then none else some (s.moveTo i (.locked force))
  | .locked force =>
    let inputs := order.order s.engine.sstRegistry.toList
    let threshold := if force then 1 else 2
    some (s.moveTo i (if inputs.length < threshold then .done else .merging inputs))
  | .merging inputs => some (s.moveTo i (.built inputs (outputsOf env s.engine inputs)))
  | .built inputs outputs =>
    (commit s.engine inputs outputs).map (fun e => (s.setEngine e).moveTo i (.committed inputs))
  | .committed inputs => some ((s.setEngine (unlink s.engine inputs)).moveTo i .done)
  | .done => some s

def step (env : Platform) (order : IterOrder) (s : State) : Act → Option State
  | .writer a => (s.writers.step env a).map (fun w => { s with writers := w })
  | .maybeCompact => some { s with compactions := s.compactions ++ [.checking] }
  | .compact force => some { s with compactions := s.compactions ++ [.waiting force] }
  | .advance i =>
    match s.compactions[i]? with
    | some pc => s.advance env order i pc
    | none => some s

def init (env : Platform) (config : EngineConfig) : State := ⟨Concurrent.State.init env config, []⟩

end State

end ConcurrentCompaction

end GalaxDb
