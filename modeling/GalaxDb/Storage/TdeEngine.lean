import GalaxDb.Storage.Encryption
import GalaxDb.Storage.EngineRun
import GalaxDb.Storage.ScanColumnar

/-!
# The engine with encryption at rest

Files hold serialized blocks, encrypted if a module is enabled when they are written, and the
registry remembers which. Point reads and compactions decrypt; scans do not. Calls come one
at a time and without I/O errors.
-/

namespace GalaxDb

open Compaction

/-- What becomes of a block on its way to disk and back. -/
structure BlockFormat (σ : Type) where
  serialize : PaxBlock → σ
  deserialize : σ → Option PaxBlock
  length : σ → Nat
  columnZone : ScanColumnar.ColumnZone

structure TdeSstEntry where
  path : Nat
  encrypted : Bool
  deriving DecidableEq

structure TdeEngine (σ : Type) where
  config : EngineConfig
  memtableMgr : MemtableManager
  art : ArtIndex RowLocation
  wal : WalWriter
  sstRegistry : Std.ExtTreeMap Nat TdeSstEntry compare
  nextTimestamp : Timestamp
  nextSstId : Nat
  rowCount : Nat
  pinSource : List Timestamp
  bgWorkerActive : Bool
  columnar : List SplitterRegistration
  files : Std.ExtTreeMap Nat (List σ) compare
  nextBlockId : Nat
  tde : Option (TdeModule σ)
  nonce : Nat

namespace TdeEngine

variable {σ : Type} (env : Platform) (fmt : BlockFormat σ)

/-- The registrations as flush and compaction use them. -/
def registrations (s : TdeEngine σ) : List ColumnarRegistration :=
  s.columnar.map ScanColumnar.registrationOf

/-- The parts that writes work on: encryption has no hand in them. -/
def front (s : TdeEngine σ) : Engine where
  config := s.config
  memtableMgr := s.memtableMgr
  art := s.art
  wal := s.wal
  sstRegistry := ∅
  nextTimestamp := s.nextTimestamp
  nextSstId := s.nextSstId
  rowCount := s.rowCount
  pinSource := s.pinSource
  bgWorkerActive := s.bgWorkerActive
  columnar := s.registrations
  files := ∅
  nextBlockId := s.nextBlockId

def withFront (s : TdeEngine σ) (e : Engine) : TdeEngine σ :=
  { s with
    memtableMgr := e.memtableMgr
    art := e.art
    wal := e.wal
    nextTimestamp := e.nextTimestamp
    rowCount := e.rowCount }

def putSync (s : TdeEngine σ) (key value : Bytes) : Option (TdeEngine σ × Timestamp) :=
  (s.front.putSync env key value).map fun r => (s.withFront r.1, r.2)

def putBatchSync (s : TdeEngine σ) (rows : List (Bytes × Bytes)) : Option (TdeEngine σ × Nat) :=
  (s.front.putBatchSync env rows).map fun r => (s.withFront r.1, r.2)

def deleteSync (s : TdeEngine σ) (key : Bytes) : TdeEngine σ × Bool :=
  let r := s.front.deleteSync env key
  (s.withFront r.1, r.2)

/-- A block that a point read fetches is decrypted if its file was written encrypted. -/
def readValue (s : TdeEngine σ) (sstId blockOffset rowOffset : Nat) : Option Bytes :=
  (s.sstRegistry[sstId]?).bind fun entry =>
    (s.files[entry.path]?).bind fun file =>
      (file[blockOffset]?).bind fun raw =>
        (decryptBlock s.tde entry.encrypted raw).bind fun bytes =>
          (fmt.deserialize bytes).bind fun block => (block.rows[rowOffset]?).map SstRow.value

def get (s : TdeEngine σ) (key : Bytes) : Option Bytes :=
  match s.art.lookup key with
  | none => none
  | some (.memtable _ _) => (s.memtableMgr.get key).join
  | some (.sst sstId blockOffset rowOffset) => s.readValue fmt sstId blockOffset rowOffset

/-- The blocks that the scans get: the bytes of a block go to the parser as they are, and a
block that does not parse is passed over. -/
def scanBlocks (s : TdeEngine σ) (order : IterOrder) : List PaxBlock :=
  (order.entries TdeSstEntry.path s.sstRegistry).flatMap fun entry =>
    ((s.files[entry.2.path]?).getD []).filterMap fmt.deserialize

def scanAllWithPrefix (s : TdeEngine σ) (order : IterOrder) (keyPrefix : Option Bytes) :
    List (Bytes × Bytes) :=
  let merged := (Engine.scanRows (s.scanBlocks fmt order) keyPrefix).foldl Engine.scanRow ⟨∅, ∅⟩
  (Engine.overlayMemtable (merged.out.map fun _ v => v.1)
    (Engine.memEntries s.memtableMgr.active keyPrefix)).toList

def scanAll (s : TdeEngine σ) (order : IterOrder) : List (Bytes × Bytes) :=
  s.scanAllWithPrefix fmt order none

def scanAllAt (s : TdeEngine σ) (order : IterOrder) (readTs : Timestamp) :
    List (Bytes × Bytes × Timestamp) :=
  let rows := (s.scanBlocks fmt order).flatMap PaxBlock.rows
  let out := rows.foldl (Engine.snapshotRow readTs) ∅
  (s.memtableMgr.active.iterAll.foldl (Engine.snapshotEntry readTs) out).toList

def scanColumnar (s : TdeEngine σ) (order : IterOrder) (pfx : Bytes) (projection : List Nat)
    (predicates : List ColumnPredicate) (readTs : Timestamp) :
    Except ColumnarError ColumnarBatch :=
  ScanColumnar.scan fmt.columnZone s.columnar (s.scanBlocks fmt order) s.memtableMgr.active pfx
    projection predicates readTs

/-- The length of a block on disk; it does not depend on the nonce. -/
def storedLen (tde : Option (TdeModule σ)) (block : PaxBlock) : Nat :=
  fmt.length (encryptBlock tde 0 (fmt.serialize block))

/-- One file written, encrypted if a module is enabled, and registered under an id. -/
def registerFile (s : TdeEngine σ) (sstId : Nat) (file : Nat × SstFile) : TdeEngine σ :=
  { s with
    files := s.files.insert file.1 (encryptAll s.tde s.nonce (file.2.map fmt.serialize))
    nonce := s.nonce + file.2.length
    sstRegistry := s.sstRegistry.insert sstId ⟨file.1, s.tde.isSome⟩ }

def registerFiles (s : TdeEngine σ) (sstId : Nat) : List (Nat × SstFile) → TdeEngine σ
  | [] => s
  | file :: rest =>
    rest.foldl (fun s f =>
      { s.registerFile fmt s.nextSstId f with nextSstId := s.nextSstId + 1 })
      (s.registerFile fmt sstId file)

def flushConfig (s : TdeEngine σ) : FlushConfig :=
  ⟨s.config.sstSizeBytes, s.config.maxRowsPerSst⟩

/-- Flush without the compaction that may follow it. -/
def flushActive (s : TdeEngine σ) : Option (TdeEngine σ) :=
  let active := s.memtableMgr.active
  let entries := active.iterAll
  let sstId := s.nextSstId
  let result := Flush.flushMemtableInner (storedLen fmt s.tde) s.flushConfig s.registrations sstId
    s.nextBlockId active
  let registered := registerFiles fmt
    { s with nextSstId := sstId + 1, nextBlockId := result.nextBlockId } sstId result.files
  (Engine.insertAll registered.art
    ((entries.map Prod.fst).zip (Engine.flushLocations sstId result.blockMap))).map fun art =>
      { registered with
        art := art
        memtableMgr := registered.memtableMgr.sealActive.onFlushComplete active.size }

/-- The blocks of an input that parse. No result is a block that fails to decrypt. -/
def inputBlocks (s : TdeEngine σ) (entry : TdeSstEntry) : Option (List PaxBlock) :=
  (((s.files[entry.path]?).getD []).mapM (decryptBlock s.tde entry.encrypted)).map fun blocks =>
    blocks.filterMap fmt.deserialize

/-- Write and register one output, then move the index entries of its latest versions. -/
def commitOutput (inputIds : List Nat) (s : TdeEngine σ) (out : CompactionOutput) :
    Option (TdeEngine σ) :=
  let sid := s.nextSstId
  let fid := s.nextBlockId
  let s := { s.registerFile fmt sid (fid, out.blocks) with
    nextSstId := sid + 1
    nextBlockId := fid + 1 }
  (out.artTargets.foldlM
    (fun art t => Engine.relocateIfPointsTo art t.1 inputIds (.sst sid t.2.1 t.2.2)) s.art).map
      fun art => { s with art := art }

/-- A block that fails to decrypt ends the call with an error and without a change. -/
def compactInner (s : TdeEngine σ) (order : IterOrder) (force : Bool) : Option (TdeEngine σ) :=
  let inputs := order.entries TdeSstEntry.path s.sstRegistry
  let threshold := if force then 1 else 2
  if inputs.length < threshold then some s
  else
    match inputs.mapM fun entry => s.inputBlocks fmt entry.2 with
    | none => some s
    | some blocks =>
      let inputIds := inputs.map Prod.fst
      let rows := blocks.flatMap SstFile.rows
      let versions := rows.foldl addVersion ∅
      let survived := survivors s.pinSource versions
      let outputs := (workerChunks s.config.compactionConcurrency survived).flatMap
        (buildRun (storedLen fmt s.tde) (latestTs s.pinSource versions) s.config.sstSizeBytes
          s.config.maxRowsPerSst s.registrations)
      (outputs.foldlM (commitOutput fmt inputIds) s).map fun s =>
        { s with
          sstRegistry := inputIds.foldl (fun reg id => reg.erase id) s.sstRegistry
          files := inputs.foldl (fun files entry => files.erase entry.2.path) s.files }

def maybeCompact (s : TdeEngine σ) (order : IterOrder) : Option (TdeEngine σ) :=
  if s.sstRegistry.size < s.config.l0CompactionTrigger then some s
  else s.compactInner fmt order false

/-- An empty memtable is not flushed. With a background worker the merge is left to it. -/
def flushMemtable (s : TdeEngine σ) (order : IterOrder) : Option (TdeEngine σ × Nat) :=
  let entries := s.memtableMgr.active.iterAll
  if entries = [] then some (s, 0)
  else
    (s.flushActive fmt).bind fun flushed =>
      (if flushed.bgWorkerActive then some flushed else flushed.maybeCompact fmt order).map
        fun s => (s, entries.length)

/-- One call on the engine, with the order in which a pass over the registry meets the files. -/
inductive Call where
  | put (key value : Bytes)
  | putBatch (rows : List (Bytes × Bytes))
  | delete (key : Bytes)
  | flush (order : IterOrder)
  | compact (order : IterOrder)
  | forceCompact (order : IterOrder)
  | configure (pins : List Timestamp) (bgWorkerActive : Bool) (columnar : List SplitterRegistration)

def step (s : TdeEngine σ) : Call → Option (TdeEngine σ)
  | .put key value => (s.putSync env key value).map Prod.fst
  | .putBatch rows => (s.putBatchSync env rows).map Prod.fst
  | .delete key => some (s.deleteSync env key).1
  | .flush order => (s.flushMemtable fmt order).map Prod.fst
  | .compact order => s.compactInner fmt order false
  | .forceCompact order => s.compactInner fmt order true
  | .configure pins bg columnar =>
    some { s with pinSource := pins, bgWorkerActive := bg, columnar := columnar }

/-- An engine over an empty directory, with the module enabled before the first call. -/
def fresh (config : EngineConfig) (tde : Option (TdeModule σ)) : TdeEngine σ where
  config := config
  memtableMgr := MemtableManager.new config.memtableSizeBytes
  art := ArtIndex.new
  wal := (WalWriter.new env.toWalCodec []).toOption.getD ⟨[], 0, 0, 1⟩
  sstRegistry := ∅
  nextTimestamp := 1
  nextSstId := 1
  rowCount := 0
  pinSource := []
  bgWorkerActive := false
  columnar := []
  files := ∅
  nextBlockId := 1
  tde := tde
  nonce := 0

end TdeEngine

end GalaxDb
