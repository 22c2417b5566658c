import GalaxDb.Storage.Art
import GalaxDb.Storage.Compaction
import GalaxDb.Storage.Wal

/-!
# Storage engine

The facade over log, memtable, index and SST files, run by one caller at a time and
without I/O errors. An operation that has no result is a panic inside the index.
-/

namespace GalaxDb

open Std Compaction

/-- What the engine takes from outside: checksum and compression of the log, and the
serialized size of a block. -/
structure Platform extends WalCodec where
  blockLen : PaxBlock → Nat

structure EngineConfig where
  memtableSizeBytes : Nat
  sstSizeBytes : Nat
  maxRowsPerSst : Nat
  compactionConcurrency : Nat
  l0CompactionTrigger : Nat

def EngineConfig.default : EngineConfig where
  memtableSizeBytes := 64 * 1024 * 1024
  sstSizeBytes := 8 * 1024 * 1024
  maxRowsPerSst := 100000
  compactionConcurrency := 4
  l0CompactionTrigger := 4

inductive RowLocation where
  | memtable (shard : Nat) (key : Bytes)
  | sst (sstId blockOffset rowOffset : Nat)
  deriving DecidableEq

/-- A registered file: the number in its name. Its block index is that of the file. -/
structure SstEntry where
  path : Nat
  deriving DecidableEq

/-- The order in which one pass over the registry's hash map meets the files. -/
structure IterOrder where
  order : List (Nat × SstEntry) → List (Nat × SstEntry)
  perm : ∀ entries, (order entries).Perm entries

def IterOrder.byId : IterOrder := ⟨id, fun _ => List.Perm.refl _⟩

def IterOrder.reversed : IterOrder := ⟨List.reverse, List.reverse_perm⟩

/-- The files of a data directory: the log and `sst_<id>.pax` by id. -/
structure DataDir where
  wal : Bytes
  files : ExtTreeMap Nat SstFile compare

structure Engine where
  config : EngineConfig
  memtableMgr : MemtableManager
  art : ArtIndex RowLocation
  wal : WalWriter
  sstRegistry : ExtTreeMap Nat SstEntry compare
  nextTimestamp : Timestamp
  nextSstId : Nat
  rowCount : Nat
  pinSource : List Timestamp
  bgWorkerActive : Bool
  columnar : List ColumnarRegistration
  files : ExtTreeMap Nat SstFile compare
  nextBlockId : Nat

namespace Engine

variable (env : Platform)

def encodeKv (key value : Bytes) : Bytes :=
  Bytes.toLe 4 key.length ++ key ++ value

def decodeKv (payload : Bytes) : Option (Bytes × Bytes) :=
  if payload.length < 4 then none
  else
    let keyLen := Bytes.ofLe (payload.take 4)
    if payload.length < 4 + keyLen then none
    else some ((payload.drop 4).take keyLen, payload.drop (4 + keyLen))

/-- The payload of one record for a whole batch: a row count, then length-prefixed keys
and values. -/
def encodeBatch (rows : List (Bytes × Bytes)) : Bytes :=
  Bytes.toLe 4 rows.length ++ rows.flatMap (fun r =>
    Bytes.toLe 4 r.1.length ++ r.1 ++ Bytes.toLe 4 r.2.length ++ r.2)

def memtableLocation (key : Bytes) : RowLocation :=
  .memtable ((env.xxh3 key).toNat % 16) key

/-- Memtable and index part of a put, under an allocated timestamp. -/
def applyPut (e : Engine) (key value : Bytes) (ts : Timestamp) : Option Engine :=
  (e.art.insert key (memtableLocation env key)).map (fun art =>
    { e with
      memtableMgr :=
        { e.memtableMgr with active := (e.memtableMgr.active.put key ts (some value)).1 }
      art := art })

def putSync (e : Engine) (key value : Bytes) : Option (Engine × Timestamp) :=
  let ts := e.nextTimestamp
  let e := { e with
    nextTimestamp := ts + 1
    wal := e.wal.append env.toWalCodec .rowPut (encodeKv key value) }
  (e.applyPut env key value ts).map (fun e => ({ e with rowCount := e.rowCount + 1 }, ts))

/-- Every row of a batch draws its own timestamp. -/
def applyBatch (e : Engine) : List (Bytes × Bytes) → Option Engine
  | [] => some e
  | (key, value) :: rest =>
    (applyPut env { e with nextTimestamp := e.nextTimestamp + 1 } key value e.nextTimestamp).bind
      (fun e => applyBatch e rest)

def putBatchSync (e : Engine) (rows : List (Bytes × Bytes)) : Option (Engine × Nat) :=
  if rows = [] then some (e, 0)
  else
    let e := { e with wal := e.wal.append env.toWalCodec .rowPut (encodeBatch rows) }
    (e.applyBatch env rows).map
      (fun e => ({ e with rowCount := e.rowCount + rows.length }, rows.length))

def deleteSync (e : Engine) (key : Bytes) : Engine × Bool :=
  if e.art.lookup key = none then (e, false)
  else
    let ts := e.nextTimestamp
    ({ e with
      nextTimestamp := ts + 1
      wal := e.wal.append env.toWalCodec .rowDelete key
      memtableMgr := { e.memtableMgr with active := (e.memtableMgr.active.put key ts none).1 }
      art := e.art.delete key }, true)

/-- The blocks of a registered file; a file that cannot be read has none. -/
def blocksOf (e : Engine) (entry : SstEntry) : SstFile :=
  (e.files[entry.path]?).getD []

def readValue (e : Engine) (sstId blockOffset rowOffset : Nat) : Option Bytes :=
  (e.sstRegistry[sstId]?).bind (fun entry =>
    ((e.blocksOf entry).rowAt blockOffset rowOffset).map SstRow.value)

def get (e : Engine) (key : Bytes) : Option Bytes :=
  match e.art.lookup key with
  | none => none
  | some (.memtable _ _) => (e.memtableMgr.get key).join
  | some (.sst sstId blockOffset rowOffset) => e.readValue sstId blockOffset rowOffset

def latestCommitTs (e : Engine) : Timestamp := e.nextTimestamp - 1

/-- The blocks of all registered files in the order of one pass over the registry. -/
def scanBlocks (e : Engine) (order : IterOrder) : List PaxBlock :=
  (order.order e.sstRegistry.toList).flatMap (fun entry => e.blocksOf entry.2)

/-- Whether a block whose keys lie between the bounds may hold a key with the prefix. -/
def keyRangeOverlapsPrefix (zoneMin zoneMax pfx : Bytes) : Bool :=
  if zoneMin = [] ∧ zoneMax = [] then true
  else if compare zoneMax pfx = .lt then false
  else
    let common := commonPrefixLen zoneMin pfx
    if common < pfx.length ∧ common < zoneMin.length then
      !decide (pfx.getD common 0 < zoneMin.getD common 0)
    else true

/-- Winning version per key and the keys whose winner is a tombstone. -/
structure ScanState where
  out : ExtTreeMap Bytes (Bytes × Timestamp) compare
  tombstoned : ExtTreeMap Bytes Timestamp compare

def scanRow (s : ScanState) (r : SstRow) : ScanState :=
  let liveTs := (s.out[r.key]?).map Prod.snd
  let tombTs := s.tombstoned[r.key]?
  let newestSeen := max (liveTs.getD 0) (tombTs.getD 0)
  if r.ts < newestSeen then s
  else if r.value = [] then ⟨s.out.erase r.key, s.tombstoned.insert r.key r.ts⟩
  else ⟨s.out.insert r.key (r.value, r.ts), s.tombstoned.erase r.key⟩

/-- The rows a prefix scan looks at: blocks are pruned by zone map, rows by their key. -/
def scanRows (blocks : List PaxBlock) : Option Bytes → List SstRow
  | none => blocks.flatMap PaxBlock.rows
  | some pfx =>
    (blocks.filter (fun b => keyRangeOverlapsPrefix b.zoneMapMin b.zoneMapMax pfx)).flatMap
      (fun b => b.rows.filter (fun r => pfx.isPrefixOf r.key))

/-- The active memtable overrides whatever the files say. -/
def overlayMemtable (out : ExtTreeMap Bytes Bytes compare)
    (entries : List (Bytes × VersionedValue)) : ExtTreeMap Bytes Bytes compare :=
  entries.foldl (fun out e =>
    match e.2.value with
    | some v => out.insert e.1 v
    | none => out.erase e.1) out

/-- The memtable entries under a prefix, by a bounded range scan. -/
def memEntries (active : Memtable) : Option Bytes → List (Bytes × VersionedValue)
  | some pfx => active.iterPrefix pfx
  | none => active.iterAll

def scanAllWithPrefix (e : Engine) (order : IterOrder) (keyPrefix : Option Bytes) :
    List (Bytes × Bytes) :=
  let merged := (scanRows (e.scanBlocks order) keyPrefix).foldl scanRow ⟨∅, ∅⟩
  (overlayMemtable (merged.out.map (fun _ v => v.1))
    (memEntries e.memtableMgr.active keyPrefix)).toList

def scanAll (e : Engine) (order : IterOrder) : List (Bytes × Bytes) :=
  e.scanAllWithPrefix order none

abbrev SnapshotMap := ExtTreeMap Bytes (Bytes × Timestamp) compare

/-- One visible row of a snapshot scan. A tombstone removes the key and leaves no trace. -/
def snapshotMerge (out : SnapshotMap) (key : Bytes) (value : Option Bytes) (ts : Timestamp) :
    SnapshotMap :=
  if ((out[key]?).map Prod.snd).getD 0 ≤ ts then
    match value with
    | some v => out.insert key (v, ts)
    | none => out.erase key
  else out

def snapshotRow (readTs : Timestamp) (out : SnapshotMap) (r : SstRow) : SnapshotMap :=
  if readTs < r.ts then out
  else snapshotMerge out r.key (if r.value = [] then none else some r.value) r.ts

def snapshotEntry (readTs : Timestamp) (out : SnapshotMap) (e : Bytes × VersionedValue) :
    SnapshotMap :=
  match e.2.getAtWithTs readTs with
  | some (value, ts) => snapshotMerge out e.1 value ts
  | none => out

def scanAllAt (e : Engine) (order : IterOrder) (readTs : Timestamp) :
    List (Bytes × Bytes × Timestamp) :=
  let rows := (e.scanBlocks order).flatMap PaxBlock.rows
  let out := rows.foldl (snapshotRow readTs) ∅
  (e.memtableMgr.active.iterAll.foldl (snapshotEntry readTs) out).toList

def scanAllAtWithPrefix (e : Engine) (order : IterOrder) (pfx : Bytes) (readTs : Timestamp) :
    List (Bytes × Bytes × Timestamp) :=
  (e.scanAllAt order readTs).filter (fun r => pfx.isPrefixOf r.1)

def getAt (e : Engine) (order : IterOrder) (key : Bytes) (readTs : Timestamp) : Option Bytes :=
  ((e.scanAllAt order readTs).find? (fun r => r.1 = key)).map (fun r => r.2.1)

def insertAll (art : ArtIndex RowLocation) :
    List (Bytes × RowLocation) → Option (ArtIndex RowLocation)
  | [] => some art
  | (key, location) :: rest => (art.insert key location).bind (fun art => insertAll art rest)

/-- `relocate_if_points_to`: never clobbers a location outside the given files. -/
def relocateIfPointsTo (art : ArtIndex RowLocation) (key : Bytes) (sstIds : List Nat)
    (location : RowLocation) : Option (ArtIndex RowLocation) :=
  match art.lookup key with
  | some (.sst sstId _ _) => if sstId ∈ sstIds then art.insert key location else some art
  | _ => some art

/-- One file written and registered under an id. -/
def registerFile (e : Engine) (sstId : Nat) (file : Nat × SstFile) : Engine :=
  { e with
    files := e.files.insert file.1 file.2
    sstRegistry := e.sstRegistry.insert sstId ⟨file.1⟩ }

/-- The first file takes the id the flush has drawn, each further one draws its own. -/
def registerFiles (e : Engine) (sstId : Nat) : List (Nat × SstFile) → Engine
  | [] => e
  | file :: rest =>
    rest.foldl (fun e f => { e.registerFile e.nextSstId f with nextSstId := e.nextSstId + 1 })
      (e.registerFile sstId file)

/-- The location of every flushed row, in the order of the entries. -/
def flushLocations (sstId : Nat) (blockMap : List SstBlockInfo) : List RowLocation :=
  blockMap.flatMap (fun info =>
    (List.range info.rowCount).map (fun row =>
      .sst (if info.sstIndex = 0 then sstId else sstId + info.sstIndex) info.blockIndex row))

def flushConfig (e : Engine) : FlushConfig :=
  ⟨e.config.sstSizeBytes, e.config.maxRowsPerSst⟩

/-- Flush without the compaction that may follow it. -/
def flushActive (e : Engine) : Option Engine :=
  let active := e.memtableMgr.active
  let entries := active.iterAll
  let sstId := e.nextSstId
  let result := Flush.flushMemtableInner env.blockLen e.flushConfig e.columnar sstId
    e.nextBlockId active
  let registered := registerFiles
    { e with nextSstId := sstId + 1, nextBlockId := result.nextBlockId } sstId result.files
  (insertAll registered.art
    ((entries.map Prod.fst).zip (flushLocations sstId result.blockMap))).map (fun art =>
      { registered with
        art := art
        memtableMgr := registered.memtableMgr.sealActive.onFlushComplete active.size })

/-- Write and register one output, then move the index entries of its latest versions. -/
def commitOutput (inputIds : List Nat) (e : Engine) (out : CompactionOutput) : Option Engine :=
  let sid := e.nextSstId
  let fid := e.nextBlockId
  let e := { e.registerFile sid (fid, out.blocks) with
    nextSstId := sid + 1
    nextBlockId := fid + 1 }
  (out.artTargets.foldlM (fun art t => relocateIfPointsTo art t.1 inputIds (.sst sid t.2.1 t.2.2))
    e.art).map (fun art => { e with art := art })

def compactInner (e : Engine) (order : IterOrder) (force : Bool) : Option Engine :=
  let inputs := order.order e.sstRegistry.toList
  let threshold := if force then 1 else 2
  if inputs.length < threshold then some e
  else
    let inputIds := inputs.map Prod.fst
    let rows := inputs.flatMap (fun entry => SstFile.rows (e.blocksOf entry.2))
    let versions := rows.foldl addVersion ∅
    let survived := survivors e.pinSource versions
    let outputs := (workerChunks e.config.compactionConcurrency survived).flatMap
      (buildRun env.blockLen (latestTs e.pinSource versions) e.config.sstSizeBytes
        e.config.maxRowsPerSst e.columnar)
    (outputs.foldlM (commitOutput inputIds) e).map (fun e =>
      { e with
        sstRegistry := inputIds.foldl (fun reg id => reg.erase id) e.sstRegistry
        files := inputs.foldl (fun files entry => files.erase entry.2.path) e.files })

def compact (e : Engine) (order : IterOrder) : Option Engine :=
  e.compactInner env order false

def forceCompact (e : Engine) (order : IterOrder) : Option Engine :=
  e.compactInner env order true

def maybeCompact (e : Engine) (order : IterOrder) : Option Engine :=
  if e.sstRegistry.size < e.config.l0CompactionTrigger then some e
  else e.compactInner env order false

/-- An empty memtable is not flushed. With a background worker the merge is left to it. -/
def flushMemtable (e : Engine) (order : IterOrder) : Option (Engine × Nat) :=
  let entries := e.memtableMgr.active.iterAll
  if entries = [] then some (e, 0)
  else
    (e.flushActive env).bind (fun flushed =>
      (if flushed.bgWorkerActive then some flushed else flushed.maybeCompact env order).map
        (fun e => (e, entries.length)))

/-- Memtable and index while the log is replayed. -/
structure ReplayState where
  active : Memtable
  art : ArtIndex RowLocation
  nextTs : Timestamp
  replayedPuts : Nat

/-- Replayed rows draw fresh timestamps; a payload that does not decode is skipped. A
deleted key is put back into the index. -/
def replayRecord (s : ReplayState) (r : WalRecord) : Option ReplayState :=
  match r.recordType with
  | .rowPut =>
    match decodeKv r.payload with
    | none => some s
    | some (key, value) =>
      (s.art.insert key (memtableLocation env key)).map (fun art =>
        ⟨(s.active.put key s.nextTs (some value)).1, art, s.nextTs + 1, s.replayedPuts + 1⟩)
  | .rowDelete =>
    (s.art.insert r.payload (memtableLocation env r.payload)).map (fun art =>
      ⟨(s.active.put r.payload s.nextTs none).1, art, s.nextTs + 1, s.replayedPuts⟩)
  | _ => some s

/-- Every file found is registered under the number in its name. -/
def discover (files : ExtTreeMap Nat SstFile compare) : ExtTreeMap Nat SstEntry compare :=
  files.map (fun id _ => ⟨id⟩)

/-- Open a data directory in a new process. No result is a log that is refused, or a panic
of the index during replay. A log that cannot be read counts as empty. -/
def new (config : EngineConfig) (dir : DataDir) : Option Engine :=
  match WalWriter.new env.toWalCodec dir.wal with
  | .error _ => none
  | .ok wal =>
    let mgr := MemtableManager.new config.memtableSizeBytes
    let maxSstId := dir.files.toList.foldl (fun m f => max m f.1) 0
    let recovered := (Wal.recoverWal env.toWalCodec wal.file).toOption.getD []
    (recovered.foldlM (replayRecord env) ⟨mgr.active, ArtIndex.new, 1, 0⟩).map (fun s =>
      { config
        memtableMgr := { mgr with active := s.active }
        art := s.art
        wal
        sstRegistry := discover dir.files
        nextTimestamp := max s.nextTs 1
        nextSstId := max (maxSstId + 1) 1
        rowCount := s.replayedPuts
        pinSource := []
        bgWorkerActive := false
        columnar := []
        files := dir.files
        nextBlockId := 1 })

/-- What is left on disk when the process ends. -/
def close (e : Engine) : DataDir := ⟨e.wal.file, e.files⟩

end Engine

end GalaxDb
