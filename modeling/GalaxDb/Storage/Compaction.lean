import GalaxDb.Storage.Flush
import Mathlib.Data.List.Sort

/-!
# Compaction

The garbage collector and the output builder of a compaction. Every version of every key
is read from the input files; the latest version of a key and the ones a pinned timestamp
still reads are written to new files.
-/

namespace GalaxDb

open ColumnarRegistration

namespace Compaction

/-- A surviving row on its way to an output file. -/
structure SurvivorRow where
  key : Bytes
  ts : Timestamp
  value : Option Bytes
  deriving DecidableEq

def SurvivorRow.toSstRow (r : SurvivorRow) : SstRow :=
  ⟨r.key, r.value.getD [], r.ts⟩

abbrev VersionMap := Std.ExtTreeMap Bytes (List Version) compare

def addVersion (versions : VersionMap) (r : SstRow) : VersionMap :=
  versions.insert r.key (versions[r.key]?.getD [] ++ [⟨r.ts, r.toRow.val⟩])

def sortByTs (versions : List Version) : List Version :=
  versions.insertionSort (fun a b => a.timestamp ≤ b.timestamp)

/-- Drops every version with the timestamp of the one kept before it. -/
def dedupFrom (last : Version) : List Version → List Version
  | [] => []
  | v :: rest =>
    if v.timestamp = last.timestamp then dedupFrom last rest else v :: dedupFrom v rest

def dedupByTs : List Version → List Version
  | [] => []
  | v :: rest => v :: dedupFrom v rest

/-- The versions of a key, oldest first, one for each timestamp. -/
def history (versions : List Version) : List Version :=
  dedupByTs (sortByTs versions)

/-- The version a reader at `pin` sees in a list sorted by timestamp. -/
def newestAt (versions : List Version) (pin : Timestamp) : Option Version :=
  (versions.filter (fun v => v.timestamp ≤ pin)).getLast?

/-- The latest version and the one every pin reads. -/
def kept (pins : List Timestamp) (versions : List Version) (latest : Version) : List Version :=
  (history versions).filter
    (fun v => v = latest ∨ ∃ p ∈ pins, newestAt (history versions) p = some v)

/-- What is left of the versions of one key. A deleted key that no pin reads further back
is dropped altogether. -/
def gcKey (pins : List Timestamp) (versions : List Version) : List Version :=
  match (history versions).getLast? with
  | none => []
  | some latest =>
    if latest.value = none ∧ kept pins versions latest = [latest] then []
    else kept pins versions latest

/-- Keys come in order and their versions sorted, so the survivors are in the order of
key and timestamp that the builder needs. -/
def survivors (pins : List Timestamp) (versions : VersionMap) : List SurvivorRow :=
  versions.toList.flatMap (fun e => (gcKey pins e.2).map (fun v => ⟨e.1, v.timestamp, v.value⟩))

/-- The timestamp of the latest version of a key that has survivors. -/
def latestTs (pins : List Timestamp) (versions : VersionMap) (key : Bytes) : Option Timestamp :=
  ((versions[key]?.map (gcKey pins)).bind List.getLast?).map Version.timestamp

/-- Consecutive slices of `size` elements, the last one possibly shorter. -/
def chunks {α : Type*} (size : Nat) : List α → List α → List (List α)
  | current, [] => if current.isEmpty then [] else [current]
  | current, a :: rest =>
    let current := current ++ [a]
    if size ≤ current.length then current :: chunks size [] rest
    else chunks size current rest

/-- Rows in the next block: at most `maxRows`, and of one table if any is columnar. -/
def blockEnd (registrations : List ColumnarRegistration) (maxRows : Nat) (first : SurvivorRow)
    (rows : List SurvivorRow) : Nat :=
  let window := rows.take maxRows
  let cut := match registrationFor registrations first.key with
    | some reg => window.findIdx? (fun r => !reg.matchesKey r.key)
    | none => window.findIdx? (fun r => (registrationFor registrations r.key).isSome)
  match cut with
  | some off => if 0 < off then off else window.length
  | none => window.length

/-- One output file and the index entries of the latest versions in it: key, block, row. -/
structure CompactionOutput where
  blocks : SstFile
  artTargets : List (Bytes × Nat × Nat)

def runBlock (registrations : List ColumnarRegistration) (blockId : Nat)
    (first : SurvivorRow) (chunk : List SurvivorRow) : PaxBlock :=
  PaxBlock.write blockId ((chunk.map SurvivorRow.ts).foldl max 0) (chunk.map SurvivorRow.toSstRow)
    (blockDataColumns registrations first.key (chunk.map SurvivorRow.value))

/-- Index entries for the rows of a block that are the latest version of their key. -/
def blockTargets (latest : Bytes → Option Timestamp) (blockIndex : Nat)
    (chunk : List SurvivorRow) : List (Bytes × Nat × Nat) :=
  chunk.zipIdx.filterMap
    (fun e => if latest e.1.key = some e.1.ts then some (e.1.key, blockIndex, e.2) else none)

/-- Every block takes at least one row, so the number of rows is enough fuel. -/
def buildRunLoop (blockLen : PaxBlock → Nat) (latest : Bytes → Option Timestamp)
    (sstSizeBytes maxRows : Nat) (registrations : List ColumnarRegistration) :
    Nat → Nat → SstFile → Nat → List (Bytes × Nat × Nat) → List SurvivorRow → List CompactionOutput
  | fuel + 1, blockId, current, currentLen, targets, first :: rest =>
    let rows := first :: rest
    let stop := blockEnd registrations maxRows first rows
    let chunk := rows.take stop
    let block := runBlock registrations blockId first chunk
    let targets := targets ++ blockTargets latest current.length chunk
    let current := current ++ [block]
    let currentLen := currentLen + blockLen block
    if sstSizeBytes ≤ currentLen then
      ⟨current, targets⟩ :: buildRunLoop blockLen latest sstSizeBytes maxRows registrations
        fuel (blockId + 1) [] 0 [] (rows.drop stop)
    else
      buildRunLoop blockLen latest sstSizeBytes maxRows registrations
        fuel (blockId + 1) current currentLen targets (rows.drop stop)
  | _, _, current, _, targets, _ => if current = [] then [] else [⟨current, targets⟩]

def buildRun (blockLen : PaxBlock → Nat) (latest : Bytes → Option Timestamp)
    (sstSizeBytes maxRowsPerBlock : Nat) (registrations : List ColumnarRegistration)
    (rows : List SurvivorRow) : List CompactionOutput :=
  buildRunLoop blockLen latest sstSizeBytes (max maxRowsPerBlock 1) registrations
    rows.length 1 [] 0 [] rows

/-- The slice each worker gets. -/
def workerChunks (concurrency : Nat) (rows : List SurvivorRow) : List (List SurvivorRow) :=
  let workers := min (max concurrency 1) rows.length
  chunks (max ((rows.length + workers - 1) / workers) 1) [] rows

end Compaction

end GalaxDb
