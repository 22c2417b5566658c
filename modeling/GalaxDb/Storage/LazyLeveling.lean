import GalaxDb.Lib.Bytes

/-!
# Lazy leveling

The compactor over in-memory runs: levels of SSTs, the trigger, a k-way merge, the garbage
collection of versions and the split into new SSTs of the next level. Bloom filters are left
out. An SST is kept with the entries that the caller's callback returns for it.
-/

namespace GalaxDb.LazyLeveling

/-- A version of a key; no value is a tombstone. -/
structure VersionedEntry where
  key : Bytes
  timestamp : Nat
  value : Option Bytes
  deriving DecidableEq

def VersionedEntry.size (entry : VersionedEntry) : Nat :=
  entry.key.length + (entry.value.map List.length).getD 0 + 16

structure GcContext where
  oldestActiveSnapshot : Option Nat
  pinnedTagTimestamps : List Nat

def GcContext.shouldKeep (gc : GcContext) (timestamp : Nat) (isLatest : Bool) : Bool :=
  isLatest || gc.oldestActiveSnapshot.any (· ≤ timestamp) ||
    gc.pinnedTagTimestamps.contains timestamp

/-- The entries are in order of their keys, so a key is new where it differs from the last. -/
def applyFrom (gc : GcContext) : Option Bytes → List VersionedEntry → List VersionedEntry
  | _, [] => []
  | currentKey, entry :: rest =>
    if gc.shouldKeep entry.timestamp (currentKey != some entry.key) then
      entry :: applyFrom gc (some entry.key) rest
    else applyFrom gc (some entry.key) rest

/-- `MvccGarbageCollector::apply` -/
def GcContext.apply (gc : GcContext) (entries : List VersionedEntry) : List VersionedEntry :=
  applyFrom gc none entries

/-- Smaller keys first, of one key later timestamps first. -/
def VersionedEntry.before (a b : VersionedEntry) : Bool :=
  compare a.key b.key == .lt || a.key == b.key && b.timestamp < a.timestamp

/-- The first entry of all runs in that order, and what is left of them. -/
def nextEntry : List (List VersionedEntry) → Option (VersionedEntry × List (List VersionedEntry))
  | [] => none
  | [] :: runs => (nextEntry runs).map fun next => (next.1, [] :: next.2)
  | (entry :: run) :: runs =>
    match nextEntry runs with
    | none => some (entry, run :: runs)
    | some (other, left) =>
      if other.before entry then some (other, (entry :: run) :: left)
      else some (entry, run :: runs)

def collectUpTo : Nat → List (List VersionedEntry) → List VersionedEntry
  | 0, _ => []
  | fuel + 1, runs =>
    match nextEntry runs with
    | none => []
    | some (entry, left) => entry :: collectUpTo fuel left

/-- The merge of all runs, which ends when they do. -/
def collectAll (runs : List (List VersionedEntry)) : List VersionedEntry :=
  collectUpTo (runs.map List.length).sum runs

structure SstMetadata where
  sstId : Nat
  level : Nat
  minKey : Bytes
  maxKey : Bytes
  sizeBytes : Nat
  rowCount : Nat
  deriving DecidableEq

/-- An SST with its entries, which the compactor sees through the callback only. -/
structure Sst extends SstMetadata where
  entries : List VersionedEntry
  deriving DecidableEq

/-- `LsmLevel::add_sst`: the binary search by smallest key, of equal ones the first. -/
def addToLevel (ssts : List Sst) (sst : Sst) : List Sst :=
  ssts.takeWhile (fun probe => compare probe.minKey sst.minKey == .lt) ++
    sst :: ssts.dropWhile fun probe => compare probe.minKey sst.minKey == .lt

/-- `LsmLevel::remove_sst` -/
def removeFromLevel (ssts : List Sst) (sstId : Nat) : List Sst :=
  ssts.eraseP (·.sstId == sstId)

def bottomLevel : Nat := 4
def defaultSstSizeBytes : Nat := 64 * 1024 * 1024

/-- The SSTs of each level. -/
abbrev LsmTree := Nat → List Sst

namespace LsmTree

def empty : LsmTree := fun _ => []

def addSst (tree : LsmTree) (level : Nat) (sst : Sst) : LsmTree :=
  Function.update tree level (addToLevel (tree level) sst)

def removeSst (tree : LsmTree) (level sstId : Nat) : LsmTree :=
  Function.update tree level (removeFromLevel (tree level) sstId)

def totalSizeBytes (tree : LsmTree) (level : Nat) : Nat :=
  ((tree level).map (·.sizeBytes)).sum

end LsmTree

inductive L0CompactionStrategy where
  | tiered
  | leveled
  deriving DecidableEq

/-- The trigger divides by the size ratio, where zero would panic. -/
structure CompactionConfig where
  sstSizeBytes : Nat
  sizeRatio : Nat
  sizeRatio_pos : 0 < sizeRatio
  l0Strategy : L0CompactionStrategy

/-- Files of level zero that start a compaction. -/
def CompactionConfig.effectiveL0Threshold (config : CompactionConfig) : Nat :=
  match config.l0Strategy with
  | .tiered => 4
  | .leveled => 2

/-- A level with enough data for the next one. -/
def CompactionConfig.isFull (config : CompactionConfig) (tree : LsmTree) (level : Nat) : Bool :=
  let current := tree.totalSizeBytes level
  let next := tree.totalSizeBytes (level + 1)
  0 < current && (if 0 < next then next / config.sizeRatio else defaultSstSizeBytes) ≤ current

/-- `CompactionTrigger::check`: the first level that is to be compacted. -/
def CompactionConfig.check (config : CompactionConfig) (tree : LsmTree) : Option Nat :=
  if config.effectiveL0Threshold ≤ (tree 0).length then some 0
  else [1, 2, 3].find? (config.isFull tree)

/-- The entries cut into groups of about the target size. -/
def splitGroups (target : Nat) :
    List VersionedEntry → List VersionedEntry → Nat → List (List VersionedEntry)
  | [], group, _ => if group = [] then [] else [group]
  | entry :: rest, group, size =>
    if target < size + entry.size ∧ group ≠ [] then
      group :: splitGroups target rest [entry] entry.size
    else splitGroups target rest (group ++ [entry]) (size + entry.size)

def splitIntoSsts (target : Nat) (entries : List VersionedEntry) : List (List VersionedEntry) :=
  splitGroups target entries [] 0

/-- The SST of a group; an empty group is passed over. -/
def sstOf (level sstId : Nat) (group : List VersionedEntry) : Option Sst :=
  match group.head?, group.getLast? with
  | some first, some last =>
    some ⟨⟨sstId, level, first.key, last.key, (group.map VersionedEntry.size).sum, group.length⟩,
      group⟩
  | _, _ => none

/-- SSTs of the groups with the next numbers, and the number after them. -/
def buildSsts (level : Nat) : Nat → List (List VersionedEntry) → List Sst × Nat
  | nextId, [] => ([], nextId)
  | nextId, group :: groups =>
    match sstOf level nextId group with
    | none => buildSsts level nextId groups
    | some sst =>
      let built := buildSsts level (nextId + 1) groups
      (sst :: built.1, built.2)

structure Compactor where
  config : CompactionConfig
  nextSstId : Nat

/-- `Compactor::compact`, whose output is the new SSTs. -/
def Compactor.compact (compactor : Compactor) (tree : LsmTree) (sourceLevel : Nat)
    (inputRuns : List (List VersionedEntry)) (gc : GcContext) :
    Compactor × LsmTree × List Sst :=
  let targetLevel := if sourceLevel < bottomLevel then sourceLevel + 1 else bottomLevel
  let groups := splitIntoSsts compactor.config.sstSizeBytes (gc.apply (collectAll inputRuns))
  let built := buildSsts targetLevel compactor.nextSstId groups
  ({ compactor with nextSstId := built.2 },
    built.1.foldl (fun tree sst => tree.addSst targetLevel sst) tree, built.1)

/-- `Compactor::maybe_compact` with a callback that returns the entries of each SST. -/
def Compactor.maybeCompact (compactor : Compactor) (tree : LsmTree) (gc : GcContext) :
    Compactor × LsmTree × Option (List Sst) :=
  match compactor.config.check tree with
  | none => (compactor, tree, none)
  | some level =>
    if tree level = [] then (compactor, tree, none)
    else
      let inputRuns := (tree level).map (·.entries)
      let emptied := ((tree level).map (·.sstId)).foldl (·.removeSst level) tree
      let result := compactor.compact emptied level inputRuns gc
      (result.1, result.2.1, some result.2.2)

end GalaxDb.LazyLeveling
