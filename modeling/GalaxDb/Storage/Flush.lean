import GalaxDb.Storage.Sst

/-!
# Flush pipeline

The entries of a memtable are cut into blocks and the blocks are packed into files.
Block and file ids come from one process-wide counter.
-/

namespace GalaxDb

open ColumnarRegistration

structure FlushConfig where
  sstSizeBytes : Nat
  maxRowsPerBlock : Nat

/-- Where a block ended up: its file, its place in the file and its row count. -/
structure SstBlockInfo where
  sstIndex : Nat
  blockIndex : Nat
  rowCount : Nat
  deriving DecidableEq

structure FlushResult where
  files : List (Nat × SstFile)
  blockMap : List SstBlockInfo
  nextBlockId : Nat

namespace Flush

abbrev Entry := Bytes × VersionedValue

/-- Only the newest version of a key is written; for a tombstone an empty value. -/
def entryToRow (e : Entry) : SstRow :=
  ⟨e.1, e.2.value.getD [], e.2.timestamp⟩

def entrySize (e : Entry) : Nat :=
  e.1.length + (e.2.value.map List.length).getD 0 + 16

/-- Index of the registration a key belongs to. -/
def regOf (registrations : List ColumnarRegistration) (key : Bytes) : Option Nat :=
  registrations.findIdx? (fun r => r.matchesKey key)

/-- Whether the next entry belongs to another table than the first key of the block. -/
def nextCrossesTable (registrations : List ColumnarRegistration) (firstKey : Bytes) :
    List Entry → Bool
  | [] => false
  | next :: _ => regOf registrations next.1 != regOf registrations firstKey

/-- The block under construction is `current`, of size `currentSize`. It is closed when
it is large enough or when the next key belongs to another table than its first. -/
def splitLoop (config : FlushConfig) (registrations : List ColumnarRegistration) :
    List Entry → Nat → List Entry → List (List Entry)
  | current, _, [] => if current = [] then [] else [current]
  | current, currentSize, e :: rest =>
    let currentSize := currentSize + entrySize e
    let current := current ++ [e]
    let rowCount := current.length
    let shouldSplit := config.sstSizeBytes ≤ currentSize ∨ config.maxRowsPerBlock ≤ rowCount ∨
      nextCrossesTable registrations (current.headD e).1 rest = true
    if shouldSplit ∧ rest ≠ [] then current :: splitLoop config registrations [] 0 rest
    else splitLoop config registrations current currentSize rest

def splitIntoBlocks (config : FlushConfig) (registrations : List ColumnarRegistration)
    (entries : List Entry) : List (List Entry) :=
  splitLoop config registrations [] 0 entries

def maxTimestamp (default : Timestamp) (timestamps : List Timestamp) : Timestamp :=
  match timestamps with
  | [] => default
  | t :: rest => rest.foldl max t

def buildBlock (registrations : List ColumnarRegistration) (commitTimestamp : Timestamp)
    (blockId : Nat) (chunk : List Entry) : PaxBlock :=
  PaxBlock.write blockId (maxTimestamp commitTimestamp (chunk.map (fun e => e.2.timestamp)))
    (chunk.map entryToRow)
    (match chunk with
      | [] => []
      | first :: _ => blockDataColumns registrations first.1 (chunk.map (fun e => e.2.value)))

/-- Blocks collect in `current` until their serialized size reaches the file size. -/
def packLoop (blockLen : PaxBlock → Nat) (config : FlushConfig)
    (registrations : List ColumnarRegistration) (commitTimestamp : Timestamp) :
    Nat → Nat → SstFile → Nat → List (List Entry) → FlushResult
  | nextBlockId, _, current, _, [] =>
    if current = [] then ⟨[], [], nextBlockId⟩
    else ⟨[(nextBlockId, current)], [], nextBlockId + 1⟩
  | nextBlockId, sstIndex, current, currentLen, chunk :: rest =>
    let block := buildBlock registrations commitTimestamp nextBlockId chunk
    let info := SstBlockInfo.mk sstIndex current.length chunk.length
    let current := current ++ [block]
    let currentLen := currentLen + blockLen block
    if config.sstSizeBytes ≤ currentLen then
      let out := packLoop blockLen config registrations commitTimestamp (nextBlockId + 2)
        (sstIndex + 1) [] 0 rest
      ⟨(nextBlockId + 1, current) :: out.files, info :: out.blockMap, out.nextBlockId⟩
    else
      let out := packLoop blockLen config registrations commitTimestamp (nextBlockId + 1)
        sstIndex current currentLen rest
      ⟨out.files, info :: out.blockMap, out.nextBlockId⟩

def flushMemtableInner (blockLen : PaxBlock → Nat) (config : FlushConfig)
    (registrations : List ColumnarRegistration) (commitTimestamp : Timestamp)
    (nextBlockId : Nat) (memtable : Memtable) : FlushResult :=
  packLoop blockLen config registrations commitTimestamp nextBlockId 0 [] 0
    (splitIntoBlocks config registrations memtable.iterAll)

end Flush

end GalaxDb
