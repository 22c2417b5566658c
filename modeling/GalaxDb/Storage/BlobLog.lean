import GalaxDb.Lib.Bytes
import Mathlib.Data.List.AList

/-!
# Blob log

Large values outside the LSM tree: several writers append entries to files of their own, equal
values share one entry, and a garbage collection moves what is live out of files that are mostly
dead. Files are kept by number, and only a file under its name can be read; a handle of a file
that was removed writes nowhere. There are no I/O errors, and the counts that only the statistics
show are left out.
-/

namespace GalaxDb

open Bytes

namespace BlobLog

structure BlobRef where
  fileId : Nat
  offset : Nat
  length : Nat
  deriving DecidableEq

/-- The two hash functions. -/
structure Xxh3 where
  xxh3_64 : Bytes → UInt64
  xxh3_128 : Bytes → Nat

def blobEntryMagic : Nat := 0x424C4F42
def blobEntryMagicV2 : Nat := 0x424C4232
def blobRefSize : Nat := 20
def contentHashSize : Nat := 16
def blobMarkerSize : Nat := 1 + contentHashSize + blobRefSize
def blobRefTag : UInt8 := 0xFF

def BlobRef.toBytes (r : BlobRef) : Bytes :=
  toLe 8 r.fileId ++ toLe 8 r.offset ++ toLe 4 r.length

def BlobRef.fromBytes (data : Bytes) : Option BlobRef :=
  if data.length < blobRefSize then none
  else some ⟨ofLe (data.take 8), ofLe ((data.drop 8).take 8), ofLe ((data.drop 16).take 4)⟩

def contentHash (x : Xxh3) (data : Bytes) : Bytes := toLe 16 (x.xxh3_128 data)

def encodeBlobRef (hash : Bytes) (r : BlobRef) : Bytes := blobRefTag :: hash ++ r.toBytes

def decodeBlobRef (value : Bytes) : Option (Bytes × BlobRef) :=
  if value.length ≠ blobMarkerSize then none
  else if value.head? ≠ some blobRefTag then none
  else (BlobRef.fromBytes (value.drop (1 + contentHashSize))).map fun r =>
    ((value.drop 1).take contentHashSize, r)

def headerSize : Nat := 24
def headerSizeV2 : Nat := 26
def footerSize : Nat := 8
def minReadable : Nat := 1
def currentWrite : Nat := 1

inductive BlobError where
  | notFound
  | unexpectedEof
  | invalidMagic (found : Nat)
  | formatTooOld (found minReadable : Nat)
  | formatTooNew (found current : Nat)
  | lengthMismatch (expected found : Nat)
  | checksumMismatch (expected found : Nat)
  deriving DecidableEq

def entryHeader (length : Nat) (hash : Bytes) : Bytes :=
  toLe 4 blobEntryMagicV2 ++ toLe 2 currentWrite ++ toLe 4 length ++ hash

/-- Header, value and checksum; the length is cut to four bytes. -/
def entryBytes (x : Xxh3) (value hash : Bytes) : Bytes :=
  let entry := entryHeader (value.length % 2 ^ 32) hash ++ value
  entry ++ toLe 8 (x.xxh3_64 entry).toNat

/-- Size of the header and length of the value, of an entry with or without a version. -/
def readHeader (data : Bytes) : Except BlobError (Nat × Nat) :=
  if data.length < 4 then .error .unexpectedEof
  else
    let magic := ofLe (data.take 4)
    if magic = blobEntryMagicV2 then
      if data.length < headerSizeV2 then .error .unexpectedEof
      else
        let version := ofLe ((data.drop 4).take 2)
        if version < minReadable then .error (.formatTooOld version minReadable)
        else if currentWrite < version then .error (.formatTooNew version currentWrite)
        else .ok (headerSizeV2, ofLe ((data.drop 6).take 4))
    else if magic = blobEntryMagic then
      if data.length < headerSize then .error .unexpectedEof
      else .ok (headerSize, ofLe ((data.drop 4).take 4))
    else .error (.invalidMagic magic)

/-- The value of the entry that the data starts with. The content hash is not looked at. -/
def readEntry (x : Xxh3) (data : Bytes) (expected : Nat) : Except BlobError Bytes :=
  match readHeader data with
  | .error e => .error e
  | .ok (header, length) =>
    if length ≠ expected then .error (.lengthMismatch expected length)
    else if data.length < header + length + footerSize then .error .unexpectedEof
    else
      let stored := ofLe ((data.drop (header + length)).take footerSize)
      let computed := (x.xxh3_64 (data.take (header + length))).toNat
      if stored ≠ computed then .error (.checksumMismatch stored computed)
      else .ok ((data.drop header).take length)

/-- The directory, by the number in `blob_<id>.dat`. -/
abbrev BlobDir := Std.ExtTreeMap Nat Bytes compare

structure BlobWriter where
  fileId : Nat
  offset : Nat
  deriving DecidableEq

/-- The file is created unless it is there, and written to at its end. -/
def BlobWriter.new (dir : BlobDir) (fileId : Nat) : BlobDir × BlobWriter :=
  match dir[fileId]? with
  | some data => (dir, ⟨fileId, data.length⟩)
  | none => (dir.insert fileId [], ⟨fileId, 0⟩)

def appendFile (dir : BlobDir) (fileId : Nat) (bytes : Bytes) : BlobDir :=
  match dir[fileId]? with
  | some data => dir.insert fileId (data ++ bytes)
  | none => dir

def BlobWriter.writeValue (x : Xxh3) (dir : BlobDir) (writer : BlobWriter) (value hash : Bytes) :
    BlobDir × BlobWriter × BlobRef :=
  let entry := entryBytes x value hash
  (appendFile dir writer.fileId entry, { writer with offset := writer.offset + entry.length },
    ⟨writer.fileId, writer.offset, value.length % 2 ^ 32⟩)

/-- A writer for each of the files. -/
def openWriters (dir : BlobDir) : List Nat → BlobDir × List BlobWriter
  | [] => (dir, [])
  | fileId :: rest =>
    let opened := BlobWriter.new dir fileId
    let others := openWriters opened.1 rest
    (others.1, opened.2 :: others.2)

abbrev LiveRefs := AList fun _ : BlobRef => Nat

/-- The writers, the entry of each content hash and the reference counts. -/
structure Log where
  dir : BlobDir
  writers : List BlobWriter
  nextWriter : Nat
  index : Std.ExtTreeMap Bytes BlobRef compare
  nextFileId : Nat
  liveRefs : LiveRefs

def defaultNumQueues : Nat := 4

/-- `BlobLog::new` -/
def Log.new (dir : BlobDir) (numQueues : UInt64) : Log :=
  let n := if numQueues = 0 then defaultNumQueues else numQueues.toNat
  let opened := openWriters dir (List.range n)
  ⟨opened.1, opened.2, 0, ∅, n, ∅⟩

section Operations

variable (x : Xxh3)

def increment (live : LiveRefs) (r : BlobRef) : LiveRefs :=
  live.insert r ((live.lookup r).getD 0 + 1)

/-- A value that is stored already is only counted once more. -/
def Log.write (log : Log) (value : Bytes) : Log × Bytes × BlobRef :=
  let hash := contentHash x value
  match log.index[hash]? with
  | some existing => ({ log with liveRefs := increment log.liveRefs existing }, hash, existing)
  | none =>
    let i := log.nextWriter % log.writers.length
    let writer := log.writers.getD i ⟨i, 0⟩
    let written := writer.writeValue x log.dir value hash
    ({ log with
        dir := written.1
        writers := log.writers.set i written.2.1
        nextWriter := (log.nextWriter + 1) % 2 ^ 64
        index := log.index.insert hash written.2.2
        liveRefs := increment log.liveRefs written.2.2 }, hash, written.2.2)

def read (dir : BlobDir) (r : BlobRef) : Except BlobError Bytes :=
  match dir[r.fileId]? with
  | none => .error .notFound
  | some data => readEntry x (data.drop r.offset) r.length

def Log.readTransparent (log : Log) (value : Bytes) : Except BlobError Bytes :=
  match decodeBlobRef value with
  | some (_, r) => read x log.dir r
  | none => .ok value

def Log.markDead (log : Log) (r : BlobRef) : Log :=
  match log.liveRefs.lookup r with
  | none => log
  | some count =>
    { log with liveRefs :=
        if count - 1 = 0 then log.liveRefs.erase r else log.liveRefs.insert r (count - 1) }

structure BlobFileStats where
  liveBytes : Nat
  totalBytes : Nat
  fileId : Nat
  deriving DecidableEq

/-- More than half of the file is dead. -/
def BlobFileStats.needsGc (stats : BlobFileStats) : Bool :=
  0 < stats.totalBytes && 2 * stats.liveBytes < stats.totalBytes

/-- The references into a file that are counted. -/
def Log.liveIn (log : Log) (fileId : Nat) : List BlobRef :=
  (log.liveRefs.entries.filter fun e => e.1.fileId = fileId ∧ 0 < e.2).map Sigma.fst

def Log.collectFileStats (log : Log) : List BlobFileStats :=
  log.dir.toList.map fun file =>
    ⟨((log.liveIn file.1).map fun r => headerSize + r.length + footerSize).sum, file.2.length,
      file.1⟩

/-- The orders in which a collection meets the files of the directory and the counted references
of its hash map. -/
structure GcOrder where
  files : List BlobFileStats → List BlobFileStats
  files_perm : ∀ l, (files l).Perm l
  refs : List BlobRef → List BlobRef
  refs_perm : ∀ l, (refs l).Perm l

def GcOrder.plain : GcOrder := ⟨id, fun _ => List.Perm.refl _, id, fun _ => List.Perm.refl _⟩

/-- Old and new place of an entry that was copied, with the hash of its value. -/
structure MovedRef where
  hash : Bytes
  oldRef : BlobRef
  newRef : BlobRef

/-- An entry that cannot be read is not copied. -/
def copyEntry (copied : BlobDir × BlobWriter × List MovedRef) (oldRef : BlobRef) :
    BlobDir × BlobWriter × List MovedRef :=
  match read x copied.1 oldRef with
  | .error _ => copied
  | .ok value =>
    let hash := contentHash x value
    let written := copied.2.1.writeValue x copied.1 value hash
    (written.1, written.2.1, copied.2.2 ++ [⟨hash, oldRef, written.2.2⟩])

/-- The index and the counts follow an entry to its new place. -/
def Log.moveRef (log : Log) (moved : MovedRef) : Log :=
  { log with
    index := log.index.insert moved.hash moved.newRef
    liveRefs := (log.liveRefs.erase moved.oldRef).insert moved.newRef
      ((log.liveRefs.lookup moved.oldRef).getD 1) }

/-- One file of a collection. -/
def Log.compactFile (order : GcOrder) (log : Log) (stats : BlobFileStats) : Log :=
  let live := order.refs (log.liveIn stats.fileId)
  if live = [] then
    { log with
      dir := log.dir.erase stats.fileId
      index := log.index.filter fun _ r => r.fileId ≠ stats.fileId }
  else
    let opened := BlobWriter.new log.dir log.nextFileId
    let copied := live.foldl (copyEntry x) (opened.1, opened.2, [])
    let moved := copied.2.2.foldl Log.moveRef
      { log with dir := copied.1, nextFileId := log.nextFileId + 1 }
    { moved with dir := moved.dir.erase stats.fileId }

/-- With the number of files that were compacted. -/
def Log.runGc (log : Log) (order : GcOrder) : Log × Nat :=
  let stats := (order.files log.collectFileStats).filter BlobFileStats.needsGc
  (stats.foldl (Log.compactFile x order) log, stats.length)

end Operations

end BlobLog

end GalaxDb
