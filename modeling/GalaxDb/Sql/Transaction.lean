import GalaxDb.Sql.RowCodec
import GalaxDb.Storage.Engine

/-!
# Transactions

The manager draws transaction ids and commit timestamps from a counter of its own, keeps
one lock table for all writers and a ring of recent write sets for the certifier. A handle
buffers the writes of one transaction until it commits.
-/

namespace GalaxDb.Sql

open Bytes

abbrev WriteBuffer := Std.ExtTreeMap Bytes (Option Bytes) compare

structure TransactionManager where
  nextTimestamp : Timestamp
  activeSnapshots : Std.ExtTreeSet Timestamp compare
  writeLocks : Std.ExtTreeMap Bytes Timestamp compare
  committedWrites : List (Timestamp × List Bytes)

structure TxnHandle where
  readTs : Timestamp
  txnId : Timestamp
  writes : WriteBuffer
  reads : List Bytes
  serializable : Bool

namespace TransactionManager

def new : TransactionManager where
  nextTimestamp := 1
  activeSnapshots := ∅
  writeLocks := ∅
  committedWrites := []

/-- The first half of `begin`: the id is drawn before it is among the active ones. -/
def drawId (m : TransactionManager) : TransactionManager × Timestamp :=
  ({ m with nextTimestamp := m.nextTimestamp + 1 }, m.nextTimestamp)

def register (m : TransactionManager) (id : Timestamp) : TransactionManager :=
  { m with activeSnapshots := m.activeSnapshots.insert id }

def acquireWriteLock (m : TransactionManager) (key : Bytes) (txn : Timestamp) :
    Except SqlError TransactionManager :=
  match m.writeLocks[key]? with
  | some holder =>
    if holder ≠ txn then .error .writeConflict
    else .ok { m with writeLocks := m.writeLocks.insert key txn }
  | none => .ok { m with writeLocks := m.writeLocks.insert key txn }

def releaseWriteLocks (m : TransactionManager) (txn : Timestamp) : TransactionManager :=
  { m with writeLocks := m.writeLocks.filter fun _ holder => holder ≠ txn }

def removeSnapshot (m : TransactionManager) (txn : Timestamp) : TransactionManager :=
  { m with activeSnapshots := m.activeSnapshots.erase txn }

/-- A key that was read has been written by a commit after the begin. -/
def conflicting (m : TransactionManager) (beginTs : Timestamp) (readKeys : List Bytes) : Bool :=
  m.committedWrites.any fun c => decide (beginTs < c.1) && c.2.any fun k => decide (k ∈ readKeys)

/-- Entries that no active transaction can conflict with any more are dropped. -/
def prune (m : TransactionManager) : TransactionManager :=
  { m with committedWrites :=
      match m.activeSnapshots.min? with
      | some oldest => m.committedWrites.filter fun c => decide (oldest < c.1)
      | none => [] }

/-- The part of `commit_serializable` under the lock of the ring. -/
def certify (m : TransactionManager) (beginTs : Timestamp) (readKeys writeKeys : List Bytes)
    (serializable : Bool) : Except SqlError (TransactionManager × Timestamp) :=
  if serializable && m.conflicting beginTs readKeys then .error .writeConflict
  else
    let commitTs := m.nextTimestamp
    let pushed := if writeKeys = [] then m.committedWrites
      else m.committedWrites ++ [(commitTs, writeKeys)]
    .ok (prune { m with nextTimestamp := commitTs + 1, committedWrites := pushed }, commitTs)

def commitSerializable (m : TransactionManager) (beginTs : Timestamp)
    (readKeys writeKeys : List Bytes) (serializable : Bool) :
    Except SqlError (TransactionManager × Timestamp) :=
  (m.certify beginTs readKeys writeKeys serializable).map fun r =>
    ((r.1.releaseWriteLocks beginTs).removeSnapshot beginTs, r.2)

def abort (m : TransactionManager) (txn : Timestamp) : TransactionManager :=
  (m.releaseWriteLocks txn).removeSnapshot txn

end TransactionManager

namespace TxnHandle

def new (readTs txnId : Timestamp) (serializable : Bool) : TxnHandle where
  readTs
  txnId
  writes := ∅
  reads := []
  serializable

def recordRead (t : TxnHandle) (key : Bytes) : TxnHandle :=
  if t.serializable then { t with reads := key :: t.reads } else t

/-- The lock is taken before the write is buffered. -/
def bufferWrite (m : TransactionManager) (t : TxnHandle) (key : Bytes) (value : Option Bytes) :
    Except SqlError (TransactionManager × TxnHandle) :=
  (m.acquireWriteLock key t.txnId).map fun m =>
    (m, { t with writes := t.writes.insert key value })

end TxnHandle

/-- Stands in a read set for all rows of a table. -/
def sireadSentinel (table : Bytes) : Bytes := 0 :: ascii "SIREAD" ++ 0 :: table

/-- The table of a storage key: what stands before the first colon. -/
def keyTable (key : Bytes) : Option Bytes :=
  if 58 ∈ key then some (key.takeWhile (· ≠ 58)) else none

/-- Buffered keys in order, and the tables they belong to. -/
def writeKeys (writes : WriteBuffer) : List Bytes :=
  writes.keys ++ ((writes.keys.filterMap keyTable).dedup.map sireadSentinel)

end GalaxDb.Sql
