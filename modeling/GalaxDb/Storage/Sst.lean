import GalaxDb.Storage.Memtable

/-!
# SST files

An SST file is a list of PAX blocks. The key, value and timestamp columns of a block
are aligned, so a block is kept row by row; a tombstone is a row with an empty value.
-/

namespace GalaxDb

structure SstRow where
  key : Bytes
  value : Bytes
  ts : Timestamp
  deriving DecidableEq

/-- The row a reader makes of it: an empty value means deleted. -/
def SstRow.toRow (r : SstRow) : Row Bytes Bytes :=
  ⟨r.key, r.ts, if r.value = [] then none else some r.value⟩

/-- A table whose rows are also laid out by column. `dataColumns` gives the typed columns
of a block, or nothing when some row does not split. -/
structure ColumnarRegistration where
  pfx : Bytes
  dataColumns : List (Option Bytes) → Option (List (List Bytes))

namespace ColumnarRegistration

def matchesKey (r : ColumnarRegistration) (key : Bytes) : Bool :=
  r.pfx.isPrefixOf key

def registrationFor (registrations : List ColumnarRegistration) (key : Bytes) :
    Option ColumnarRegistration :=
  registrations.find? (fun r => r.matchesKey key)

/-- The typed columns a block gets after its key, value and timestamp columns. -/
def blockDataColumns (registrations : List ColumnarRegistration) (firstKey : Bytes)
    (values : List (Option Bytes)) : List (List Bytes) :=
  match registrationFor registrations firstKey with
  | none => []
  | some reg => (reg.dataColumns values).getD []

end ColumnarRegistration

structure PaxBlock where
  blockId : Nat
  commitTimestamp : Timestamp
  rows : List SstRow
  dataColumns : List (List Bytes)
  zoneMapMin : Bytes
  zoneMapMax : Bytes

namespace PaxBlock

def minKey (keys : List Bytes) : Bytes :=
  match keys with
  | [] => []
  | k :: rest => rest.foldl (fun m x => if compare x m = .lt then x else m) k

def maxKey (keys : List Bytes) : Bytes :=
  match keys with
  | [] => []
  | k :: rest => rest.foldl (fun m x => if compare x m = .lt then m else x) k

/-- `write_with_codecs`: the zone map of the key column bounds the keys bytewise. -/
def write (blockId : Nat) (commitTimestamp : Timestamp) (rows : List SstRow)
    (dataColumns : List (List Bytes)) : PaxBlock :=
  { blockId, commitTimestamp, rows, dataColumns
    zoneMapMin := minKey (rows.map SstRow.key)
    zoneMapMax := maxKey (rows.map SstRow.key) }

end PaxBlock

abbrev SstFile := List PaxBlock

def SstFile.rows (file : SstFile) : List SstRow :=
  file.flatMap PaxBlock.rows

/-- The row at a place of a file. -/
def SstFile.rowAt (file : SstFile) (block row : Nat) : Option SstRow :=
  (file[block]?).bind (fun b => b.rows[row]?)

end GalaxDb
