import GalaxDb.Lib.Collect
import GalaxDb.Versioning.MinHash
import GalaxDb.Versioning.UnionFind
import Mathlib.Data.List.Sort
import Std.Data.ExtTreeMap

/-!
# Grouping rows by near-duplicates

Rows that share a band hash are candidates; candidates whose signatures are similar enough are
joined in a union-find, and its components of two or more rows become the groups. Buckets and
components are kept in hash maps, in whatever order these hand them out.
-/

namespace GalaxDb.Versioning

open Bytes Collect

abbrev DedupRow := Bytes × MinHashSignature

structure NearDuplicateGrouping where
  assignments : List (Bytes × Option UInt64)
  groups : Std.ExtTreeMap UInt64 (List Bytes) compare

def NearDuplicateGrouping.groupOf (g : NearDuplicateGrouping) (rowId : Bytes) : Option UInt64 :=
  match g.assignments.find? fun a => a.1 = rowId with
  | some (_, group) => group
  | none => none

/-- The bucket of every band of every row. -/
def bucketItems (xxh3 : Bytes → UInt64) (rows : List DedupRow) : List ((Nat × UInt64) × Nat) :=
  rows.zipIdx.flatMap fun (row, i) =>
    (bandHashes xxh3 row.2).zipIdx.map fun (bandHash, band) => ((band, bandHash), i)

/-- `for a_idx in 0..len`, `for &b in &bucket[a_idx + 1..]`. -/
def pairsOf : List Nat → List (Nat × Nat)
  | [] => []
  | a :: rest => rest.map (fun b => (a, b)) ++ pairsOf rest

def visitPair (rows : List DedupRow) (threshold : Rat) (uf : UnionFind) (pair : Nat × Nat) :
    Option UnionFind := do
  let (uf, ra) ← uf.find pair.1
  let (uf, rb) ← uf.find pair.2
  if ra = rb then some uf
  else
    let a ← rows[pair.1]?
    let b ← rows[pair.2]?
    if threshold ≤ estimateJaccard a.2 b.2 then uf.union pair.1 pair.2 else some uf

def visitBucket (rows : List DedupRow) (threshold : Rat) (uf : UnionFind) (bucket : List Nat) :
    Option UnionFind :=
  if bucket.length < 2 then some uf
  else (pairsOf bucket).foldlM (visitPair rows threshold) uf

/-- The root of every row, in the order of the rows. -/
def collectRoots (uf : UnionFind) : List Nat → Option (List (Nat × Nat))
  | [] => some []
  | i :: rest => do
    let (uf, root) ← uf.find i
    let roots ← collectRoots uf rest
    some ((root, i) :: roots)

def sortIds (ids : List Bytes) : List Bytes := ids.mergeSort fun a b => compare a b ≠ .gt

structure Assigned where
  rowToGroup : List (Option UInt64)
  groups : Std.ExtTreeMap UInt64 (List Bytes) compare

def assignComponent (xxh3 : Bytes → UInt64) (rows : List DedupRow) (done : Assigned)
    (members : List Nat) : Option Assigned := do
  if members.length < 2 then some done
  else
    let ids ← members.mapM fun i => rows[i]?.map Prod.fst
    let sortedIds := sortIds ids
    let first ← sortedIds[0]?
    let groupId := xxh3 first
    some ⟨members.foldl (fun groups i => groups.set i (some groupId)) done.rowToGroup,
      done.groups.insert groupId sortedIds⟩

/-- `none` is a panic or an endless loop. -/
def groupNearDuplicates (xxh3 : Bytes → UInt64) (bucketOrder : MapOrder ((Nat × UInt64) × List Nat))
    (componentOrder : MapOrder (Nat × List Nat)) (rows : List DedupRow) (threshold : Rat) :
    Option NearDuplicateGrouping := do
  if rows.isEmpty then some ⟨[], ∅⟩
  else
    let buckets := bucketOrder.arrange (collect (bucketItems xxh3 rows))
    let uf ← (buckets.map Prod.snd).foldlM (visitBucket rows threshold) (UnionFind.new rows.length)
    let roots ← collectRoots uf (List.range rows.length)
    let components := componentOrder.arrange (collect roots)
    let done ← (components.map Prod.snd).foldlM (assignComponent xxh3 rows)
      ⟨List.replicate rows.length none, ∅⟩
    some ⟨rows.zipIdx.map fun (row, i) => (row.1, done.rowToGroup[i]?.join), done.groups⟩

end GalaxDb.Versioning
