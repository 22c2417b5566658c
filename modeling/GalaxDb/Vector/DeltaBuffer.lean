import GalaxDb.Lib.Ranking
import Mathlib.Data.Finset.Insert
import Mathlib.Data.UInt

/-!
# The delta buffer of a vector index

Vectors inserted and rows deleted since the base graph was last written, and the union of both
that a search ranks.
-/

namespace GalaxDb.Ann

open Ranking

/-- A row id and a vector. -/
abbrev Entry (V : Type) := UInt64 × V

structure DeltaBuffer (V : Type) where
  vectors : List (Entry V)
  tombstones : Finset UInt64

namespace DeltaBuffer

variable {V D : Type}

def new : DeltaBuffer V := ⟨[], ∅⟩

/-- A deleted row that is inserted again is no longer deleted. -/
def insert (b : DeltaBuffer V) (rowId : UInt64) (vector : V) : DeltaBuffer V :=
  ⟨b.vectors ++ [(rowId, vector)], b.tombstones.erase rowId⟩

def delete (b : DeltaBuffer V) (rowId : UInt64) : DeltaBuffer V :=
  ⟨b.vectors.filter fun e => e.1 ≠ rowId, Insert.insert rowId b.tombstones⟩

/-- What is in the buffer, and the empty buffer it leaves. -/
def drain (b : DeltaBuffer V) : (List (Entry V) × Finset UInt64) × DeltaBuffer V :=
  ((b.vectors, b.tombstones), new)

variable [LinearOrder D]

/-- Exact brute-force search over the buffer. -/
def search (distance : V → V → D) (b : DeltaBuffer V) (query : V) (k : Nat) : List (UInt64 × D) :=
  (rank ((b.vectors.filter fun e => e.1 ∉ b.tombstones).map fun e =>
    (e.1, distance query e.2))).take k

end DeltaBuffer

section Union

variable {V D : Type}

/-- A candidate joins the ones before it unless its row is deleted or among them. -/
def consider (tombstones : Finset UInt64) (distance : UInt64 × D → D) (all : List (UInt64 × D))
    (c : UInt64 × D) : List (UInt64 × D) :=
  if c.1 ∈ tombstones ∨ c.1 ∈ all.map Prod.fst then all else all ++ [(c.1, distance c)]

/-- The exact distance where the vector can be fetched, else the one that came with the candidate.
-/
def rerank (distance : V → V → D) (query : V) (fetchVector : UInt64 → Option V) (c : UInt64 × D) :
    D :=
  match fetchVector c.1 with
  | some v => distance query v
  | none => c.2

/-- The distance is that of `cosine_distance`. -/
def unionAndRerank [LinearOrder D] (distance : V → V → D)
    (hnswCandidates deltaCandidates : List (UInt64 × D)) (tombstones : Finset UInt64) (query : V)
    (k : Nat) (fetchVector : UInt64 → Option V) : List (UInt64 × D) :=
  let base := hnswCandidates.foldl (consider tombstones (rerank distance query fetchVector)) []
  (rank (deltaCandidates.foldl (consider tombstones Prod.snd) base)).take k

/-- Candidates that are all different are taken over as they are. -/
theorem foldl_consider {tombstones : Finset UInt64} {distance : UInt64 × D → D}
    {all cs : List (UInt64 × D)}
    (once : ((all ++ cs.filter fun c => c.1 ∉ tombstones).map Prod.fst).Nodup) :
    cs.foldl (consider tombstones distance) all =
      all ++ (cs.filter fun c => c.1 ∉ tombstones).map fun c => (c.1, distance c) := by
  induction cs generalizing all with
  | nil => simp
  | cons c cs ih =>
    by_cases deleted : c.1 ∈ tombstones
    · have here : consider tombstones distance all c = all := if_pos (.inl deleted)
      rw [List.filter_cons_of_neg (by simpa using deleted)] at once ⊢
      rw [List.foldl_cons, here]
      exact ih once
    · rw [List.filter_cons_of_pos (by simpa using deleted)] at once ⊢
      have seen : c.1 ∉ all.map Prod.fst := by
        rw [List.map_append, List.map_cons] at once
        intro before
        exact (List.nodup_append.mp once).2.2 c.1 before c.1 List.mem_cons_self rfl
      have here : consider tombstones distance all c = all ++ [(c.1, distance c)] :=
        if_neg (by simp only [deleted, seen, or_self, not_false_eq_true])
      rw [List.foldl_cons, here, ih (by simpa using once)]
      simp

end Union

end GalaxDb.Ann
