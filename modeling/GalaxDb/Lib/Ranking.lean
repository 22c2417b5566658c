import Mathlib.Data.List.Sort
import Mathlib.Order.Lattice

/-!
# Ranking keys by a distance

A ranking lists the keys of a map with their distances, each key once and the nearest first.
-/

universe u v

namespace Ranking

variable {κ : Type u} {δ : Type v} [LinearOrder δ]

/-- Sorted by distance. Of equal distances the earlier one stays first. -/
def rank (l : List (κ × δ)) : List (κ × δ) := l.insertionSort fun a b => a.2 ≤ b.2

/-- The list has each key of the map once, with its distance, and the nearest first. -/
structure Ranks (m : κ → Option δ) (l : List (κ × δ)) : Prop where
  once : (l.map Prod.fst).Nodup
  mem : ∀ k d, (k, d) ∈ l ↔ m k = some d
  sorted : l.Pairwise fun a b => a.2 ≤ b.2

variable {m : κ → Option δ} {l l' : List (κ × δ)}

theorem rank_perm (l : List (κ × δ)) : (rank l).Perm l := List.perm_insertionSort _ l

theorem rank_sorted (l : List (κ × δ)) : (rank l).Pairwise fun a b => a.2 ≤ b.2 := by
  exact List.pairwise_insertionSort _ l

theorem ranks_rank (once : (l.map Prod.fst).Nodup) (mem : ∀ k d, (k, d) ∈ l ↔ m k = some d) :
    Ranks m (rank l) where
  once := ((rank_perm l).map Prod.fst).nodup_iff.mpr once
  mem k d := (rank_perm l).mem_iff.trans (mem k d)
  sorted := rank_sorted l

end Ranking
