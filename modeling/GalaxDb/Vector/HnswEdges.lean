import GalaxDb.Vector.Hnsw
import Mathlib.Data.List.Perm.Subperm

/-!
# Neighbor lists

What a neighbor list of the graph may have, and that the two writers of lists keep to it.
-/

namespace GalaxDb.Hnsw

open Ranking List

section Lists

variable {c : Config} {g g' : Graph}

def Graph.neighbors (g : Graph) (id layer : Nat) : List Nat := (g.getNeighbors id layer).getD []

/-- A list that may stand at this layer of the node: short enough, without repetition, of other
allocated nodes that have the layer. -/
structure Listed (c : Config) (g : Graph) (id layer : Nat) (l : List Nat) : Prop where
  few : l.length ≤ c.maxEdges layer
  distinct : l.Nodup
  known : ∀ nb ∈ l, nb ≠ id ∧ g.HasLayer nb layer

def WellFormed (c : Config) (g : Graph) : Prop :=
  ∀ id layer, Listed c g id layer (g.neighbors id layer)

/-- The vectors of lists are as long as the nodes need. -/
structure Shaped (g : Graph) : Prop where
  lower : g.neighbors0.length = g.nodeMaxLayers.length
  upper : g.neighborsUpper.map List.length = g.nodeMaxLayers

/-- Only neighbor lists differ. -/
structure Rewired (g g' : Graph) : Prop where
  layers : g'.nodeMaxLayers = g.nodeMaxLayers
  entryPoint : g'.entryPoint = g.entryPoint
  maxLayer : g'.maxLayer = g.maxLayer

/-- The entry point is a node of the maximum layer. -/
structure Sound (c : Config) (g : Graph) : Prop where
  shaped : Shaped g
  lists : WellFormed c g
  entry : ∀ ep, g.entryPoint = some ep → ep < g.nodeMaxLayers.length ∧ g.layerOf ep = g.maxLayer
  noEntry : g.entryPoint = none → g.maxLayer = 0

variable {l : List Nat} {id layer : Nat}

theorem Graph.HasLayer.mono {layer' : Nat} (h : g.HasLayer id layer) (le : layer' ≤ layer) :
    g.HasLayer id layer' := ⟨h.1, le.trans h.2⟩

theorem Rewired.refl (g : Graph) : Rewired g g := ⟨rfl, rfl, rfl⟩

theorem Rewired.hasLayer (h : Rewired g g') : g'.HasLayer id layer ↔ g.HasLayer id layer := by
  rw [Graph.HasLayer, Graph.HasLayer, Graph.layerOf, Graph.layerOf, h.layers]

theorem Listed.sublist {l' : List Nat} (h : Listed c g id layer l) (sub : l'.Sublist l) :
    Listed c g id layer l' where
  few := sub.length_le.trans h.few
  distinct := h.distinct.sublist sub
  known nb member := h.known nb (sub.subset member)

theorem listed_nil (c : Config) (g : Graph) (id layer : Nat) : Listed c g id layer [] :=
  ⟨Nat.zero_le _, nodup_nil, nofun⟩

theorem Shaped.upper_at (h : Shaped g) (inside : id < g.nodeMaxLayers.length) :
    ∃ upper, g.neighborsUpper[id]? = some upper ∧ upper.length = g.layerOf id := by
  have lengths : (g.neighborsUpper.map List.length)[id]? = g.nodeMaxLayers[id]? := by rw [h.upper]
  rw [getElem?_map, getElem?_eq_getElem inside, Option.map_eq_some_iff] at lengths
  obtain ⟨upper, eq, len⟩ := lengths
  exact ⟨upper, eq, by rw [len, Graph.layerOf, getElem?_eq_getElem inside]; rfl⟩

theorem Shaped.getNeighbors (h : Shaped g) (inside : id < g.nodeMaxLayers.length) (layer : Nat) :
    g.getNeighbors id layer = some (g.neighbors id layer) := by
  rw [Graph.neighbors]
  unfold Graph.getNeighbors
  split
  · rw [getElem?_eq_getElem (h.lower ▸ inside)]
    rfl
  · obtain ⟨upper, eq, -⟩ := h.upper_at inside
    rw [eq]
    rfl

/-- One list is written, or what the count of its slots keeps of it. -/
theorem Shaped.setNeighbors (h : Shaped g) (known : g.HasLayer id layer)
    (few : l.length ≤ c.maxEdges layer) :
    ∃ g', g.setNeighbors c id layer l = some g' ∧ Shaped g' ∧ Rewired g g' ∧
      ∀ id' layer', g'.neighbors id' layer' = g.neighbors id' layer' ∨
        id' = id ∧ layer' = layer ∧ (g'.neighbors id' layer').Sublist l := by
  obtain ⟨inside, le⟩ := known
  unfold Graph.setNeighbors
  by_cases low : layer = 0
  · subst low
    have room : id < g.neighbors0.length ∧ l.length ≤ c.m0 := ⟨h.lower ▸ inside, few⟩
    rw [if_pos rfl, if_pos room]
    refine ⟨_, rfl, ⟨by simpa using h.lower, h.upper⟩, ⟨rfl, rfl, rfl⟩, ?_⟩
    intro id' layer'
    by_cases written : id = id' ∧ layer' = 0
    · obtain ⟨rfl, rfl⟩ := written
      refine .inr ⟨rfl, rfl, ?_⟩
      simp only [Graph.neighbors, Graph.getNeighbors, if_pos, getElem?_set_self room.1,
        Option.getD_some]
      exact take_sublist _ _
    · refine .inl ?_
      unfold Graph.neighbors Graph.getNeighbors
      split_ifs with low
      · rw [getElem?_set_ne fun same => written ⟨same, low⟩]
      · rfl
  · obtain ⟨upper, eq, length⟩ := h.upper_at inside
    have own : layer - 1 < upper.length := by omega
    rw [if_neg low, eq]
    simp only [if_pos own]
    have exists_ : id < g.neighborsUpper.length := (List.getElem?_eq_some_iff.mp eq).1
    refine ⟨_, rfl, ⟨h.lower, ?_⟩, ⟨rfl, rfl, rfl⟩, ?_⟩
    · rw [← h.upper]
      refine ext_getElem? fun i => ?_
      rw [getElem?_map, getElem?_map, getElem?_set]
      split_ifs with same
      · subst same
        rw [eq]
        simp
      · rfl
    · intro id' layer'
      by_cases written : id = id' ∧ layer' = layer
      · obtain ⟨rfl, rfl⟩ := written
        simp [Graph.neighbors, Graph.getNeighbors, low, getElem?_set_self exists_,
          getElem?_set_self own]
      · refine .inl ?_
        unfold Graph.neighbors Graph.getNeighbors
        split_ifs with low'
        · rfl
        · rw [getElem?_set]
          split_ifs with same
          · subst same
            rw [eq]
            have other : layer - 1 ≠ layer' - 1 := fun same => written ⟨rfl, by omega⟩
            simp [getElem?_set_ne other]
          · rfl

theorem Sound.setNeighbors (h : Sound c g) (known : g.HasLayer id layer)
    (listed : Listed c g id layer l) :
    ∃ g', g.setNeighbors c id layer l = some g' ∧ Sound c g' ∧ Rewired g g' := by
  obtain ⟨g', eq, shaped, rewired, lists⟩ := h.shaped.setNeighbors known listed.few
  refine ⟨g', eq, ⟨shaped, ?_, ?_, ?_⟩, rewired⟩
  · intro id' layer'
    have before : Listed c g id' layer' (g'.neighbors id' layer') := by
      rcases lists id' layer' with same | ⟨rfl, rfl, sub⟩
      · exact same ▸ h.lists id' layer'
      · exact listed.sublist sub
    exact ⟨before.few, before.distinct, fun nb member =>
      ⟨(before.known nb member).1, rewired.hasLayer.mpr (before.known nb member).2⟩⟩
  · intro ep entry
    rw [rewired.layers, Graph.layerOf, rewired.layers, rewired.maxLayer]
    exact h.entry ep (rewired.entryPoint ▸ entry)
  · intro entry
    rw [rewired.maxLayer]
    exact h.noEntry (rewired.entryPoint ▸ entry)

end Lists

section Selection

variable {D : Type} [LinearOrder D] {c : Config} {g : Graph} (dist : Nat → Nat → D)

/-- The scan keeps each candidate at most once, and selects no more than asked for. -/
theorem foldl_scan (mMax : Nat) (candidates : List (Candidate D)) :
    ((candidates.foldl (scan dist mMax) ([], [])).1 ++
        (candidates.foldl (scan dist mMax) ([], [])).2).Subperm (candidates.map Prod.fst) ∧
      (candidates.foldl (scan dist mMax) ([], [])).1.length ≤ mMax := by
  induction candidates using List.reverseRecOn with
  | nil => exact ⟨List.Subperm.refl _, Nat.zero_le _⟩
  | append_singleton before cand ih =>
    obtain ⟨sub, few⟩ := ih
    rw [foldl_append, foldl_cons, foldl_nil, map_append, map_singleton]
    generalize before.foldl (scan dist mMax) ([], []) = s at sub few
    have grown : (s.1 ++ s.2 ++ [cand.1]).Subperm (before.map Prod.fst ++ [cand.1]) :=
      (subperm_append_right _).mpr sub
    unfold scan
    split_ifs with full good
    · exact ⟨sub.trans (sublist_append_left _ _).subperm, few⟩
    · refine ⟨?_, ?_⟩
      · have moved : (s.1 ++ s.2 ++ [cand.1]).Perm (s.1 ++ [cand.1] ++ s.2) := by
          rw [append_assoc, append_assoc]
          exact perm_append_comm.append_left s.1
        exact moved.subperm_right.mp grown
      · simp only [length_append, length_singleton]
        omega
    · exact ⟨by simpa using grown, few⟩

theorem select_spec (c : Config) (layer : Nat) (candidates : List (Candidate D)) :
    (select dist c layer candidates).Subperm (candidates.map Prod.fst) ∧
      (select dist c layer candidates).length ≤ c.maxEdges layer := by
  unfold select
  split_ifs with low
  · obtain ⟨sub, few⟩ := foldl_scan dist (c.maxEdges layer) candidates
    unfold selectNeighborsHeuristic
    refine ⟨?_, ?_⟩
    · exact ((List.Sublist.refl _).append (take_sublist _ _)).subperm.trans sub
    · simp only [length_append, length_take]
      omega
  · exact ⟨((take_sublist _ _).map _).subperm, by simp⟩

variable {id layer : Nat}

theorem listed_select {candidates : List (Candidate D)} (once : (candidates.map Prod.fst).Nodup)
    (known : ∀ cand ∈ candidates, cand.1 ≠ id ∧ g.HasLayer cand.1 layer) :
    Listed c g id layer (select dist c layer candidates) := by
  obtain ⟨sub, few⟩ := select_spec dist c layer candidates
  obtain ⟨l, perm, sublist⟩ := sub
  refine ⟨few, perm.nodup_iff.mp (once.sublist sublist), ?_⟩
  intro nb member
  obtain ⟨cand, there, rfl⟩ := mem_map.mp (sublist.subset (perm.mem_iff.mpr member))
  exact known cand there

omit [LinearOrder D] in
theorem Graph.mapM_measure {dist : Nat → D} {l : List Nat} (inside :
    ∀ id ∈ l, id < g.nodeMaxLayers.length) :
    l.mapM (g.measure dist) = some (l.map fun id => (id, dist id)) := by
  induction l with
  | nil => rfl
  | cons id l ih =>
    have rest := ih fun id member => inside id (mem_cons_of_mem _ member)
    rw [mapM_cons, rest, Graph.measure, if_pos (inside id mem_cons_self)]
    rfl

theorem Shaped.ownNeighbors (h : Shaped g) (known : g.HasLayer id layer) :
    g.ownNeighbors id layer = some (g.neighbors id layer) := by
  obtain ⟨inside, le⟩ := known
  unfold Graph.ownNeighbors
  split_ifs with low
  · have found := h.getNeighbors inside layer
    rwa [Graph.getNeighbors, if_pos low] at found
  · obtain ⟨upper, eq, length⟩ := h.upper_at inside
    have own : layer - 1 < upper.length := by omega
    simp [Graph.neighbors, Graph.getNeighbors, low, eq, getElem?_eq_getElem own]

theorem Sound.addEdgeBidirectional (h : Sound c g) {targetNode newNb : Nat}
    (target : g.HasLayer targetNode layer) (known : g.HasLayer newNb layer)
    (other : newNb ≠ targetNode) :
    ∃ g', Hnsw.addEdgeBidirectional dist c g targetNode newNb layer = some g' ∧ Sound c g' ∧
      Rewired g g' := by
  have listed := h.lists targetNode layer
  rw [Hnsw.addEdgeBidirectional, h.shaped.ownNeighbors target]
  simp only [Option.bind_eq_bind, Option.bind_some]
  by_cases again : newNb ∈ g.neighbors targetNode layer
  · rw [if_pos again]
    exact ⟨g, rfl, h, Rewired.refl g⟩
  have once : (g.neighbors targetNode layer ++ [newNb]).Nodup := by
    refine nodup_append.mpr ⟨listed.distinct, nodup_singleton _, ?_⟩
    rintro nb member _ new rfl
    exact again (mem_singleton.mp new ▸ member)
  have allowed : ∀ nb ∈ g.neighbors targetNode layer ++ [newNb], nb ≠ targetNode ∧
      g.HasLayer nb layer := by
    intro nb member
    rcases mem_append.mp member with old | new
    · exact listed.known nb old
    · obtain rfl := mem_singleton.mp new
      exact ⟨other, known⟩
  split_ifs with many
  · rw [Graph.mapM_measure fun nb member => (allowed nb member).2.1, Option.bind_some]
    refine h.setNeighbors target (listed_select dist ?_ ?_)
    · rw [((rank_perm _).map Prod.fst).nodup_iff]
      simpa [map_map, Function.comp_def] using once
    · intro cand member
      obtain ⟨nb, there, rfl⟩ := mem_map.mp ((rank_perm _).mem_iff.mp member)
      exact allowed nb there
  · exact h.setNeighbors target ⟨Nat.le_of_not_lt many, once, allowed⟩

end Selection

end GalaxDb.Hnsw
