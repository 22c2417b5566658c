import GalaxDb.Vector.HnswBuild
import Mathlib.Data.Finset.Filter

/-!
# Searching a graph that parallel inserts built
-/

namespace GalaxDb.Hnsw

open Ranking

section Loops

variable {D : Type} [LinearOrder D] {c : Config} {g : Graph} {query : Nat → D}

/-- The nodes that are nearer than a distance. Each round of the descent leaves fewer of them. -/
def Graph.nearer (g : Graph) (query : Nat → D) (d : D) : Finset Nat :=
  (Finset.range g.nodeMaxLayers.length).filter fun id => query id < d

theorem Graph.card_nearer_lt {id : Nat} {d : D} (inside : id < g.nodeMaxLayers.length)
    (nearer : query id < d) : (g.nearer query (query id)).card < (g.nearer query d).card := by
  refine Finset.card_lt_card ((Finset.ssubset_iff_of_subset ?_).mpr ⟨id, ?_, ?_⟩)
  · intro x member
    obtain ⟨there, less⟩ := Finset.mem_filter.mp member
    exact Finset.mem_filter.mpr ⟨there, less.trans nearer⟩
  · exact Finset.mem_filter.mpr ⟨Finset.mem_range.mpr inside, nearer⟩
  · intro member
    exact lt_irrefl _ (Finset.mem_filter.mp member).2

theorem Sound.inside (h : Sound c g) (id layer : Nat) : ∀ nb ∈ g.neighbors id layer,
    nb < g.nodeMaxLayers.length :=
  fun nb member => ((h.lists id layer).known nb member).2.1

variable {fuel : Nat}

theorem Sound.greedy (h : Sound c g) (layer : Nat) {curr : Candidate D}
    (own : curr.2 = query curr.1) (inside : curr.1 < g.nodeMaxLayers.length)
    (enough : (g.nearer query curr.2).card < fuel) :
    ∃ found, Hnsw.greedy g query layer fuel curr = some found ∧ found.2 = query found.1 ∧
      found.1 < g.nodeMaxLayers.length := by
  induction fuel generalizing curr with
  | zero => exact absurd enough (Nat.not_lt_zero _)
  | succ fuel ih =>
    obtain ⟨found, eq, own', from'⟩ := nearest_spec h.shaped inside own (h.inside curr.1 layer)
    have inside' : found.1 < g.nodeMaxLayers.length := by
      rcases from' with rfl | member
      · exact inside
      · exact h.inside curr.1 layer _ member
    rw [Hnsw.greedy, eq, Option.bind_eq_bind, Option.bind_some]
    split_ifs with nearer
    · have fewer := Graph.card_nearer_lt inside' (own' ▸ nearer)
      rw [← own'] at fewer
      exact ih own' inside' (by omega)
    · exact ⟨curr, rfl, own, inside⟩

theorem Sound.descendAll (h : Sound c g) (layer : Nat) {curr : Candidate D}
    (own : curr.2 = query curr.1) (inside : curr.1 < g.nodeMaxLayers.length) :
    ∃ found, Hnsw.descendAll g query layer curr = some found ∧ found.2 = query found.1 ∧
      found.1 < g.nodeMaxLayers.length := by
  induction layer generalizing curr with
  | zero => exact ⟨curr, rfl, own, inside⟩
  | succ layer ih =>
    have few : (g.nearer query curr.2).card < g.nodeMaxLayers.length + 1 :=
      Nat.lt_succ_of_le ((Finset.card_filter_le _ _).trans_eq (Finset.card_range _))
    obtain ⟨next, eq, own', inside'⟩ := h.greedy (layer + 1) own inside few
    rw [Hnsw.descendAll, eq]
    exact ih own' inside'

/-- Each round takes a candidate, and no node becomes one twice. -/
theorem Sound.searchLayer (h : Sound c g) (sized : g.nodeMaxLayers.length ≤ c.visitedSize)
    (ef layer : Nat) {b : Beam D} (sound : b.Sound query fun id => id < g.nodeMaxLayers.length)
    (enough : b.candidates.length + g.nodeMaxLayers.length < fuel + b.visited.card) :
    ∃ results, Hnsw.searchLayer c g query ef layer fuel b = some results ∧
      Found query (fun id => id < g.nodeMaxLayers.length) results := by
  induction fuel generalizing b with
  | zero =>
    have within : b.visited ⊆ Finset.range g.nodeMaxLayers.length :=
      fun id member => Finset.mem_range.mpr (sound.visited id member)
    have few := (Finset.card_le_card within).trans_eq (Finset.card_range _)
    omega
  | succ fuel ih =>
    obtain ⟨o, eq, taken⟩ := sound.next ef
    rw [Hnsw.searchLayer, eq, Option.bind_eq_bind, Option.bind_some]
    cases o with
    | none => exact ⟨b.results, rfl, sound.results⟩
    | some cand =>
      obtain ⟨b', expand, sound', fewer⟩ := sound.expand h.shaped
        (fun id known => ⟨known, known.trans_le sized⟩) ef (taken cand rfl) (h.inside cand.1 layer)
      simp only [expand]
      exact ih sound' (by omega)

/-- A search of a sound graph ends. It answers distinct nodes at their distances, the nearest first.
-/
theorem Sound.search (h : Sound c g) (sized : g.nodeMaxLayers.length ≤ c.visitedSize) (query :
    Nat → D)
    (k efSearch : Nat) : ∃ found, Hnsw.search c g query k efSearch = some found ∧
      (found.map Prod.fst).Nodup ∧ found.Pairwise (fun a b => a.2 ≤ b.2) ∧
      ∀ x ∈ found, x.1 < g.nodeMaxLayers.length ∧ x.2 = query x.1 := by
  unfold Hnsw.search
  cases entry : g.entryPoint with
  | none => exact ⟨[], rfl, List.nodup_nil, List.Pairwise.nil, nofun⟩
  | some ep =>
    have inside := (h.entry ep entry).1
    have measured : g.measure query ep = some (ep, query ep) := if_pos inside
    obtain ⟨low, down, own, inside'⟩ :=
      @Sound.descendAll D _ c g query h g.maxLayer (ep, query ep) rfl inside
    have one : Found query (fun id => id < g.nodeMaxLayers.length) [low] :=
      ⟨by simp, by simp, by simpa using ⟨own, inside'⟩⟩
    obtain ⟨b, start, sound, candidates, visited⟩ :=
      one.start (c := c) fun id known => known.trans_le sized
    obtain ⟨results, eq, found⟩ := h.searchLayer sized (max efSearch k) 0 sound
      (by
        rw [candidates, visited, List.length_singleton]; omega : _ < g.nodeMaxLayers.length + 1 + _)
    simp only [measured, down, start, eq, Option.bind_eq_bind, Option.bind_some]
    have ranked := found.perm (rank_perm results)
    have front := List.take_sublist k (rank results)
    exact ⟨_, rfl, ranked.once.sublist (front.map _), (rank_sorted results).sublist front,
      fun x member => (ranked.known x (front.subset member)).symm⟩

end Loops

section Runs

variable {D : Type} [LinearOrder D]

/-- In a run of fit steps no index is out of bounds, the graph is well formed after every step, and
a search of it answers distinct nodes, the nearest first. -/
theorem well_formed_of_run (c : Config) (dist : Nat → Nat → D) {ops : List Op}
    (fit : Run.Along (step dist c) (Fit c) State.empty ops) :
    ∃ s, Run.run (step dist c) State.empty ops = some s ∧ WellFormed c s.graph ∧
      ∀ (query : Nat → D) (k efSearch : Nat), ∃ found, search c s.graph query k efSearch =
        some found ∧
        (found.map Prod.fst).Nodup ∧ found.Pairwise (fun a b => a.2 ≤ b.2) ∧
        ∀ x ∈ found, x.1 < s.graph.nodeMaxLayers.length ∧ x.2 = query x.1 := by
  obtain ⟨s, eq, sound⟩ := (sound_empty c dist).run fit
  exact ⟨s, eq, sound.graph.lists, sound.graph.search sound.sized⟩

/-- Nodes are numbers on a line. -/
def sampleDist (a b : Nat) : Nat := (a - b) + (b - a)

def sampleConfig : Config := ⟨2, 4, 2, 10⟩

def steps (id n : Nat) : List Op := List.replicate n (.step id)

/-- A first node, and then two inserts in turn. -/
def sampleOps : List Op :=
  [.resize [1, 0, 0], .insert 0] ++ steps 0 3 ++ [.insert 1, .insert 2] ++ steps 1 2 ++ steps 2 2 ++
    steps 1 4 ++ steps 2 9 ++ steps 1 9

theorem well_formed_of_sample_run :
    ∃ s, Run.run (step sampleDist sampleConfig) State.empty sampleOps = some s ∧
    WellFormed sampleConfig s.graph ∧
    ∀ (query : Nat → Nat) (k efSearch : Nat), ∃ found,
      search sampleConfig s.graph query k efSearch = some found ∧
      (found.map Prod.fst).Nodup ∧ found.Pairwise (fun a b => a.2 ≤ b.2) ∧
      ∀ x ∈ found, x.1 < s.graph.nodeMaxLayers.length ∧ x.2 = query x.1 :=
  well_formed_of_run sampleConfig sampleDist (by decide)

/-- The entry point is read, then raised from layer 0 to layer 2 by another insert, and then the
maximum layer is loaded. -/
def tornOps : List Op :=
  [.resize [0, 2, 1], .insert 0] ++ steps 0 3 ++ [.insert 2, .step 2, .insert 1] ++ steps 1 9 ++
    steps 2 5

/-- While one insert is between its layers 1 and 0, another links the node at layer 0. -/
def linkedOps : List Op :=
  [.resize [1, 1, 1], .insert 0] ++ steps 0 3 ++ [.insert 1] ++ steps 1 6 ++ [.insert 2] ++
    steps 2 17 ++ steps 1 6

/-- In the one run a node without layer 1 becomes a neighbor there, and the edge back indexes out
of bounds. In the other run a node becomes its own neighbor. -/
theorem schedules_spoil_graph :
    (∃ s, Run.run (step sampleDist sampleConfig) State.empty tornOps = some s ∧
      ¬ WellFormed sampleConfig s.graph ∧ step sampleDist sampleConfig s (.step 2) = none) ∧
    ∃ s, Run.run (step sampleDist sampleConfig) State.empty linkedOps = some s ∧
      1 ∈ s.graph.neighbors 1 0 ∧ ¬ WellFormed sampleConfig s.graph := by
  refine ⟨⟨_, rfl, ?_, rfl⟩, _, rfl, ?_, ?_⟩
  · intro formed
    exact absurd ((formed 2 1).known 0 (by decide)).2.2 (by decide)
  · decide
  · intro formed
    exact ((formed 1 0).known 1 (by decide)).1 rfl

end Runs

end GalaxDb.Hnsw
