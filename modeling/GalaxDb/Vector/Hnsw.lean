import GalaxDb.Lib.Ranking
import Mathlib.Algebra.GroupWithZero.Nat
import Mathlib.Data.Finset.Card
import Mathlib.Data.List.MinMax

/-!
# The navigable graph and its insert

Every read and write of a neighbor list holds the lock of its node, and so is one step here. The
entry point and the maximum layer are two variables: an insert reads the one and then the other.
Nothing is the result of a step whose index is out of bounds.
-/

namespace GalaxDb.Hnsw

open Ranking

structure Config where
  m : Nat
  m0 : Nat
  efConstruction : Nat
  maxElements : Nat

def Config.maxEdges (c : Config) (layer : Nat) : Nat := if layer = 0 then c.m0 else c.m

/-- The length of a visited list. -/
def Config.visitedSize (c : Config) : Nat := max c.maxElements 1000000

/-- A node and its distance. -/
abbrev Candidate (D : Type) := Nat × D

structure Graph where
  nodeMaxLayers : List Nat
  neighbors0 : List (List Nat)
  neighborsUpper : List (List (List Nat))
  entryPoint : Option Nat
  maxLayer : Nat
  deriving DecidableEq

namespace Graph

def empty : Graph := ⟨[], [], [], none, 0⟩

def layerOf (g : Graph) (id : Nat) : Nat := g.nodeMaxLayers[id]?.getD 0

/-- The node is allocated, and its maximum layer is at least this one. -/
def HasLayer (g : Graph) (id layer : Nat) : Prop :=
  id < g.nodeMaxLayers.length ∧ layer ≤ g.layerOf id

/-- The vectors grow by nodes without neighbors. -/
def resize (g : Graph) (layers : List Nat) : Graph :=
  { g with
    nodeMaxLayers := g.nodeMaxLayers ++ layers
    neighbors0 := g.neighbors0 ++ layers.map fun _ => []
    neighborsUpper := g.neighborsUpper ++ layers.map fun l => List.replicate l [] }

/-- A layer above those of the node has no neighbors. -/
def getNeighbors (g : Graph) (id layer : Nat) : Option (List Nat) :=
  if layer = 0 then g.neighbors0[id]?
  else g.neighborsUpper[id]?.map fun upper => upper[layer - 1]?.getD []

/-- Read for a write: the layer has to be one of the node's. -/
def ownNeighbors (g : Graph) (id layer : Nat) : Option (List Nat) :=
  if layer = 0 then g.neighbors0[id]?
  else g.neighborsUpper[id]?.bind fun upper => upper[layer - 1]?

/-- Layer 0 has `m0` slots and a `u16` that counts them. An upper layer has to be the node's own. -/
def setNeighbors (c : Config) (g : Graph) (id layer : Nat) (neighbors : List Nat) : Option Graph :=
  if layer = 0 then
    if id < g.neighbors0.length ∧ neighbors.length ≤ c.m0 then
      some { g with neighbors0 := g.neighbors0.set id (neighbors.take (neighbors.length % 2 ^ 16)) }
    else none
  else
    match g.neighborsUpper[id]? with
    | some upper =>
      if layer - 1 < upper.length then
        some { g with neighborsUpper := g.neighborsUpper.set id (upper.set (layer - 1) neighbors) }
      else none
    | none => none

variable {D : Type}

/-- A node whose vector is there. -/
def measure (g : Graph) (dist : Nat → D) (id : Nat) : Option (Candidate D) :=
  if id < g.nodeMaxLayers.length then some (id, dist id) else none

end Graph

section Lists

variable {D : Type} [LinearOrder D]

/-- A candidate nearer to a selected node than to the query is put aside. -/
def scan (dist : Nat → Nat → D) (mMax : Nat) (s : List Nat × List Nat) (c : Candidate D) :
    List Nat × List Nat :=
  if mMax ≤ s.1.length then s
  else if ∀ id ∈ s.1, c.2 ≤ dist c.1 id then (s.1 ++ [c.1], s.2)
  else (s.1, s.2 ++ [c.1])

/-- Places that are left over go to those put aside. -/
def selectNeighborsHeuristic (dist : Nat → Nat → D) (candidates : List (Candidate D)) (mMax : Nat) :
    List Nat :=
  let (selected, pruned) := candidates.foldl (scan dist mMax) ([], [])
  selected ++ pruned.take (mMax - selected.length)

/-- The heuristic is for layer 0 only. -/
def select (dist : Nat → Nat → D) (c : Config) (layer : Nat) (candidates : List (Candidate D)) :
    List Nat :=
  if layer = 0 then selectNeighborsHeuristic dist candidates (c.maxEdges layer)
  else (candidates.take (c.maxEdges layer)).map Prod.fst

def addEdgeBidirectional (dist : Nat → Nat → D) (c : Config) (g : Graph) (targetNode newNb layer :
    Nat) :
    Option Graph := do
  let neighbors ← g.ownNeighbors targetNode layer
  if newNb ∈ neighbors then return g
  let neighbors := neighbors ++ [newNb]
  if c.maxEdges layer < neighbors.length then
    let candidates ← neighbors.mapM (g.measure (dist targetNode))
    g.setNeighbors c targetNode layer (select dist c layer (rank candidates))
  else
    g.setNeighbors c targetNode layer neighbors

/-- The two heaps of a search and the nodes marked as visited. -/
structure Beam (D : Type) where
  candidates : List (Candidate D)
  results : List (Candidate D)
  visited : Finset Nat

/-- The entry nodes are marked. -/
def Beam.start (c : Config) (epNodes : List (Candidate D)) : Option (Beam D) :=
  if ∀ ep ∈ epNodes, ep.1 < c.visitedSize then
    some ⟨epNodes, epNodes, (epNodes.map Prod.fst).toFinset⟩
  else none

/-- The nearest candidate, unless the results are full and all nearer. -/
def Beam.next (ef : Nat) (b : Beam D) : Option (Option (Candidate D)) :=
  match b.candidates.argmin Prod.snd with
  | none => some none
  | some c => (b.results.argmax Prod.snd).map fun farthest =>
    if ef ≤ b.results.length ∧ farthest.2 < c.2 then none else some c

/-- Without the farthest. -/
def evict (results : List (Candidate D)) : List (Candidate D) :=
  match results.argmax Prod.snd with
  | none => results
  | some farthest => results.erase farthest

def Beam.visit (c : Config) (g : Graph) (dist : Nat → D) (ef : Nat) (b : Beam D) (nb : Nat) :
    Option (Beam D) :=
  if nb < c.visitedSize then
    if nb ∈ b.visited then some b
    else do
      let found ← g.measure dist nb
      let farthest ← b.results.argmax Prod.snd
      let visited := insert nb b.visited
      if b.results.length < ef ∨ found.2 < farthest.2 then
        let results := b.results ++ [found]
        return ⟨b.candidates ++ [found], if ef < results.length then evict results else results,
          visited⟩
      else
        return { b with visited := visited }
  else none

/-- The neighbors of a candidate are visited. -/
def Beam.expand (c : Config) (g : Graph) (dist : Nat → D) (ef layer : Nat) (b : Beam D)
    (cand : Candidate D) : Option (Beam D) := do
  let neighbors ← g.getNeighbors cand.1 layer
  neighbors.foldlM (Beam.visit c g dist ef) { b with candidates := b.candidates.erase cand }

/-- The nearest of a node's neighbors and the node itself. -/
def nearest (g : Graph) (dist : Nat → D) (layer : Nat) (curr : Candidate D) :
    Option (Candidate D) := do
  let neighbors ← g.getNeighbors curr.1 layer
  let found ← neighbors.mapM (g.measure dist)
  return found.foldl (fun best f => if f.2 < best.2 then f else best) curr

end Lists

section Inserts

variable {D : Type} [LinearOrder D]

/-- Where an insert stands, with its local variables. -/
inductive Insert (D : Type) where
  | idle
  | readEntryPoint
  | loadMaxLayer (currEp : Option Nat)
  | firstNode (maxLayer : Nat)
  | descend (maxLayer layer : Nat) (curr : Candidate D)
  | search (maxLayer layer : Nat) (beam : Beam D)
  | setNeighbors (maxLayer layer : Nat) (best : List (Candidate D))
  | addEdges (maxLayer layer : Nat) (best : List (Candidate D)) (nbs : List Nat)
  | updateEntryPoint (maxLayer : Nat)
  | done

/-- Down to the node's own layers, and from there a search in each. -/
def descendTo (c : Config) (nodeLayer maxLayer layer : Nat) (curr : Candidate D) :
    Option (Insert D) :=
  if nodeLayer < layer then some (.descend maxLayer layer curr)
  else (Beam.start c [curr]).map (.search maxLayer (min maxLayer nodeLayer))

/-- The next atomic step of the insert of a node. -/
def insertStep (dist : Nat → Nat → D) (c : Config) (g : Graph) (id : Nat) :
    Insert D → Option (Graph × Insert D)
  | .idle => some (g, .idle)
  | .readEntryPoint => some (g, .loadMaxLayer g.entryPoint)
  | .loadMaxLayer none => some (g, .firstNode g.maxLayer)
  | .loadMaxLayer (some ep) => do
    let curr ← g.measure (dist id) ep
    let next ← descendTo c (g.layerOf id) g.maxLayer g.maxLayer curr
    return (g, next)
  | .firstNode maxLayer =>
    match g.entryPoint with
    | none => some ({ g with entryPoint := some id, maxLayer := g.layerOf id }, .done)
    | some ep => do
      let curr ← g.measure (dist id) ep
      let next ← descendTo c (g.layerOf id) maxLayer maxLayer curr
      return (g, next)
  | .descend maxLayer layer curr => do
    let found ← nearest g (dist id) layer curr
    if found.2 < curr.2 then
      return (g, .descend maxLayer layer found)
    else
      let next ← descendTo c (g.layerOf id) maxLayer (layer - 1) found
      return (g, next)
  | .search maxLayer layer beam => do
    match ← beam.next c.efConstruction with
    | none => return (g, .setNeighbors maxLayer layer (rank beam.results))
    | some cand =>
      let beam ← beam.expand c g (dist id) c.efConstruction layer cand
      return (g, .search maxLayer layer beam)
  | .setNeighbors maxLayer layer best => do
    let selected := select dist c layer best
    let g ← g.setNeighbors c id layer selected
    return (g, .addEdges maxLayer layer best selected)
  | .addEdges maxLayer layer best (nb :: nbs) => do
    let g ← addEdgeBidirectional dist c g nb id layer
    return (g, .addEdges maxLayer layer best nbs)
  | .addEdges maxLayer 0 _ [] => some (g, .updateEntryPoint maxLayer)
  | .addEdges maxLayer (layer + 1) best [] => (Beam.start c best).map fun beam =>
    (g, .search maxLayer layer beam)
  | .updateEntryPoint maxLayer =>
    if maxLayer < g.layerOf id ∧ g.maxLayer < g.layerOf id then
      some ({ g with entryPoint := some id, maxLayer := g.layerOf id }, .done)
    else some (g, .done)
  | .done => some (g, .done)

structure State (D : Type) where
  graph : Graph
  inserts : Nat → Insert D

def State.empty : State D := ⟨.empty, fun _ => .idle⟩

inductive Op where
  | resize (layers : List Nat)
  | insert (id : Nat)
  | step (id : Nat)

/-- Nodes are allocated, the insert of one begins, or one insert takes its next step. -/
def step (dist : Nat → Nat → D) (c : Config) (s : State D) : Op → Option (State D)
  | .resize layers => some { s with graph := s.graph.resize layers }
  | .insert id =>
    match s.inserts id with
    | .idle =>
      if id < s.graph.nodeMaxLayers.length then
        some { s with inserts := Function.update s.inserts id .readEntryPoint }
      else some s
    | _ => some s
  | .step id => (insertStep dist c s.graph id (s.inserts id)).map fun next =>
    ⟨next.1, Function.update s.inserts id next.2⟩

end Inserts

section Search

variable {D : Type} [LinearOrder D]

/-- The descent within one layer. -/
def greedy (g : Graph) (query : Nat → D) (layer : Nat) :
    (fuel : Nat) → Candidate D → Option (Candidate D)
  | 0, _ => none
  | fuel + 1, curr => do
    let found ← nearest g query layer curr
    if found.2 < curr.2 then greedy g query layer fuel found else return curr

/-- The search of one layer. -/
def searchLayer (c : Config) (g : Graph) (query : Nat → D) (ef layer : Nat) :
    (fuel : Nat) → Beam D →
    Option (List (Candidate D))
  | 0, _ => none
  | fuel + 1, b => do
    match ← b.next ef with
    | none => return b.results
    | some cand =>
      let b ← b.expand c g query ef layer cand
      searchLayer c g query ef layer fuel b

/-- The layers above the lowest, from this one down. -/
def descendAll (g : Graph) (query : Nat → D) : (layer : Nat) → Candidate D → Option (Candidate D)
  | 0, curr => some curr
  | layer + 1, curr => do
    let curr ← greedy g query (layer + 1) (g.nodeMaxLayers.length + 1) curr
    descendAll g query layer curr

/-- No node is expanded twice, so the number of nodes bounds the loops. -/
def search (c : Config) (g : Graph) (query : Nat → D) (k efSearch : Nat) :
    Option (List (Candidate D)) :=
  match g.entryPoint with
  | none => some []
  | some ep => do
    let curr ← g.measure query ep
    let curr ← descendAll g query g.maxLayer curr
    let beam ← Beam.start c [curr]
    let results ← searchLayer c g query (max efSearch k) 0 (g.nodeMaxLayers.length + 1) beam
    return (rank results).take k

end Search

end GalaxDb.Hnsw
