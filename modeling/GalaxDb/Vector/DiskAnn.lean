import GalaxDb.Lib.Ranking
import GalaxDb.Lib.Run
import Mathlib.Data.Finset.Card
import Mathlib.Data.Fintype.Card
import Mathlib.Data.List.Destutter
import Mathlib.Data.List.FinRange
import Mathlib.Data.List.MinMax
import Mathlib.Data.UInt
import Mathlib.Logic.Relation

/-!
# The disk-resident index

A graph of vectors on disk, searched by expanding the nearest nodes first, with inserts and
deletes held in memory until the graph is built anew.
-/

namespace GalaxDb.DiskAnn

open Ranking List

section Graphs

/-- The stored graph: the entry point, and the neighbors in each node record. -/
structure Graph (n : Nat) where
  entryPoint : Fin n
  neighbors : Fin n → List (Fin n)

variable {n : Nat} {D : Type}

def Graph.Reaches (g : Graph n) (a b : Fin n) : Prop :=
  Relation.ReflTransGen (fun x y => y ∈ g.neighbors x) a b

/-- Every node is reachable from the entry point. -/
def Graph.Connected (g : Graph n) : Prop := ∀ i, g.Reaches g.entryPoint i

variable {g : Graph n}

theorem Graph.mem_of_closed {s : Finset (Fin n)} (entry : g.entryPoint ∈ s)
    (closed : ∀ a ∈ s, ∀ b ∈ g.neighbors a, b ∈ s) {i : Fin n}
    (reaches : g.Reaches g.entryPoint i) :
    i ∈ s := by
  induction reaches with
  | refl => exact entry
  | tail _ edge ih => exact closed _ ih _ edge

/-- The working list with the nodes that were put on it and those that were expanded. -/
structure Beam (n : Nat) (D : Type) where
  list : List (Fin n × D)
  visited : Finset (Fin n)
  expanded : Finset (Fin n)

/-- A neighbor that was not visited before joins the list. -/
def visit (dist : Fin n → D) (b : Beam n D) (nb : Fin n) : Beam n D :=
  if nb ∈ b.visited then b
  else { b with list := b.list ++ [(nb, dist nb)], visited := insert nb b.visited }

variable [LinearOrder D]

/-- One round: the neighbors of the node are visited and the list is cut to the best `l`. -/
def expand (g : Graph n) (dist : Fin n → D) (l : Nat) (b : Beam n D) (cur : Fin n) : Beam n D :=
  let b := (g.neighbors cur).foldl (visit dist) { b with expanded := insert cur b.expanded }
  { b with list := (rank b.list).take (max l 1) }

/-- Rounds until every node on the list is expanded. -/
def rounds (g : Graph n) (dist : Fin n → D) (l : Nat) : (fuel : Nat) → Beam n D →
    Option (List (Fin n × D))
  | 0, _ => none
  | fuel + 1, b =>
    match (b.list.filter fun c => c.1 ∉ b.expanded).argmin Prod.snd with
    | none => some b.list
    | some cur => rounds g dist l fuel (expand g dist l b cur.1)

/-- No node is expanded twice, so there are never more rounds than nodes. -/
def greedySearchBase (g : Graph n) (dist : Fin n → D) (l : Nat) : Option (List (Fin n × D)) :=
  rounds g dist l (n + 1) ⟨[(g.entryPoint, dist g.entryPoint)], {g.entryPoint}, ∅⟩

/-- The list has the visited nodes, each once with its distance. -/
structure Beam.Sound (g : Graph n) (dist : Fin n → D) (b : Beam n D) : Prop where
  once : (b.list.map Prod.fst).Nodup
  mem : ∀ i d, (i, d) ∈ b.list ↔ i ∈ b.visited ∧ d = dist i
  entry : g.entryPoint ∈ b.visited
  inside : b.expanded ⊆ b.visited

variable {dist : Fin n → D} {b : Beam n D}

omit [LinearOrder D] in
theorem Beam.Sound.visit (h : b.Sound g dist) (nb : Fin n) :
    (DiskAnn.visit dist b nb).Sound g dist ∧ b.visited ⊆ (DiskAnn.visit dist b nb).visited ∧
      nb ∈ (DiskAnn.visit dist b nb).visited ∧ (DiskAnn.visit dist b nb).expanded = b.expanded := by
  unfold DiskAnn.visit
  split_ifs with seen
  · exact ⟨h, Finset.Subset.refl _, seen, rfl⟩
  · refine ⟨⟨?_, ?_, ?_, ?_⟩, Finset.subset_insert _ _, Finset.mem_insert_self _ _, rfl⟩
    · rw [map_append]
      refine nodup_append.mpr ⟨h.once, by simp, ?_⟩
      intro a before c last
      obtain rfl := mem_singleton.mp last
      rintro rfl
      obtain ⟨e, inList, same⟩ := mem_map.mp before
      exact seen (same ▸ ((h.mem e.1 e.2).mp inList).1)
    · intro i d
      simp only [mem_append, mem_singleton, Prod.mk.injEq, Finset.mem_insert, h.mem]
      constructor
      · rintro (⟨before, rfl⟩ | ⟨rfl, rfl⟩)
        · exact ⟨.inr before, rfl⟩
        · exact ⟨.inl rfl, rfl⟩
      · rintro ⟨rfl | before, rfl⟩
        · exact .inr ⟨rfl, rfl⟩
        · exact .inl ⟨before, rfl⟩
    · exact Finset.mem_insert_of_mem h.entry
    · exact h.inside.trans (Finset.subset_insert _ _)

omit [LinearOrder D] in
theorem Beam.Sound.foldl_visit (h : b.Sound g dist) (nbs : List (Fin n)) :
    (nbs.foldl (DiskAnn.visit dist) b).Sound g dist ∧
      b.visited ⊆ (nbs.foldl (DiskAnn.visit dist) b).visited ∧
      (∀ nb ∈ nbs, nb ∈ (nbs.foldl (DiskAnn.visit dist) b).visited) ∧
      (nbs.foldl (DiskAnn.visit dist) b).expanded = b.expanded := by
  induction nbs generalizing b with
  | nil => exact ⟨h, Finset.Subset.refl _, by simp, rfl⟩
  | cons nb nbs ih =>
    obtain ⟨sound, grown, here, expanded⟩ := h.visit nb
    obtain ⟨sound', grown', later, expanded'⟩ := ih sound
    refine ⟨sound', grown.trans grown', ?_, expanded'.trans expanded⟩
    intro x member
    rcases mem_cons.mp member with rfl | member
    · exact grown' here
    · exact later x member

theorem Beam.Sound.expand (h : b.Sound g dist) {l : Nat} (wide : n ≤ l) {cur : Fin n}
    (inList : cur ∈ b.visited) (closed : ∀ a ∈ b.expanded, ∀ x ∈ g.neighbors a, x ∈ b.visited) :
    (DiskAnn.expand g dist l b cur).Sound g dist ∧
      (DiskAnn.expand g dist l b cur).expanded = insert cur b.expanded ∧
      ∀ a ∈ insert cur b.expanded, ∀ x ∈ g.neighbors a,
        x ∈ (DiskAnn.expand g dist l b cur).visited := by
  have start : ({ b with expanded := insert cur b.expanded } : Beam n D).Sound g dist :=
    ⟨h.once, h.mem, h.entry, Finset.insert_subset inList h.inside⟩
  obtain ⟨sound, grown, here, expanded⟩ := start.foldl_visit (g.neighbors cur)
  generalize made :
    (g.neighbors cur).foldl (DiskAnn.visit dist) { b with expanded := insert cur b.expanded } = b'
    at sound grown here expanded
  have whole : DiskAnn.expand g dist l b cur = { b' with list := rank b'.list } := by
    have short : (rank b'.list).length ≤ max l 1 := by
      rw [(rank_perm _).length_eq, ← length_map (f := Prod.fst)]
      have few := sound.once.length_le_card
      rw [Fintype.card_fin] at few
      exact few.trans (wide.trans (Nat.le_max_left l 1))
    rw [DiskAnn.expand, made, take_of_length_le short]
  rw [whole]
  refine ⟨⟨?_, ?_, sound.entry, sound.inside⟩, expanded, ?_⟩
  · exact ((rank_perm b'.list).map Prod.fst).nodup_iff.mpr sound.once
  · intro i d
    exact (rank_perm b'.list).mem_iff.trans (sound.mem i d)
  · intro a member x edge
    rcases Finset.mem_insert.mp member with rfl | before
    · exact here x edge
    · exact grown (closed a before x edge)

/-- With room for all nodes the rounds end with every reachable node on the list. -/
theorem rounds_spec {g : Graph n} {dist : Fin n → D} {l fuel : Nat} {b : Beam n D} (h :
    b.Sound g dist)
    (wide : n ≤ l) (closed : ∀ a ∈ b.expanded, ∀ x ∈ g.neighbors a, x ∈ b.visited)
    (enough : n < fuel + b.expanded.card) :
    ∃ list, rounds g dist l fuel b = some list ∧ (list.map Prod.fst).Nodup ∧
      (∀ i d, (i, d) ∈ list → d = dist i) ∧
      ∀ i, g.Reaches g.entryPoint i → (i, dist i) ∈ list := by
  induction fuel generalizing b with
  | zero =>
    have few := Finset.card_le_univ b.expanded
    rw [Fintype.card_fin] at few
    omega
  | succ fuel ih =>
    rw [rounds]
    cases next : (b.list.filter fun c => c.1 ∉ b.expanded).argmin Prod.snd with
    | none =>
      refine ⟨b.list, rfl, h.once, fun i d member => ((h.mem i d).mp member).2, ?_⟩
      have done : b.list.filter (fun c => c.1 ∉ b.expanded) = [] := argmin_eq_none.mp next
      have all : b.visited ⊆ b.expanded := by
        intro i visited
        have listed := (h.mem i (dist i)).mpr ⟨visited, rfl⟩
        by_contra fresh
        have left : (i, dist i) ∈ b.list.filter fun c => c.1 ∉ b.expanded :=
          mem_filter.mpr ⟨listed, by simpa using fresh⟩
        rw [done] at left
        cases left
      intro i reaches
      have visited :=
        Graph.mem_of_closed h.entry (fun a inside x edge => closed a (all inside) x edge) reaches
      exact (h.mem i (dist i)).mpr ⟨visited, rfl⟩
    | some cur =>
      have chosen := mem_filter.mp (argmin_mem next)
      have fresh : cur.1 ∉ b.expanded := by simpa using chosen.2
      obtain ⟨sound, expanded, closed'⟩ :=
        h.expand wide ((h.mem cur.1 cur.2).mp chosen.1).1 closed
      refine ih sound (expanded ▸ closed') ?_
      rw [expanded, Finset.card_insert_of_notMem fresh]
      omega

/-- The search of a connected graph finds every node once. -/
theorem greedySearchBase_spec (connected : g.Connected) (dist : Fin n → D) {l : Nat} (wide :
    n ≤ l) :
    ∃ list, greedySearchBase g dist l = some list ∧
      list.Perm ((List.finRange n).map fun i => (i, dist i)) := by
  have start :
      (⟨[(g.entryPoint, dist g.entryPoint)], {g.entryPoint}, ∅⟩ : Beam n D).Sound g dist := by
    refine ⟨by simp, ?_, Finset.mem_singleton_self _, Finset.empty_subset _⟩
    intro i d
    simp only [mem_singleton, Prod.mk.injEq, Finset.mem_singleton]
    constructor
    · rintro ⟨rfl, rfl⟩
      exact ⟨rfl, rfl⟩
    · rintro ⟨rfl, rfl⟩
      exact ⟨rfl, rfl⟩
  obtain ⟨list, run, once, own, all⟩ := rounds_spec start wide
    (fun a member => absurd member (Finset.notMem_empty a)) (by simp : n < n + 1 + _)
  refine ⟨list, run, ?_⟩
  refine (perm_ext_iff_of_nodup once.of_map ?_).mpr ?_
  · exact (nodup_finRange n).map fun i j same => (Prod.mk.inj same).1
  · rintro ⟨i, d⟩
    simp only [mem_map, mem_finRange, true_and, Prod.mk.injEq, exists_eq_left]
    constructor
    · intro member
      exact (own i d member).symm
    · rintro rfl
      exact all i (connected i)

end Graphs

section Index

variable {V D : Type}

inductive Metric where
  | cosine
  | l2
  deriving DecidableEq

/-- Normalisation, which is idempotent, and the distance functions. -/
structure Space (V D : Type) where
  normalize : V → V
  cosineDistanceNormalized : V → V → D
  l2DistanceSquared : V → V → D
  normalize_normalize : ∀ v, normalize (normalize v) = normalize v

namespace Metric

variable (S : Space V D)

def distance : Metric → V → V → D
  | .cosine => S.cosineDistanceNormalized
  | .l2 => S.l2DistanceSquared

/-- Vectors are normalized for cosine only. -/
def prepare (metric : Metric) (v : V) : V := if metric = .cosine then S.normalize v else v

theorem prepare_prepare (metric : Metric) (v : V) :
    metric.prepare S (metric.prepare S v) = metric.prepare S v := by
  cases metric with
  | cosine => exact S.normalize_normalize v
  | l2 => rfl

end Metric

structure Config where
  metric : Metric
  lSearch : Nat

/-- The graph that is built over the vectors. -/
abbrev Vamana (V : Type) := (vectors : List V) → vectors ≠ [] → Graph vectors.length

abbrev Entry (V : Type) := UInt64 × V

structure DiskAnnIndex (V : Type) where
  externalIds : List UInt64
  vectors : List V
  graph : Graph vectors.length
  sized : externalIds.length = vectors.length
  delta : List (Entry V)
  tombstones : Finset UInt64

def build (S : Space V D) (vamana : Vamana V) (config : Config) (entries : List (Entry V)) :
    Option (DiskAnnIndex V) :=
  if empty : entries = [] then none
  else
    let vectors := entries.map fun e => config.metric.prepare S e.2
    some {
      externalIds := entries.map Prod.fst
      vectors := vectors
      graph := vamana vectors (by simpa [vectors] using empty)
      sized := by simp [vectors]
      delta := []
      tombstones := ∅ }

/-- By id, and for one id by distance. -/
def byId [LinearOrder D] (a b : UInt64 × D) : Prop := a.1 < b.1 ∨ (a.1 = b.1 ∧ a.2 ≤ b.2)

instance [LinearOrder D] (a b : UInt64 × D) : Decidable (byId a b) :=
  inferInstanceAs (Decidable (a.1 < b.1 ∨ (a.1 = b.1 ∧ a.2 ≤ b.2)))

namespace DiskAnnIndex

/-- Base points, less the tombstones among them, plus delta. -/
def len (s : DiskAnnIndex V) : Nat :=
  s.vectors.length + s.delta.length - (s.tombstones.filter fun t => t ∈ s.externalIds).card

def insert (S : Space V D) (config : Config) (s : DiskAnnIndex V) (externalId : UInt64)
    (vector : V) :
    DiskAnnIndex V :=
  { s with
    tombstones := s.tombstones.erase externalId
    delta :=
      (s.delta.filter fun d => d.1 ≠ externalId) ++ [(externalId, config.metric.prepare S vector)] }

def delete (s : DiskAnnIndex V) (externalId : UInt64) : DiskAnnIndex V :=
  { s with
    delta := s.delta.filter fun d => d.1 ≠ externalId
    tombstones := Insert.insert externalId s.tombstones }

/-- The points of the base with their external ids. -/
def base (s : DiskAnnIndex V) : List (Entry V) := s.externalIds.zip s.vectors

/-- The live points, those of the base first. Nothing when there are none left. -/
def consolidate (S : Space V D) (vamana : Vamana V) (config : Config) (s : DiskAnnIndex V) :
    Option (DiskAnnIndex V) :=
  let kept := s.base.filter fun p => p.1 ∉ s.tombstones ∧ ∀ d ∈ s.delta, d.1 ≠ p.1
  build S vamana config (kept ++ s.delta.filter fun d => d.1 ∉ s.tombstones)

variable [LinearOrder D]

def search (S : Space V D) (config : Config) (s : DiskAnnIndex V) (query : V) (k : Nat)
    (lSearch : Option Nat) : Option (List (UInt64 × D)) := do
  let q := config.metric.prepare S query
  let l := max (lSearch.getD config.lSearch) k
  let found ← greedySearchBase s.graph (fun i => config.metric.distance S q (s.vectors.get i)) l
  let named := found.map fun c => (s.externalIds.get (c.1.cast s.sized.symm), c.2)
  let base := named.filter fun c => c.1 ∉ s.tombstones
  let delta := (s.delta.filter fun d => d.1 ∉ s.tombstones).map fun d =>
    (d.1, config.metric.distance S q d.2)
  let out := ((base ++ delta).insertionSort byId).destutter fun a b => a.1 ≠ b.1
  return (rank out).take k

end DiskAnnIndex

inductive Op (V : Type) where
  | insert (externalId : UInt64) (vector : V)
  | delete (externalId : UInt64)
  | consolidate

/-- A consolidation that would empty the index leaves it as it is. -/
def step (S : Space V D) (vamana : Vamana V) (config : Config) (s : DiskAnnIndex V) :
    Op V → DiskAnnIndex V
  | .insert externalId vector => s.insert S config externalId vector
  | .delete externalId => s.delete externalId
  | .consolidate => (s.consolidate S vamana config).getD s

end Index

end GalaxDb.DiskAnn
