import GalaxDb.Lib.Run
import GalaxDb.Vector.DeltaBuffer

/-!
# Merging the delta buffer into the base graph

The base graph on disk and the buffer stand for one map from row ids to vectors, as long as no
row is inserted that either of them has already and no merge fails with something buffered.
-/

namespace GalaxDb.Ann

open Ranking WriteLog List

section Merge

variable {V D : Type}

/-- What the merge uses of vectors: the exact distance, and a normalisation that changes no
normalized vector. -/
structure Metric (V D : Type) where
  normalize : V → V
  cosineDistance : V → V → D
  normalize_normalize : ∀ v, normalize (normalize v) = normalize v

/-- The nodes of a graph file in their order. -/
abbrev Nodes (V : Type) := List (Entry V)

/-- The nodes that an insert marks as visited while it looks for the neighbors of a vector. -/
structure Walk (V : Type) where
  visits : Nodes V → V → List Nat
  inside : ∀ graph v, ∀ id ∈ visits graph v, id < graph.length

/-- The configuration, as far as it matters here, and how the graph is searched. -/
structure Merger (V D : Type) extends Metric V D, Walk V where
  maxElements : Nat

/-- The length of the list of visited nodes. -/
def Merger.visitable (M : Merger V D) : Nat := max M.maxElements 1000000

/-- `HnswGraph::insert` adds a node with the normalized vector. It panics when it visits a node
that the list has no place for. -/
def insertNode (M : Merger V D) (graph : Nodes V) (externalId : UInt64) (vector : V) :
    Option (Nodes V) :=
  if ∃ id ∈ M.visits graph (M.normalize vector), M.visitable ≤ id then none
  else some (graph ++ [(externalId, M.normalize vector)])

/-- The file that the last merge left, if there was one, and the buffer. -/
structure Index (V : Type) where
  base : Option (Nodes V)
  delta : DeltaBuffer V

/-- Whether the shadow file is written and takes the place of the old one. -/
inductive Outcome where
  | done
  | writeFails
  | renameFails
  deriving DecidableEq

def newGraph (M : Merger V D) (base : Option (Nodes V)) (deltaVectors : List (Entry V))
    (tombstones : Finset UInt64) : Option (Nodes V) := do
  let kept ← (base.getD []).foldlM (fun graph n =>
    if n.1 ∈ tombstones then some graph else insertNode M graph n.1 n.2) []
  deltaVectors.foldlM (fun graph e => insertNode M graph e.1 e.2) kept

/-- The node count, or nothing when the merge fails or panics, and what is left afterwards. -/
def mergeHnsw (M : Merger V D) (s : Index V) (outcome : Outcome) : Option Nat × Index V :=
  let ((deltaVectors, tombstones), delta) := s.delta.drain
  match newGraph M s.base deltaVectors tombstones, outcome with
  | some graph, .done => (some graph.length, ⟨some graph, delta⟩)
  | some _, .writeFails => (none, ⟨s.base, delta⟩)
  | some _, .renameFails => (none, ⟨s.base, delta⟩)
  | none, _ => (none, ⟨s.base, delta⟩)

inductive Op (V : Type) where
  | insert (rowId : UInt64) (vector : V)
  | delete (rowId : UInt64)
  | merge (outcome : Outcome)

def step (M : Merger V D) (s : Index V) : Op V → Option (Index V)
  | .insert rowId vector => some { s with delta := s.delta.insert rowId vector }
  | .delete rowId => some { s with delta := s.delta.delete rowId }
  | .merge outcome => some (mergeHnsw M s outcome).2

def Index.empty : Index V := ⟨none, DeltaBuffer.new⟩

/-- The nodes of a merge that does not panic. -/
def mergedNodes (M : Metric V D) (s : Index V) : Nodes V :=
  ((s.base.getD []).filter fun n => n.1 ∉ s.delta.tombstones).map
    (fun n => (n.1, M.normalize n.2)) ++
    s.delta.vectors.map fun e => (e.1, M.normalize e.2)

/-- Nodes are added until one that is visited has no place in the list, which needs more nodes
than it has places. -/
theorem foldlM_insertNode (M : Merger V D) (entries graph : Nodes V) :
    (∀ g, entries.foldlM (fun graph e => insertNode M graph e.1 e.2) graph = some g →
      g = graph ++ entries.map fun e => (e.1, M.normalize e.2)) ∧
      (graph.length + entries.length ≤ M.visitable + 1 →
        entries.foldlM (fun graph e => insertNode M graph e.1 e.2) graph =
          some (graph ++ entries.map fun e => (e.1, M.normalize e.2))) := by
  induction entries generalizing graph with
  | nil => simp
  | cons e entries ih =>
    obtain ⟨only, fits⟩ := ih (graph ++ [(e.1, M.normalize e.2)])
    rw [foldlM_cons, insertNode]
    constructor
    · intro g added
      split at added
      · cases added
      · rw [only g added]
        simp
    · intro room
      simp only [length_cons] at room
      rw [if_neg]
      · refine (fits (by simp; omega)).trans ?_
        simp
      · rintro ⟨id, visited, far⟩
        have inside := M.inside graph _ id visited
        omega

theorem newGraph_eq (M : Merger V D) (s : Index V) :
    newGraph M s.base s.delta.vectors s.delta.tombstones =
      (((s.base.getD []).filter fun n => n.1 ∉ s.delta.tombstones) ++ s.delta.vectors).foldlM
        (fun graph e => insertNode M graph e.1 e.2) [] := by
  rw [newGraph, foldlM_append, foldlM_filter]
  simp only [decide_eq_true_eq, ite_not]
  rfl

theorem newGraph_spec (M : Merger V D) (s : Index V) :
    (∀ file, newGraph M s.base s.delta.vectors s.delta.tombstones = some file →
      file = mergedNodes M.toMetric s) ∧
      ((mergedNodes M.toMetric s).length ≤ M.visitable + 1 →
        newGraph M s.base s.delta.vectors s.delta.tombstones =
          some (mergedNodes M.toMetric s)) := by
  have spec := foldlM_insertNode M
    (((s.base.getD []).filter fun n => n.1 ∉ s.delta.tombstones) ++ s.delta.vectors) []
  rw [newGraph_eq]
  simpa [mergedNodes] using spec

end Merge

section OneMap

variable {V D : Type}

/-- What the buffer and the base are to stand for. -/
def next (m : UInt64 → Option V) : Op V → UInt64 → Option V
  | .insert rowId vector => write m (rowId, some vector)
  | .delete rowId => write m (rowId, none)
  | .merge _ => m

/-- Each row id with its last inserted vector, unless deleted since. -/
def contents (ops : List (Op V)) : UInt64 → Option V := ops.foldl next fun _ => none

/-- The file has each row of the map once, with its vector normalized. -/
def HoldsOnce (M : Metric V D) (m : UInt64 → Option V) (file : Nodes V) : Prop :=
  (file.map Prod.fst).Nodup ∧ ∀ id w, (id, w) ∈ file ↔ ∃ v, m id = some v ∧ w = M.normalize v

/-- A search over all base nodes, with the distances that the base's search found, and all buffered
vectors. -/
def searchAll [LinearOrder D] (M : Metric V D) (s : Index V) (found : UInt64 → D) (query : V)
    (k : Nat) (fetchVector : UInt64 → Option V) : List (UInt64 × D) :=
  unionAndRerank M.cosineDistance ((s.base.getD []).map fun n => (n.1, found n.1))
    (s.delta.search M.cosineDistance query s.delta.vectors.length) s.delta.tombstones query k
    fetchVector

/-- The callback fetches the vector of the map if any; where it has none, the distance that the
base's search found is that of the vector. -/
def Fetches (M : Metric V D) (m : UInt64 → Option V) (query : V) (found : UInt64 → D)
    (fetchVector : UInt64 → Option V) : Prop :=
  ∀ id v, m id = some v →
    fetchVector id = some v ∨ fetchVector id = none ∧ found id = M.cosineDistance query v

/-- A search ranks the rows of the map by the distance of their vectors, and a merge that does not
panic writes them to the file. -/
def Right [LinearOrder D] (M : Merger V D) (s : Index V) (m : UInt64 → Option V) : Prop :=
  (∀ query found fetchVector, Fetches M.toMetric m query found fetchVector →
    ∃ l, Ranks (fun id => (m id).map (M.cosineDistance query)) l ∧
      ∀ k, searchAll M.toMetric s found query k fetchVector = l.take k) ∧
  ∀ file, newGraph M s.base s.delta.vectors s.delta.tombstones = some file →
    HoldsOnce M.toMetric m file

/-- The rows that a merge writes: of the base without the deleted ones, and of the buffer. -/
def rowCount (s : Index V) : Nat :=
  ((s.base.getD []).filter fun n => n.1 ∉ s.delta.tombstones).length + s.delta.vectors.length

/-- No row is inserted that the base or the buffer has, deleted or not, and a merge succeeds on
rows that an insert can visit, or had nothing to do. -/
def Fit (M : Merger V D) (s : Index V) : Op V → Prop
  | .insert rowId _ => rowId ∉ (s.base.getD []).map Prod.fst ∧ rowId ∉ s.delta.vectors.map Prod.fst
  | .delete _ => True
  | .merge outcome => outcome = .done ∧ rowCount s ≤ M.visitable + 1 ∨
      s.delta.vectors = [] ∧ ∀ n ∈ s.base.getD [], n.1 ∉ s.delta.tombstones

instance (M : Merger V D) (s : Index V) : (op : Op V) → Decidable (Fit M s op)
  | .insert rowId _ => inferInstanceAs
      (Decidable (rowId ∉ (s.base.getD []).map Prod.fst ∧ rowId ∉ s.delta.vectors.map Prod.fst))
  | .delete _ => isTrue trivial
  | .merge outcome => decidable_of_iff
      (outcome = .done ∧ rowCount s ≤ M.visitable + 1 ∨ s.delta.vectors.length = 0 ∧
        ∀ n ∈ s.base.getD [], n.1 ∉ s.delta.tombstones) (by rw [Fit, length_eq_zero_iff])

/-- Base and buffer share no row, and have those of the map. -/
structure Represents (M : Metric V D) (s : Index V) (m : UInt64 → Option V) : Prop where
  once : (((s.base.getD []).filter fun n => n.1 ∉ s.delta.tombstones).map Prod.fst ++
    s.delta.vectors.map Prod.fst).Nodup
  base : ∀ n ∈ s.base.getD [], n.1 ∉ s.delta.tombstones → ∃ v, m n.1 = some v ∧ n.2 = M.normalize v
  buffered : ∀ e ∈ s.delta.vectors, m e.1 = some e.2
  live : ∀ e ∈ s.delta.vectors, e.1 ∉ s.delta.tombstones
  all : ∀ id v, m id = some v → (id, v) ∈ s.delta.vectors ∨
    id ∉ s.delta.tombstones ∧ ∃ n ∈ s.base.getD [], n.1 = id

theorem represents_empty (M : Metric V D) : Represents M Index.empty fun _ => none where
  once := nodup_nil
  base n member := by cases member
  buffered e member := by cases member
  live e member := by cases member
  all id v eq := by cases eq

variable {m : UInt64 → Option V} {M : Metric V D} {s : Index V}

theorem Represents.holdsOnce (h : Represents M s m) : HoldsOnce M m (mergedNodes M s) := by
  rw [mergedNodes]
  refine ⟨?_, ?_⟩
  · simpa [map_map, Function.comp_def] using h.once
  · intro id w
    simp only [mem_append, mem_map, mem_filter, decide_eq_true_eq, Prod.mk.injEq]
    constructor
    · rintro (⟨n, ⟨inBase, live⟩, rfl, rfl⟩ | ⟨e, inBuffer, rfl, rfl⟩)
      · obtain ⟨v, eq, normal⟩ := h.base n inBase live
        exact ⟨v, eq, by rw [normal, M.normalize_normalize]⟩
      · exact ⟨e.2, h.buffered e inBuffer, rfl⟩
    · rintro ⟨v, eq, rfl⟩
      rcases h.all id v eq with inBuffer | ⟨live, n, inBase, rfl⟩
      · exact .inr ⟨(id, v), inBuffer, rfl, rfl⟩
      · obtain ⟨v', eq', normal⟩ := h.base n inBase live
        obtain rfl : v = v' := Option.some.inj (eq.symm.trans eq')
        exact .inl ⟨n, ⟨inBase, live⟩, rfl, by rw [normal, M.normalize_normalize]⟩

/-- An insertion under a new row id writes the map. -/
theorem Represents.insert (h : Represents M s m) {rowId : UInt64} (vector : V)
    (fit : rowId ∉ (s.base.getD []).map Prod.fst ∧ rowId ∉ s.delta.vectors.map Prod.fst) :
    Represents M { s with delta := s.delta.insert rowId vector }
      (write m (rowId, some vector)) := by
  have notBase : ∀ n ∈ s.base.getD [], n.1 ≠ rowId := fun n member same =>
    fit.1 (same ▸ mem_map_of_mem member)
  have notBuffered : ∀ e ∈ s.delta.vectors, e.1 ≠ rowId := fun e member same =>
    fit.2 (same ▸ mem_map_of_mem member)
  have sameBase : (s.base.getD []).filter (fun n => n.1 ∉ s.delta.tombstones.erase rowId) =
      (s.base.getD []).filter fun n => n.1 ∉ s.delta.tombstones := by
    refine filter_congr fun n member => ?_
    simp [notBase n member]
  refine ⟨?_, ?_, ?_, ?_, ?_⟩
  · simp only [DeltaBuffer.insert, map_append, map_cons, map_nil]
    rw [← append_assoc]
    have before := h.once
    rw [← sameBase] at before
    refine nodup_append.mpr ⟨before, by simp, ?_⟩
    intro a front b last
    obtain rfl := mem_singleton.mp last
    rintro rfl
    rcases mem_append.mp front with inBase | inBuffer
    · obtain ⟨n, member, same⟩ := mem_map.mp inBase
      exact notBase n (mem_of_mem_filter member) same
    · exact fit.2 inBuffer
  · intro n member live
    have other := notBase n member
    rw [write_other _ _ other]
    exact h.base n member fun deleted => live (Finset.mem_erase.mpr ⟨other, deleted⟩)
  · intro e member
    rcases mem_append.mp member with before | last
    · rw [write_other _ _ (notBuffered e before)]
      exact h.buffered e before
    · obtain rfl := mem_singleton.mp last
      exact write_self m rowId (some vector)
  · intro e member deleted
    obtain ⟨other, deleted⟩ := Finset.mem_erase.mp deleted
    rcases mem_append.mp member with before | last
    · exact h.live e before deleted
    · obtain rfl := mem_singleton.mp last
      exact other rfl
  · intro id v eq
    by_cases same : id = rowId
    · subst same
      rw [write_self] at eq
      cases eq
      exact .inl (mem_append_right _ (mem_singleton_self _))
    · rw [write_other _ _ same] at eq
      rcases h.all id v eq with inBuffer | ⟨live, inBase⟩
      · exact .inl (mem_append_left _ inBuffer)
      · exact .inr ⟨fun deleted => live (Finset.mem_of_mem_erase deleted), inBase⟩

/-- A deletion erases its row id from the map. -/
theorem Represents.delete (h : Represents M s m) (rowId : UInt64) :
    Represents M { s with delta := s.delta.delete rowId } (write m (rowId, none)) := by
  have kept : ∀ e ∈ (s.delta.delete rowId).vectors, e ∈ s.delta.vectors ∧ e.1 ≠ rowId := by
    intro e member
    simpa [DeltaBuffer.delete] using member
  have untouched : ∀ id, id ∉ (s.delta.delete rowId).tombstones →
      id ≠ rowId ∧ id ∉ s.delta.tombstones := by
    intro id live
    simpa [DeltaBuffer.delete] using live
  refine ⟨?_, ?_, ?_, ?_, ?_⟩
  · refine h.once.sublist (List.Sublist.append ?_ ?_)
    · refine List.Sublist.map _ (monotone_filter_right _ fun n live => ?_)
      simpa using (untouched n.1 (by simpa using live)).2
    · exact List.Sublist.map _ filter_sublist
  · intro n member live
    obtain ⟨other, live⟩ := untouched n.1 live
    rw [write_other _ _ other]
    exact h.base n member live
  · intro e member
    obtain ⟨before, other⟩ := kept e member
    rw [write_other _ _ other]
    exact h.buffered e before
  · intro e member deleted
    obtain ⟨before, other⟩ := kept e member
    rcases Finset.mem_insert.mp deleted with same | deleted
    · exact other same
    · exact h.live e before deleted
  · intro id v eq
    by_cases same : id = rowId
    · subst same
      rw [write_self] at eq
      cases eq
    · rw [write_other _ _ same] at eq
      rcases h.all id v eq with inBuffer | ⟨live, inBase⟩
      · exact .inl (mem_filter.mpr ⟨inBuffer, by simpa using same⟩)
      · exact .inr ⟨by simp [DeltaBuffer.delete, same, live], inBase⟩

/-- The new file stands for what base and buffer stood for. -/
theorem Represents.merged (h : Represents M s m) :
    Represents M ⟨some (mergedNodes M s), DeltaBuffer.new⟩ m := by
  obtain ⟨once, mem⟩ := h.holdsOnce
  refine ⟨?_, ?_, ?_, ?_, ?_⟩
  · simpa [DeltaBuffer.new] using once
  · exact fun n member _ => (mem n.1 n.2).mp member
  · exact fun e member => by cases member
  · exact fun e member => by cases member
  · intro id v eq
    exact .inr ⟨Finset.notMem_empty id, (id, M.normalize v), (mem id _).mpr ⟨v, eq, rfl⟩, rfl⟩

/-- A failed merge loses nothing when there was nothing to merge. -/
theorem Represents.failed (h : Represents M s m) (idle : s.delta.vectors = [])
    (harmless : ∀ n ∈ s.base.getD [], n.1 ∉ s.delta.tombstones) :
    Represents M ⟨s.base, DeltaBuffer.new⟩ m := by
  refine ⟨?_, ?_, ?_, ?_, ?_⟩
  · have once := h.once
    have whole : (s.base.getD []).filter (fun n => n.1 ∉ s.delta.tombstones) = s.base.getD [] :=
      filter_eq_self.mpr fun n member => by simpa using harmless n member
    rw [idle, whole] at once
    simpa [DeltaBuffer.new] using once
  · exact fun n member _ => h.base n member (harmless n member)
  · exact fun e member => by cases member
  · exact fun e member => by cases member
  · intro id v eq
    rcases h.all id v eq with inBuffer | ⟨-, inBase⟩
    · rw [idle] at inBuffer
      cases inBuffer
    · exact .inr ⟨Finset.notMem_empty id, inBase⟩

theorem length_mergedNodes : (mergedNodes M s).length = rowCount s := by
  simp [mergedNodes, rowCount]

/-- A merge of rows that an insert can visit writes them. -/
theorem mergeHnsw_done {M : Merger V D} (room : rowCount s ≤ M.visitable + 1) :
    mergeHnsw M s .done =
      (some (rowCount s), ⟨some (mergedNodes M.toMetric s), DeltaBuffer.new⟩) := by
  have length := @length_mergedNodes V D M.toMetric s
  have graph := (newGraph_spec M s).2 (by omega)
  simp only [mergeHnsw, DeltaBuffer.drain, graph, length]

/-- A merge leaves its new file or the old one, and the empty buffer. -/
theorem mergeHnsw_cases {M : Merger V D} (outcome : Outcome) :
    (mergeHnsw M s outcome).2 = ⟨some (mergedNodes M.toMetric s), DeltaBuffer.new⟩ ∨
      (mergeHnsw M s outcome).2 = ⟨s.base, DeltaBuffer.new⟩ := by
  simp only [mergeHnsw, DeltaBuffer.drain]
  cases graph : newGraph M s.base s.delta.vectors s.delta.tombstones with
  | none => exact .inr rfl
  | some file =>
    rw [(newGraph_spec M s).1 file graph]
    cases outcome
    · exact .inl rfl
    · exact .inr rfl
    · exact .inr rfl

theorem Represents.step {M : Merger V D} {s s' : Index V} {m : UInt64 → Option V} {op : Op V}
    (h : Represents M.toMetric s m) (fit : Fit M s op) (eq : Ann.step M s op = some s') :
    Represents M.toMetric s' (next m op) := by
  cases op with
  | insert rowId vector =>
    cases eq
    exact h.insert vector fit
  | delete rowId =>
    cases eq
    exact h.delete rowId
  | merge outcome =>
    cases eq
    rcases fit with ⟨rfl, room⟩ | ⟨idle, harmless⟩
    · rw [mergeHnsw_done room]
      exact h.merged
    · rcases @mergeHnsw_cases V D s M outcome with merged | failed
      · rw [merged]
        exact h.merged
      · rw [failed]
        exact h.failed idle harmless

variable {fetchVector : UInt64 → Option V} {found : UInt64 → D} {query : V}

theorem Fetches.rerank_eq (fetches : Fetches M m query found fetchVector) {id : UInt64} {v : V}
    (eq : m id = some v) :
    rerank M.cosineDistance query fetchVector (id, found id) = M.cosineDistance query v := by
  rcases fetches id v eq with fetched | ⟨missing, same⟩
  · simp [rerank, fetched]
  · simp [rerank, missing, same]

variable [LinearOrder D]

/-- The base nodes that are not deleted come first, then the buffered vectors. -/
theorem Represents.searchAll_eq (h : Represents M s m) (k : Nat) :
    searchAll M s found query k fetchVector = (rank
      (((s.base.getD []).filter fun n => n.1 ∉ s.delta.tombstones).map
        (fun n => (n.1, rerank M.cosineDistance query fetchVector (n.1, found n.1))) ++
      rank (s.delta.vectors.map fun e => (e.1, M.cosineDistance query e.2)))).take k := by
  have buffered : s.delta.search M.cosineDistance query s.delta.vectors.length =
      rank (s.delta.vectors.map fun e => (e.1, M.cosineDistance query e.2)) := by
    have whole : s.delta.vectors.filter (fun e => e.1 ∉ s.delta.tombstones) = s.delta.vectors :=
      filter_eq_self.mpr fun e member => by simpa using h.live e member
    rw [DeltaBuffer.search, whole]
    refine take_of_length_le ?_
    rw [(rank_perm _).length_eq, length_map]
  have idsBuffered : ((rank (s.delta.vectors.map fun e => (e.1, M.cosineDistance query e.2))).map
      Prod.fst).Perm (s.delta.vectors.map Prod.fst) := by
    have perm :=
      (rank_perm (s.delta.vectors.map fun e => (e.1, M.cosineDistance query e.2))).map Prod.fst
    rwa [map_map, Function.comp_def] at perm
  have onceBase := (nodup_append.mp h.once).1
  have base : ((s.base.getD []).map fun n => (n.1, found n.1)).foldl
        (consider s.delta.tombstones (rerank M.cosineDistance query fetchVector)) [] =
      ((s.base.getD []).filter fun n => n.1 ∉ s.delta.tombstones).map
        fun n => (n.1, rerank M.cosineDistance query fetchVector (n.1, found n.1)) := by
    rw [foldl_consider]
    · rw [nil_append, filter_map, map_map]
      rfl
    · rw [nil_append, filter_map, map_map]
      exact onceBase
  have delta : ∀ all : List (UInt64 × D), (all.map Prod.fst ++ s.delta.vectors.map Prod.fst).Nodup →
      (rank (s.delta.vectors.map fun e => (e.1, M.cosineDistance query e.2))).foldl
        (consider s.delta.tombstones Prod.snd) all =
      all ++ rank (s.delta.vectors.map fun e => (e.1, M.cosineDistance query e.2)) := by
    intro all once
    have whole : (rank (s.delta.vectors.map fun e => (e.1, M.cosineDistance query e.2))).filter
        (fun c => c.1 ∉ s.delta.tombstones) =
        rank (s.delta.vectors.map fun e => (e.1, M.cosineDistance query e.2)) := by
      refine filter_eq_self.mpr fun c member => ?_
      obtain ⟨e, inBuffer, rfl⟩ := mem_map.mp ((rank_perm _).mem_iff.mp member)
      simpa using h.live e inBuffer
    rw [foldl_consider]
    · rw [whole]
      simp
    · rw [whole, map_append]
      exact (idsBuffered.append_left _).nodup_iff.mpr once
  rw [searchAll, unionAndRerank, buffered, base, delta]
  rw [map_map]
  exact h.once

theorem Represents.right {M : Merger V D} (h : Represents M.toMetric s m) : Right M s m := by
  refine ⟨?_, fun file graph => (newGraph_spec M s).1 file graph ▸ h.holdsOnce⟩
  intro query found fetchVector fetches
  refine ⟨_, ?_, h.searchAll_eq⟩
  refine ranks_rank ?_ ?_
  · rw [map_append, map_map]
    have perm :=
      (rank_perm (s.delta.vectors.map fun e => (e.1, M.cosineDistance query e.2))).map Prod.fst
    rw [map_map] at perm
    exact (perm.append_left _).nodup_iff.mpr h.once
  · intro id d
    rw [mem_append, (rank_perm _).mem_iff, Option.map_eq_some_iff]
    simp only [mem_map, mem_filter, decide_eq_true_eq, Prod.mk.injEq]
    constructor
    · rintro (⟨n, ⟨inBase, live⟩, rfl, rfl⟩ | ⟨e, inBuffer, rfl, rfl⟩)
      · obtain ⟨v, eq, normal⟩ := h.base n inBase live
        exact ⟨v, eq, (fetches.rerank_eq eq).symm⟩
      · exact ⟨e.2, h.buffered e inBuffer, rfl⟩
    · rintro ⟨v, eq, rfl⟩
      rcases h.all id v eq with inBuffer | ⟨live, n, inBase, rfl⟩
      · exact .inr ⟨(id, v), inBuffer, rfl, rfl⟩
      · exact .inl ⟨n, ⟨inBase, live⟩, rfl, fetches.rerank_eq eq⟩

/-- Numbers in place of vectors; every insert visits all nodes. -/
def sampleMerger : Merger Nat Nat where
  normalize v := v
  cosineDistance q v := (q - v) + (v - q)
  normalize_normalize _ := rfl
  visits graph _ := List.range graph.length
  inside _ _ _ visited := mem_range.mp visited
  maxElements := 1000

end OneMap

end GalaxDb.Ann
