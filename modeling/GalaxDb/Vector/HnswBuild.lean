import GalaxDb.Lib.Run
import GalaxDb.Vector.HnswEdges

/-!
# Parallel inserts

Any number of inserts take their steps in any order. Two orders spoil the graph: another insert
raises the entry point between an insert's reads of the entry point and of the maximum layer, or it
links the node on a lower layer before the node's own insert searches that layer.
-/

namespace GalaxDb.Hnsw

open Ranking List Option Function

section Beams

variable {D : Type} [LinearOrder D] {c : Config} {g : Graph} {dist : Nat → D} {P : Nat → Prop}

/-- At least one node, each once and at its distance. -/
structure Found (dist : Nat → D) (P : Nat → Prop) (l : List (Candidate D)) : Prop where
  nonempty : l ≠ []
  once : (l.map Prod.fst).Nodup
  known : ∀ x ∈ l, x.2 = dist x.1 ∧ P x.1

structure Beam.Sound (dist : Nat → D) (P : Nat → Prop) (b : Beam D) : Prop where
  candidates : ∀ x ∈ b.candidates, x.2 = dist x.1 ∧ P x.1
  results : Found dist P b.results
  marked : ∀ x ∈ b.results, x.1 ∈ b.visited
  visited : ∀ id ∈ b.visited, P id

variable {l : List (Candidate D)} {b : Beam D}

omit [LinearOrder D] in
theorem Found.mono {Q : Nat → Prop} (h : Found dist P l) (weaker : ∀ id, P id → Q id) :
    Found dist Q l :=
  ⟨h.nonempty, h.once, fun x member => ⟨(h.known x member).1, weaker _ (h.known x member).2⟩⟩

omit [LinearOrder D] in
theorem Beam.Sound.mono {Q : Nat → Prop} (h : b.Sound dist P) (weaker : ∀ id, P id → Q id) :
    b.Sound dist Q :=
  ⟨fun x member => ⟨(h.candidates x member).1, weaker _ (h.candidates x member).2⟩,
    h.results.mono weaker, h.marked, fun id member => weaker id (h.visited id member)⟩

omit [LinearOrder D] in
theorem Found.perm {l' : List (Candidate D)} (h : Found dist P l) (perm : l'.Perm l) :
    Found dist P l' where
  nonempty empty := h.nonempty (List.Perm.eq_nil (empty ▸ perm.symm))
  once := (perm.map Prod.fst).nodup_iff.mpr h.once
  known x member := h.known x (perm.mem_iff.mp member)

omit [LinearOrder D] in
theorem Found.start (h : Found dist P l) (room : ∀ id, P id → id < c.visitedSize) :
    ∃ b, Beam.start c l = some b ∧ b.Sound dist P ∧ b.candidates = l ∧
      b.visited.card = l.length := by
  have marked : ∀ x ∈ l, x.1 < c.visitedSize := fun x member => room _ (h.known x member).2
  refine ⟨_, if_pos marked, ⟨h.known, h, ?_, ?_⟩, rfl, ?_⟩
  · exact fun x member => mem_toFinset.mpr (mem_map_of_mem member)
  · intro id member
    obtain ⟨x, there, rfl⟩ := mem_map.mp (mem_toFinset.mp member)
    exact (h.known x there).2
  · rw [toFinset_card_of_nodup h.once, length_map]

theorem argmax_of_ne_nil (nonempty : l ≠ []) : ∃ x ∈ l, l.argmax Prod.snd = some x := by
  cases eq : l.argmax Prod.snd with
  | none => exact absurd (argmax_eq_none.mp eq) nonempty
  | some x => exact ⟨x, argmax_mem eq, rfl⟩

theorem Beam.Sound.next (h : b.Sound dist P) (ef : Nat) :
    ∃ o, b.next ef = some o ∧ ∀ x, o = some x → x ∈ b.candidates := by
  obtain ⟨farthest, -, eq⟩ := argmax_of_ne_nil h.results.nonempty
  unfold Beam.next
  cases near : b.candidates.argmin Prod.snd with
  | none => exact ⟨none, rfl, nofun⟩
  | some cand =>
    rw [eq]
    refine ⟨_, rfl, ?_⟩
    intro x taken
    simp only at taken
    split_ifs at taken
    cases taken
    exact argmin_mem near

theorem evict_sublist (l : List (Candidate D)) : (evict l).Sublist l := by
  unfold evict
  split
  · exact List.Sublist.refl _
  · exact erase_sublist

theorem length_evict (l : List (Candidate D)) : l.length ≤ (evict l).length + 1 := by
  unfold evict
  split
  · exact Nat.le_succ _
  · rename_i farthest eq
    rw [length_erase_of_mem (argmax_mem eq)]
    omega

/-- A visit keeps to allowed nodes. It takes no more candidates than it marks nodes. -/
theorem Beam.Sound.visit (h : b.Sound dist P)
    (room : ∀ id, P id → id < g.nodeMaxLayers.length ∧ id < c.visitedSize) (ef : Nat) {nb : Nat}
    (known : P nb) : ∃ b', b.visit c g dist ef nb = some b' ∧ b'.Sound dist P ∧
      b'.candidates.length + b.visited.card ≤ b.candidates.length + b'.visited.card := by
  unfold Beam.visit
  rw [if_pos (room nb known).2]
  by_cases seen : nb ∈ b.visited
  · rw [if_pos seen]
    exact ⟨b, rfl, h, le_rfl⟩
  obtain ⟨farthest, -, eq⟩ := argmax_of_ne_nil h.results.nonempty
  rw [if_neg seen, Graph.measure, if_pos (room nb known).1, eq]
  simp only [bind_eq_bind, bind_some]
  have allowed : ∀ id ∈ insert nb b.visited, P id := by
    intro id member
    rcases Finset.mem_insert.mp member with rfl | before
    · exact known
    · exact h.visited id before
  have grown : Found dist P (b.results ++ [(nb, dist nb)]) := by
    refine ⟨by simp, ?_, ?_⟩
    · rw [map_append]
      refine nodup_append.mpr ⟨h.results.once, by simp, ?_⟩
      rintro id before _ new rfl
      obtain ⟨x, member, rfl⟩ := mem_map.mp before
      obtain same : x.1 = nb := by simpa using new
      exact seen (same ▸ h.marked x member)
    · intro x member
      rcases mem_append.mp member with before | new
      · exact h.results.known x before
      · obtain rfl := mem_singleton.mp new
        exact ⟨rfl, known⟩
  have marked : ∀ x ∈ b.results ++ [(nb, dist nb)], x.1 ∈ insert nb b.visited := by
    intro x member
    rcases mem_append.mp member with before | new
    · exact Finset.mem_insert_of_mem (h.marked x before)
    · obtain rfl := mem_singleton.mp new
      exact Finset.mem_insert_self _ _
  have more : (insert nb b.visited).card = b.visited.card + 1 := Finset.card_insert_of_notMem seen
  split_ifs with near full
  · refine ⟨_, rfl, ⟨?_, ⟨?_, ?_, ?_⟩, ?_, allowed⟩, ?_⟩
    · intro x member
      rcases mem_append.mp member with before | new
      · exact h.candidates x before
      · obtain rfl := mem_singleton.mp new
        exact ⟨rfl, known⟩
    · intro empty
      have some := length_pos_iff.mpr h.results.nonempty
      have kept := length_evict (b.results ++ [(nb, dist nb)])
      simp only at empty
      rw [empty, length_append, length_singleton, length_nil] at kept
      omega
    · exact grown.once.sublist ((evict_sublist _).map _)
    · exact fun x member => grown.known x ((evict_sublist _).subset member)
    · exact fun x member => marked x ((evict_sublist _).subset member)
    · simp only [length_append, length_singleton]
      omega
  · refine ⟨_, rfl, ⟨?_, grown, marked, allowed⟩, ?_⟩
    · intro x member
      rcases mem_append.mp member with before | new
      · exact h.candidates x before
      · obtain rfl := mem_singleton.mp new
        exact ⟨rfl, known⟩
    · simp only [length_append, length_singleton]
      omega
  · refine ⟨_, rfl, ⟨h.candidates, h.results, ?_, allowed⟩, ?_⟩
    · exact fun x member => Finset.mem_insert_of_mem (h.marked x member)
    · simp only
      omega

theorem Beam.Sound.foldlM_visit (h : b.Sound dist P)
    (room : ∀ id, P id → id < g.nodeMaxLayers.length ∧ id < c.visitedSize) (ef : Nat)
    {nbs : List Nat} (known : ∀ nb ∈ nbs, P nb) :
    ∃ b', nbs.foldlM (Beam.visit c g dist ef) b = some b' ∧ b'.Sound dist P ∧
      b'.candidates.length + b.visited.card ≤ b.candidates.length + b'.visited.card := by
  induction nbs generalizing b with
  | nil => exact ⟨b, rfl, h, le_rfl⟩
  | cons nb nbs ih =>
    obtain ⟨b1, visit, sound, few⟩ := h.visit room ef (known nb mem_cons_self)
    obtain ⟨b2, rest, sound', few'⟩ := ih sound fun nb member => known nb (mem_cons_of_mem _ member)
    refine ⟨b2, ?_, sound', by omega⟩
    rw [foldlM_cons, visit]
    exact rest

theorem Beam.Sound.expand (h : b.Sound dist P) (shaped : Shaped g)
    (room : ∀ id, P id → id < g.nodeMaxLayers.length ∧ id < c.visitedSize) (ef : Nat) {layer : Nat}
    {cand : Candidate D} (taken : cand ∈ b.candidates)
    (known : ∀ nb ∈ g.neighbors cand.1 layer, P nb) :
    ∃ b', b.expand c g dist ef layer cand = some b' ∧ b'.Sound dist P ∧
      b'.candidates.length + 1 + b.visited.card ≤ b.candidates.length + b'.visited.card := by
  have inside := (room cand.1 (h.candidates cand taken).2).1
  have less : ({ b with candidates := b.candidates.erase cand } : Beam D).Sound dist P :=
    ⟨fun x member => h.candidates x (mem_of_mem_erase member), h.results, h.marked, h.visited⟩
  obtain ⟨b', visits, sound, few⟩ := less.foldlM_visit room ef known
  refine ⟨b', ?_, sound, ?_⟩
  · rw [Beam.expand, shaped.getNeighbors inside]
    exact visits
  · have size := length_erase_of_mem taken
    have some := length_pos_of_mem taken
    simp only at few
    omega

/-- What is found is the node itself or one of its neighbors. -/
theorem nearest_spec (shaped : Shaped g) {layer : Nat} {curr : Candidate D}
    (inside : curr.1 < g.nodeMaxLayers.length) (own : curr.2 = dist curr.1)
    (known : ∀ nb ∈ g.neighbors curr.1 layer, nb < g.nodeMaxLayers.length) :
    ∃ found, nearest g dist layer curr = some found ∧ found.2 = dist found.1 ∧
      (found = curr ∨ found.1 ∈ g.neighbors curr.1 layer) := by
  rw [nearest, shaped.getNeighbors inside, bind_eq_bind, bind_some,
    Graph.mapM_measure known]
  refine ⟨_, rfl, ?_⟩
  induction g.neighbors curr.1 layer using List.reverseRecOn with
  | nil => exact ⟨own, .inl rfl⟩
  | append_singleton before nb ih =>
    rw [map_append, foldl_append]
    simp only [map_cons, map_nil, foldl_cons, foldl_nil]
    split_ifs with nearer
    · exact ⟨rfl, .inr (by simp)⟩
    · exact ⟨ih.1, ih.2.imp_right fun member => mem_append_left _ member⟩

end Beams

section Inserts

variable {D : Type} {c : Config} {dist : Nat → Nat → D} {g g' : Graph}

/-- Another node that has the layer. -/
def Graph.Other (g : Graph) (id layer nb : Nat) : Prop := nb ≠ id ∧ g.HasLayer nb layer

/-- Nodes are added, and the maximum layer does not fall. -/
structure Grows (g g' : Graph) : Prop where
  nodes : g.nodeMaxLayers.length ≤ g'.nodeMaxLayers.length
  layerOf : ∀ id < g.nodeMaxLayers.length, g'.layerOf id = g.layerOf id
  maxLayer : g.maxLayer ≤ g'.maxLayer

theorem Grows.refl (g : Graph) : Grows g g := ⟨le_rfl, fun _ _ => rfl, le_rfl⟩

theorem Rewired.grows (h : Rewired g g') : Grows g g' where
  nodes := by rw [h.layers]
  layerOf id _ := by rw [Graph.layerOf, Graph.layerOf, h.layers]
  maxLayer := by rw [h.maxLayer]

variable {id layer : Nat} {next : Insert D}

theorem Grows.hasLayer (h : Grows g g') (known : g.HasLayer id layer) : g'.HasLayer id layer :=
  ⟨known.1.trans_le h.nodes, by rw [h.layerOf id known.1]; exact known.2⟩

theorem Grows.other (h : Grows g g') {nb : Nat} (known : g.Other id layer nb) :
    g'.Other id layer nb := ⟨known.1, h.hasLayer known.2⟩

/-- What an insert holds in its local variables. -/
def Insert.Sound (dist : Nat → Nat → D) (g : Graph) (id : Nat) : Insert D → Prop
  | .idle | .readEntryPoint | .updateEntryPoint _ | .done => True
  | .loadMaxLayer currEp => ∀ ep, currEp = some ep → g.Other id 0 ep
  | .firstNode maxLayer => maxLayer ≤ g.maxLayer
  | .descend maxLayer layer curr =>
    curr.2 = dist id curr.1 ∧ g.Other id (min maxLayer (g.layerOf id)) curr.1 ∧ g.layerOf id < layer
  | .search _ layer beam => layer ≤ g.layerOf id ∧ beam.Sound (dist id) (g.Other id layer)
  | .setNeighbors _ layer best => layer ≤ g.layerOf id ∧ Found (dist id) (g.Other id layer) best
  | .addEdges _ layer best nbs => layer ≤ g.layerOf id ∧ Found (dist id) (g.Other id layer) best ∧
    ∀ nb ∈ nbs, g.Other id layer nb

theorem Insert.Sound.grows (inside : id < g.nodeMaxLayers.length) (grows : Grows g g') :
    {i : Insert D} → i.Sound dist g id → i.Sound dist g' id
  | .idle, _ | .readEntryPoint, _ | .updateEntryPoint _, _ | .done, _ => trivial
  | .loadMaxLayer _, h => fun ep read => grows.other (h ep read)
  | .firstNode _, h => h.trans grows.maxLayer
  | .descend .., ⟨own, known, above⟩ => by
    rw [← grows.layerOf id inside] at known above
    exact ⟨own, grows.other known, above⟩
  | .search .., ⟨below, beam⟩ =>
    ⟨(grows.layerOf id inside).symm ▸ below, beam.mono fun _ => grows.other⟩
  | .setNeighbors .., ⟨below, best⟩ =>
    ⟨(grows.layerOf id inside).symm ▸ below, best.mono fun _ => grows.other⟩
  | .addEdges .., ⟨below, best, nbs⟩ =>
    ⟨(grows.layerOf id inside).symm ▸ below, best.mono fun _ => grows.other,
      fun nb member => grows.other (nbs nb member)⟩

/-- How an insert may leave the graph to the other inserts. -/
structure Stepped (c : Config) (dist : Nat → Nat → D) (g : Graph) (id : Nat) (g' : Graph)
    (next : Insert D) : Prop where
  graph : Sound c g'
  grows : Grows g g'
  nodes : g'.nodeMaxLayers.length = g.nodeMaxLayers.length
  insert : next.Sound dist g' id
  entry : g'.entryPoint = g.entryPoint ∨ g'.entryPoint = some id ∧ next = .done

theorem Sound.stay (h : Sound c g) (insert : next.Sound dist g id) : Stepped c dist g id g next :=
  ⟨h, Grows.refl g, rfl, insert, .inl rfl⟩

theorem Sound.rewire (h : Sound c g') (rewired : Rewired g g') (insert : next.Sound dist g' id) :
    Stepped c dist g id g' next :=
  ⟨h, rewired.grows, by rw [rewired.layers], insert, .inl rewired.entryPoint⟩

/-- The node becomes the entry point of its own layer. -/
theorem Sound.raise (h : Sound c g) (inside : id < g.nodeMaxLayers.length)
    (higher : g.maxLayer ≤ g.layerOf id) :
    Stepped c dist g id { g with entryPoint := some id, maxLayer := g.layerOf id } .done where
  graph :=
    { shaped := ⟨h.shaped.lower, h.shaped.upper⟩
      lists := fun x layer =>
        ⟨(h.lists x layer).few, (h.lists x layer).distinct, (h.lists x layer).known⟩
      entry := fun ep entry => by
        cases entry
        exact ⟨inside, rfl⟩
      noEntry := nofun }
  grows := ⟨le_rfl, fun _ _ => rfl, higher⟩
  nodes := rfl
  insert := trivial
  entry := .inr ⟨rfl, rfl⟩

/-- The insert descends with a node that is high enough for what follows. -/
theorem descendTo_spec {id maxLayer layer : Nat} {curr : Candidate D} (own :
    curr.2 = dist id curr.1)
    (known : g.Other id (min maxLayer (g.layerOf id)) curr.1)
    (sized : g.nodeMaxLayers.length ≤ c.visitedSize) :
    ∃ next, descendTo c (g.layerOf id) maxLayer layer curr = some next ∧ next.Sound dist g id ∧
      next ≠ .idle := by
  unfold descendTo
  split_ifs with above
  · exact ⟨.descend maxLayer layer curr, rfl, ⟨own, known, above⟩, nofun⟩
  · have one : Found (dist id) (g.Other id (min maxLayer (g.layerOf id))) [curr] :=
      ⟨by simp, by simp, by simpa using ⟨own, known⟩⟩
    obtain ⟨b, start, sound, -⟩ := one.start (c := c) fun x known => known.2.1.trans_le sized
    refine ⟨.search maxLayer (min maxLayer (g.layerOf id)) b, ?_, ⟨min_le_right _ _, sound⟩, nofun⟩
    rw [start]
    rfl

variable [LinearOrder D]

/-- The maximum layer that is loaded is, as far as the node itself has layers, not above the entry
point read before. And the lists read in a layer do not have the node yet. -/
def InsertFit (c : Config) (g : Graph) (id : Nat) : Insert D → Prop
  | .loadMaxLayer (some ep) => min g.maxLayer (g.layerOf id) ≤ g.layerOf ep
  | .search _ layer beam =>
    ∀ cand, beam.next c.efConstruction = some (some cand) → id ∉ g.neighbors cand.1 layer
  | _ => True

/-- One step of an insert finds all indices in bounds. -/
theorem insertStep_spec (h : Sound c g) (sized : g.nodeMaxLayers.length ≤ c.visitedSize)
    (inside : id < g.nodeMaxLayers.length) {i : Insert D} (insert : i.Sound dist g id)
    (fresh : i ≠ .done → g.entryPoint ≠ some id) (fit : InsertFit c g id i) :
    ∃ g' next, insertStep dist c g id i = some (g', next) ∧ Stepped c dist g id g' next ∧
      (next = .idle → i = .idle) := by
  have room : ∀ layer x, g.Other id layer x → x < g.nodeMaxLayers.length ∧ x < c.visitedSize :=
    fun layer x known => ⟨known.2.1, known.2.1.trans_le sized⟩
  cases i with
  | idle => exact ⟨g, .idle, rfl, h.stay trivial, fun _ => rfl⟩
  | done => exact ⟨g, .done, rfl, h.stay trivial, by rintro ⟨⟩⟩
  | readEntryPoint =>
    refine ⟨g, .loadMaxLayer g.entryPoint, rfl, h.stay ?_, by rintro ⟨⟩⟩
    intro ep entry
    refine ⟨?_, (h.entry ep entry).1, Nat.zero_le _⟩
    rintro rfl
    exact fresh (by rintro ⟨⟩) entry
  | loadMaxLayer currEp =>
    cases currEp with
    | none => exact ⟨g, .firstNode g.maxLayer, rfl, h.stay (le_refl g.maxLayer), by rintro ⟨⟩⟩
    | some ep =>
      have known := insert ep rfl
      have high : g.Other id (min g.maxLayer (g.layerOf id)) ep := ⟨known.1, known.2.1, fit⟩
      obtain ⟨next, eq, sound, busy⟩ :=
        @descendTo_spec D c dist g id g.maxLayer g.maxLayer (ep, dist id ep) rfl high sized
      refine ⟨g, next, ?_, h.stay sound, fun idle => absurd idle busy⟩
      rw [insertStep, Graph.measure, if_pos known.2.1, bind_eq_bind, bind_some, eq]
      rfl
  | firstNode maxLayer =>
    rw [insertStep]
    cases entry : g.entryPoint with
    | none =>
      exact ⟨_, .done, rfl, h.raise inside (by rw [h.noEntry entry]; exact Nat.zero_le _),
        by rintro ⟨⟩⟩
    | some ep =>
      obtain ⟨there, top⟩ := h.entry ep entry
      have other : ep ≠ id := by
        rintro rfl
        exact fresh (by rintro ⟨⟩) entry
      have high : g.Other id (min maxLayer (g.layerOf id)) ep :=
        ⟨other, there, (min_le_left _ _).trans (insert.trans_eq top.symm)⟩
      obtain ⟨next, eq, sound, busy⟩ :=
        @descendTo_spec D c dist g id maxLayer maxLayer (ep, dist id ep) rfl high sized
      refine ⟨g, next, ?_, h.stay sound, fun idle => absurd idle busy⟩
      simp only [Graph.measure, if_pos there, bind_eq_bind, bind_some, eq]
      rfl
  | descend maxLayer layer curr =>
    obtain ⟨own, known, above⟩ := insert
    obtain ⟨found, eq, own', from'⟩ := nearest_spec h.shaped known.2.1 own fun nb member =>
      ((h.lists curr.1 layer).known nb member).2.1
    have known' : g.Other id (min maxLayer (g.layerOf id)) found.1 := by
      rcases from' with rfl | member
      · exact known
      · have there := ((h.lists curr.1 layer).known _ member).2
        refine ⟨?_, there.mono ((min_le_right _ _).trans above.le)⟩
        intro same
        exact absurd (same ▸ there.2) above.not_ge
    rw [insertStep, eq, bind_eq_bind, bind_some]
    split_ifs with nearer
    · exact ⟨g, .descend maxLayer layer found, rfl, h.stay ⟨own', known', above⟩, by rintro ⟨⟩⟩
    · obtain ⟨next, eq', sound, busy⟩ :=
        @descendTo_spec D c dist g id maxLayer (layer - 1) found own' known' sized
      refine ⟨g, next, ?_, h.stay sound, fun idle => absurd idle busy⟩
      rw [eq']
      rfl
  | search maxLayer layer beam =>
    obtain ⟨below, sound⟩ := insert
    obtain ⟨o, eq, taken⟩ := sound.next c.efConstruction
    rw [insertStep, eq, bind_eq_bind, bind_some]
    cases o with
    | none =>
      exact ⟨g, .setNeighbors maxLayer layer (rank beam.results), rfl,
        h.stay ⟨below, sound.results.perm (rank_perm _)⟩, by rintro ⟨⟩⟩
    | some cand =>
      obtain ⟨beam', expand, sound', -⟩ := sound.expand h.shaped (room layer) c.efConstruction
        (taken cand rfl) fun nb member =>
          ⟨fun same => fit cand eq (same ▸ member), ((h.lists cand.1 layer).known nb member).2⟩
      refine ⟨g, .search maxLayer layer beam', ?_, h.stay ⟨below, sound'⟩, by rintro ⟨⟩⟩
      simp only [expand]
      rfl
  | setNeighbors maxLayer layer best =>
    obtain ⟨below, found⟩ := insert
    have listed := listed_select (c := c) dist found.once fun x member => (found.known x member).2
    obtain ⟨g', eq, sound, rewired⟩ := h.setNeighbors ⟨inside, below⟩ listed
    have grows := rewired.grows
    refine ⟨g', .addEdges maxLayer layer best (select dist c layer best), ?_, ?_, by rintro ⟨⟩⟩
    · rw [insertStep, eq]
      rfl
    · exact sound.rewire rewired ⟨(grows.layerOf id inside).symm ▸ below,
        found.mono fun _ => grows.other, fun nb member => grows.other (listed.known nb member)⟩
  | addEdges maxLayer layer best nbs =>
    obtain ⟨below, found, others⟩ := insert
    cases nbs with
    | nil =>
      cases layer with
      | zero => exact ⟨g, .updateEntryPoint maxLayer, rfl, h.stay trivial, by rintro ⟨⟩⟩
      | succ layer =>
        have lower : Found (dist id) (g.Other id layer) best :=
          found.mono fun x known => ⟨known.1, known.2.mono (Nat.le_succ layer)⟩
        obtain ⟨beam, eq, sound, -⟩ := lower.start (c := c) fun x known => (room layer x known).2
        refine ⟨g, .search maxLayer layer beam, ?_, h.stay ⟨(Nat.le_succ layer).trans below, sound⟩,
          by rintro ⟨⟩⟩
        rw [insertStep, eq]
        rfl
    | cons nb nbs =>
      have known := others nb mem_cons_self
      obtain ⟨g', eq, sound, rewired⟩ :=
        h.addEdgeBidirectional dist known.2 ⟨inside, below⟩ (Ne.symm known.1)
      have grows := rewired.grows
      refine ⟨g', .addEdges maxLayer layer best nbs, ?_, ?_, by rintro ⟨⟩⟩
      · rw [insertStep, eq]
        rfl
      · exact sound.rewire rewired ⟨(grows.layerOf id inside).symm ▸ below,
          found.mono fun _ => grows.other,
          fun nb member => grows.other (others nb (mem_cons_of_mem _ member))⟩
  | updateEntryPoint maxLayer =>
    rw [insertStep]
    split_ifs with higher
    · exact ⟨_, .done, rfl, h.raise inside higher.2.le, by rintro ⟨⟩⟩
    · exact ⟨g, .done, rfl, h.stay trivial, by rintro ⟨⟩⟩

end Inserts

section Runs

variable {D : Type} {c : Config} {dist : Nat → Nat → D}

/-- The invariant of all runs: the graph is sound, and every insert that has begun is of an
allocated node, which is not the entry point before the insert is done. -/
structure State.Sound (c : Config) (dist : Nat → Nat → D) (s : State D) : Prop where
  graph : Hnsw.Sound c s.graph
  sized : s.graph.nodeMaxLayers.length ≤ c.visitedSize
  inside : ∀ id, s.inserts id ≠ .idle → id < s.graph.nodeMaxLayers.length
  inserts : ∀ id, (s.inserts id).Sound dist s.graph id
  fresh : ∀ id, s.inserts id ≠ .done → s.graph.entryPoint ≠ some id

theorem sound_empty (c : Config) (dist : Nat → Nat → D) : (State.empty : State D).Sound c dist where
  graph :=
    { shaped := ⟨rfl, rfl⟩
      lists := fun id layer => by
        have none : Graph.empty.neighbors id layer = [] := by
          unfold Graph.neighbors Graph.getNeighbors
          split <;> rfl
        exact none ▸ listed_nil c _ id layer
      entry := nofun
      noEntry := fun _ => rfl }
  sized := Nat.zero_le _
  inside _ busy := absurd rfl busy
  inserts _ := trivial
  fresh _ _ := nofun

theorem Graph.grows_resize (g : Graph) (layers : List Nat) : Grows g (g.resize layers) where
  nodes := by simp [Graph.resize]
  layerOf id inside := by simp [Graph.layerOf, Graph.resize, getElem?_append_left inside]
  maxLayer := le_rfl

theorem Graph.neighbors_resize (g : Graph) (layers : List Nat) (id layer : Nat) :
    (g.resize layers).neighbors id layer = g.neighbors id layer := by
  unfold Graph.neighbors Graph.getNeighbors Graph.resize
  split_ifs with low
  · rw [getElem?_append]
    split_ifs with inside
    · rfl
    · rw [getElem?_eq_none (not_lt.mp inside), getElem?_map]
      cases layers[id - g.neighbors0.length]? <;> rfl
  · rw [getElem?_append]
    split_ifs with inside
    · rfl
    · rw [getElem?_eq_none (not_lt.mp inside), getElem?_map]
      cases layers[id - g.neighborsUpper.length]? with
      | none => rfl
      | some l =>
        simp only [map_some, getD_some, getElem?_replicate, map_none, getD_none]
        split <;> rfl

theorem Sound.resize {g : Graph} (h : Sound c g) (layers : List Nat) :
    Sound c (g.resize layers) where
  shaped := by
    refine ⟨?_, ?_⟩
    · simp [Graph.resize, h.shaped.lower]
    · simp [Graph.resize, h.shaped.upper, Function.comp_def]
  lists id layer := by
    have same := g.neighbors_resize layers id layer
    have listed := h.lists id layer
    rw [same]
    exact ⟨listed.few, listed.distinct, fun nb member =>
      (g.grows_resize layers).other (listed.known nb member)⟩
  entry ep entry := by
    obtain ⟨inside, top⟩ := h.entry ep entry
    exact ⟨inside.trans_le (g.grows_resize layers).nodes,
      ((g.grows_resize layers).layerOf ep inside).trans top⟩
  noEntry := h.noEntry

variable [LinearOrder D]

def Fit (c : Config) (s : State D) : Op → Prop
  | .resize layers => s.graph.nodeMaxLayers.length + layers.length ≤ c.visitedSize
  | .insert _ => True
  | .step id => InsertFit c s.graph id (s.inserts id)

instance (c : Config) (g : Graph) (id : Nat) : (i : Insert D) → Decidable (InsertFit c g id i)
  | .loadMaxLayer (some ep) =>
    inferInstanceAs (Decidable (min g.maxLayer (g.layerOf id) ≤ g.layerOf ep))
  | .search _ layer beam =>
    match eq : beam.next c.efConstruction with
    | some (some cand) =>
      decidable_of_iff (id ∉ g.neighbors cand.1 layer)
        ⟨fun absent _ same => by cases eq.symm.trans same; exact absent, fun all => all cand eq⟩
    | some none => isTrue fun _ same => by cases eq.symm.trans same
    | none => isTrue fun _ same => by cases eq.symm.trans same
  | .idle | .readEntryPoint | .loadMaxLayer none | .firstNode _ | .descend .. | .setNeighbors
    .. | .addEdges ..
  | .updateEntryPoint _ | .done => isTrue trivial

instance (c : Config) (s : State D) : (op : Op) → Decidable (Fit c s op)
  | .resize layers =>
    inferInstanceAs (Decidable (s.graph.nodeMaxLayers.length + layers.length ≤ c.visitedSize))
  | .insert _ => isTrue trivial
  | .step id => inferInstanceAs (Decidable (InsertFit c s.graph id (s.inserts id)))

/-- Each operation on the graph succeeds and keeps it sound. -/
theorem State.Sound.step {s : State D} (h : s.Sound c dist) {op : Op} (fit : Fit c s op) :
    ∃ s', Hnsw.step dist c s op = some s' ∧ s'.Sound c dist := by
  cases op with
  | resize layers =>
    have grows := s.graph.grows_resize layers
    refine ⟨_, rfl, ⟨h.graph.resize layers, ?_, ?_, ?_, h.fresh⟩⟩
    · rw [Graph.resize, length_append]
      exact fit
    · exact fun id busy => (h.inside id busy).trans_le grows.nodes
    · intro id
      by_cases idle : s.inserts id = .idle
      · simp only [idle]
        trivial
      · exact (h.inserts id).grows (h.inside id idle) grows
  | insert id =>
    rw [Hnsw.step]
    cases here : s.inserts id with
    | idle =>
      split_ifs with inside
      · refine ⟨_, rfl, ⟨h.graph, h.sized, ?_, ?_, ?_⟩⟩
        · intro x busy
          by_cases same : x = id
          · exact same ▸ inside
          · exact h.inside x (by simpa [update_of_ne same] using busy)
        · intro x
          by_cases same : x = id
          · subst same
            simp only [update_self]
            trivial
          · simpa only [update_of_ne same] using h.inserts x
        · intro x busy
          by_cases same : x = id
          · exact same ▸ h.fresh id (by rw [here]; nofun)
          · exact h.fresh x (by simpa only [update_of_ne same] using busy)
      · exact ⟨s, rfl, h⟩
    | _ => exact ⟨s, rfl, h⟩
  | step id =>
    by_cases idle : s.inserts id = .idle
    · refine ⟨s, ?_, h⟩
      rw [Hnsw.step, idle, insertStep, ← idle, map_some, update_eq_self]
    obtain ⟨g', next, eq, stepped, busy⟩ :=
      insertStep_spec h.graph h.sized (h.inside id idle) (h.inserts id) (h.fresh id) fit
    refine ⟨⟨g', update s.inserts id next⟩, by rw [Hnsw.step, eq]; rfl,
      ⟨stepped.graph, stepped.nodes.trans_le h.sized, ?_, ?_, ?_⟩⟩
    · intro x working
      rw [stepped.nodes]
      by_cases same : x = id
      · exact same ▸ h.inside id idle
      · exact h.inside x (by simpa only [update_of_ne same] using working)
    · intro x
      by_cases same : x = id
      · subst same
        simpa only [update_self] using stepped.insert
      · simp only [update_of_ne same]
        by_cases resting : s.inserts x = .idle
        · rw [resting]
          trivial
        · exact (h.inserts x).grows (h.inside x resting) stepped.grows
    · intro x working
      rcases stepped.entry with kept | ⟨raised, finished⟩
      · rw [kept]
        by_cases same : x = id
        · subst same
          refine h.fresh x fun done => working ?_
          have last : insertStep dist c s.graph x (s.inserts x) = some (s.graph, .done) := by
            rw [done, insertStep]
          have ended := (Prod.mk.inj (some.inj (eq.symm.trans last))).2
          exact (update_self ..).trans ended
        · exact h.fresh x (by simpa only [update_of_ne same] using working)
      · rw [raised]
        rintro ⟨⟩
        exact working ((update_self ..).trans finished)

/-- A run of fit steps never indexes out of bounds. -/
theorem State.Sound.run {s : State D} {ops : List Op} (h : s.Sound c dist)
    (fit : Run.Along (Hnsw.step dist c) (Fit c) s ops) :
    ∃ s', Run.run (Hnsw.step dist c) s ops = some s' ∧ s'.Sound c dist :=
  Run.invariant (fun _ _ sound fit => sound.step fit) h fit

end Runs

end GalaxDb.Hnsw
