import GalaxDb.Vector.DiskAnn

/-!
# The disk-resident index as a map

Searches and the length are those of the map from external ids to their last vectors, exactly
as long as no id is inserted that the base has.
-/

namespace GalaxDb.DiskAnn

open Ranking WriteLog List

variable {V D : Type}

/-- The vectors that the index is built from. -/
def ofEntries (entries : List (Entry V)) (id : UInt64) : Option V :=
  (entries.find? fun e => e.1 = id).map Prod.snd

def next (m : UInt64 → Option V) : Op V → UInt64 → Option V
  | .insert externalId vector => write m (externalId, some vector)
  | .delete externalId => write m (externalId, none)
  | .consolidate => m

theorem ofEntries_eq_some {entries : List (Entry V)} (distinct : (entries.map Prod.fst).Nodup)
    {id : UInt64} {v : V} : ofEntries entries id = some v ↔ (id, v) ∈ entries := by
  induction entries with
  | nil => simp [ofEntries]
  | cons e entries ih =>
    rw [map_cons, nodup_cons] at distinct
    rw [ofEntries] at ih ⊢
    by_cases here : e.1 = id
    · rw [find?_cons_of_pos (by simpa using here), mem_cons]
      constructor
      · intro eq
        obtain rfl := Option.some.inj eq
        exact .inl (by rw [← here])
      · rintro (same | later)
        · rw [← same]
          rfl
        · exact absurd (here ▸ mem_map_of_mem later) distinct.1
    · rw [find?_cons_of_neg (by simpa using here), ih distinct.2, mem_cons]
      have other : (id, v) ≠ e := fun same => here (by rw [← same])
      simp [other]

/-- The length is the number of ids that the map has. -/
def SizeRight (s : DiskAnnIndex V) (m : UInt64 → Option V) : Prop :=
  ∃ keys : Finset UInt64, (∀ id, id ∈ keys ↔ m id ≠ none) ∧ s.len = keys.card

/-- A search with room for all base points gives the first `k` of the map's ranking. -/
def SearchRight [LinearOrder D] (S : Space V D) (config : Config) (s : DiskAnnIndex V)
    (m : UInt64 → Option V) : Prop :=
  s.graph.Connected → ∀ query, ∃ ranking, Ranks (fun id => (m id).map fun v =>
      config.metric.distance S (config.metric.prepare S query) (config.metric.prepare S v))
        ranking ∧
    ∀ k l, s.vectors.length ≤ l → s.search S config query k (some l) = some (ranking.take k)

/-- No id is inserted that the base has, deleted or not. -/
def Fit (s : DiskAnnIndex V) : Op V → Prop
  | .insert externalId _ => externalId ∉ s.externalIds
  | .delete _ => True
  | .consolidate => True

instance (s : DiskAnnIndex V) : (op : Op V) → Decidable (Fit s op)
  | .insert externalId _ => inferInstanceAs (Decidable (externalId ∉ s.externalIds))
  | .delete _ => isTrue trivial
  | .consolidate => isTrue trivial

section Invariant

/-- Base and delta share no id, and have those of the map. -/
structure Represents (S : Space V D) (config : Config) (s : DiskAnnIndex V) (m :
    UInt64 → Option V) :
    Prop where
  distinct : s.externalIds.Nodup
  once : (s.delta.map Prod.fst).Nodup
  apart : ∀ d ∈ s.delta, d.1 ∉ s.externalIds
  live : ∀ d ∈ s.delta, d.1 ∉ s.tombstones
  base : ∀ p ∈ s.base, p.1 ∉ s.tombstones → ∃ v, m p.1 = some v ∧ p.2 = config.metric.prepare S v
  pending : ∀ d ∈ s.delta, ∃ v, m d.1 = some v ∧ d.2 = config.metric.prepare S v
  all : ∀ id, m id ≠ none → id ∈ s.delta.map Prod.fst ∨ id ∉ s.tombstones ∧ id ∈ s.externalIds

variable {S : Space V D} {config : Config} {s : DiskAnnIndex V} {m : UInt64 → Option V}

theorem DiskAnnIndex.map_fst_base (s : DiskAnnIndex V) : s.base.map Prod.fst = s.externalIds :=
  map_fst_zip s.sized.le

/-- What a consolidation keeps and a search answers from. -/
def DiskAnnIndex.points (s : DiskAnnIndex V) : List (Entry V) :=
  (s.base.filter fun p => p.1 ∉ s.tombstones) ++ s.delta

theorem Represents.points_once (h : Represents S config s m) : (s.points.map Prod.fst).Nodup := by
  rw [DiskAnnIndex.points, map_append]
  refine nodup_append.mpr ⟨?_, h.once, ?_⟩
  · have all : (s.base.map Prod.fst).Nodup := s.map_fst_base.symm ▸ h.distinct
    exact all.sublist (filter_sublist.map Prod.fst)
  · intro a inBase b inDelta
    rintro rfl
    obtain ⟨d, member, rfl⟩ := mem_map.mp inDelta
    refine h.apart d member ?_
    rw [← s.map_fst_base]
    exact (filter_sublist.map Prod.fst).subset inBase

theorem Represents.mem_points (h : Represents S config s m) {id : UInt64} {w : V} :
    (id, w) ∈ s.points ↔ ∃ v, m id = some v ∧ w = config.metric.prepare S v := by
  have sound : ∀ p ∈ s.points, ∃ v, m p.1 = some v ∧ p.2 = config.metric.prepare S v := by
    intro p member
    rcases mem_append.mp member with inBase | inDelta
    · obtain ⟨inBase, live⟩ := mem_filter.mp inBase
      exact h.base p inBase (by simpa using live)
    · exact h.pending p inDelta
  constructor
  · exact sound (id, w)
  · rintro ⟨v, eq, rfl⟩
    have listed : id ∈ s.points.map Prod.fst := by
      rw [DiskAnnIndex.points, map_append, mem_append]
      rcases h.all id (by simp [eq]) with inDelta | ⟨live, inBase⟩
      · exact .inr inDelta
      · rw [← s.map_fst_base] at inBase
        obtain ⟨p, member, rfl⟩ := mem_map.mp inBase
        exact .inl (mem_map_of_mem (mem_filter.mpr ⟨member, by simpa using live⟩))
    obtain ⟨p, member, rfl⟩ := mem_map.mp listed
    obtain ⟨v', eq', own⟩ := sound p member
    obtain rfl : v = v' := Option.some.inj (eq.symm.trans eq')
    rwa [← own]

variable {s' : DiskAnnIndex V} {vamana : Vamana V}

/-- An index that is built anew has exactly the vectors it is given. -/
theorem represents_build {entries : List (Entry V)}
    (built : build S vamana config entries = some s') (distinct : (entries.map Prod.fst).Nodup)
    (mem : ∀ id w, (id, w) ∈ entries → ∃ v, m id = some v ∧
      config.metric.prepare S w = config.metric.prepare S v)
    (all : ∀ id, m id ≠ none → id ∈ entries.map Prod.fst) : Represents S config s' m := by
  unfold build at built
  split_ifs at built
  cases built
  refine ⟨distinct, nodup_nil, by simp, by simp, ?_, by simp, ?_⟩
  · intro p member _
    rw [DiskAnnIndex.base, zip_map', mem_map] at member
    obtain ⟨e, inside, rfl⟩ := member
    exact mem e.1 e.2 inside
  · exact fun id live => .inr ⟨Finset.notMem_empty id, all id live⟩

theorem Represents.consolidate (h : Represents S config s m)
    (built : s.consolidate S vamana config = some s') : Represents S config s' m := by
  have entries : (s.base.filter fun p => p.1 ∉ s.tombstones ∧ ∀ d ∈ s.delta, d.1 ≠ p.1) ++
      (s.delta.filter fun d => d.1 ∉ s.tombstones) = s.points := by
    have kept : (s.base.filter fun p => p.1 ∉ s.tombstones ∧ ∀ d ∈ s.delta, d.1 ≠ p.1) =
        s.base.filter fun p => p.1 ∉ s.tombstones := by
      refine filter_congr fun p member => ?_
      have apart : ∀ d ∈ s.delta, d.1 ≠ p.1 := fun d pending same =>
        h.apart d pending (same ▸ s.map_fst_base ▸ mem_map_of_mem member)
      exact decide_eq_decide.mpr ⟨And.left, fun live => ⟨live, apart⟩⟩
    have pending : (s.delta.filter fun d => d.1 ∉ s.tombstones) = s.delta :=
      filter_eq_self.mpr fun d member => by simpa using h.live d member
    rw [kept, pending, DiskAnnIndex.points]
  unfold DiskAnnIndex.consolidate at built
  simp only [entries] at built
  refine represents_build built h.points_once ?_ ?_
  · intro id w member
    obtain ⟨v, eq, rfl⟩ := h.mem_points.mp member
    exact ⟨v, eq, config.metric.prepare_prepare S v⟩
  · intro id live
    obtain ⟨v, eq⟩ := Option.ne_none_iff_exists'.mp live
    exact mem_map_of_mem (h.mem_points.mpr ⟨v, eq, rfl⟩)

/-- An insertion under a new identifier writes the map. -/
theorem Represents.insert (h : Represents S config s m) {externalId : UInt64} (vector : V)
    (fit : externalId ∉ s.externalIds) :
    Represents S config (s.insert S config externalId vector)
      (write m (externalId, some vector)) := by
  have members : ∀ d ∈ (s.insert S config externalId vector).delta,
      (d ∈ s.delta ∧ d.1 ≠ externalId) ∨ d = (externalId, config.metric.prepare S vector) := by
    intro d member
    simpa [DiskAnnIndex.insert] using member
  refine ⟨h.distinct, ?_, ?_, ?_, ?_, ?_, ?_⟩
  · simp only [DiskAnnIndex.insert, map_append, map_cons, map_nil]
    refine nodup_append.mpr ⟨h.once.sublist (filter_sublist.map Prod.fst), by simp, ?_⟩
    intro a front b last
    obtain rfl := mem_singleton.mp last
    obtain ⟨d, member, rfl⟩ := mem_map.mp front
    simpa using (mem_filter.mp member).2
  · intro d member
    rcases members d member with ⟨before, -⟩ | rfl
    · exact h.apart d before
    · exact fit
  · intro d member deleted
    obtain ⟨other, deleted⟩ := Finset.mem_erase.mp deleted
    rcases members d member with ⟨before, -⟩ | rfl
    · exact h.live d before deleted
    · exact other rfl
  · intro p member live
    have other : p.1 ≠ externalId := fun same =>
      fit (same ▸ s.map_fst_base ▸ mem_map_of_mem member)
    rw [write_other _ _ other]
    exact h.base p member fun deleted => live (Finset.mem_erase.mpr ⟨other, deleted⟩)
  · intro d member
    rcases members d member with ⟨before, other⟩ | rfl
    · rw [write_other _ _ other]
      exact h.pending d before
    · exact ⟨vector, write_self m externalId (some vector), rfl⟩
  · intro id live
    by_cases same : id = externalId
    · exact .inl (by simp [DiskAnnIndex.insert, same])
    · rw [write_other _ _ same] at live
      rcases h.all id live with pending | ⟨live, inBase⟩
      · obtain ⟨d, member, rfl⟩ := mem_map.mp pending
        refine .inl (mem_map_of_mem (mem_append_left _ ?_))
        exact mem_filter.mpr ⟨member, by simpa using same⟩
      · exact .inr ⟨fun deleted => live (Finset.mem_of_mem_erase deleted), inBase⟩

theorem Represents.delete (h : Represents S config s m) (externalId : UInt64) :
    Represents S config (s.delete externalId) (write m (externalId, none)) := by
  have members : ∀ d ∈ (s.delete externalId).delta, d ∈ s.delta ∧ d.1 ≠ externalId := by
    intro d member
    simpa [DiskAnnIndex.delete] using member
  refine ⟨h.distinct, h.once.sublist (filter_sublist.map Prod.fst), ?_, ?_, ?_, ?_, ?_⟩
  · exact fun d member => h.apart d (members d member).1
  · intro d member deleted
    obtain ⟨before, other⟩ := members d member
    rcases Finset.mem_insert.mp deleted with same | deleted
    · exact other same
    · exact h.live d before deleted
  · intro p member live
    have untouched : p.1 ≠ externalId ∧ p.1 ∉ s.tombstones := by
      simpa [DiskAnnIndex.delete] using live
    rw [write_other _ _ untouched.1]
    exact h.base p member untouched.2
  · intro d member
    obtain ⟨before, other⟩ := members d member
    rw [write_other _ _ other]
    exact h.pending d before
  · intro id live
    by_cases same : id = externalId
    · subst same
      exact absurd (write_self m id none) live
    · rw [write_other _ _ same] at live
      rcases h.all id live with pending | ⟨live, inBase⟩
      · obtain ⟨d, member, rfl⟩ := mem_map.mp pending
        exact .inl (mem_map_of_mem (mem_filter.mpr ⟨member, by simpa using same⟩))
      · exact .inr ⟨by simp [DiskAnnIndex.delete, same, live], inBase⟩

theorem Represents.step (h : Represents S config s m) {vamana : Vamana V} {op : Op V} (fit :
    Fit s op) :
    Represents S config (DiskAnn.step S vamana config s op) (next m op) := by
  cases op with
  | insert externalId vector => exact h.insert vector fit
  | delete externalId => exact h.delete externalId
  | consolidate =>
    rw [DiskAnn.step, next]
    cases built : s.consolidate S vamana config with
    | none => exact h
    | some s' => exact h.consolidate built

end Invariant

section Answers

variable {S : Space V D} {config : Config} {s : DiskAnnIndex V} {m : UInt64 → Option V}

/-- The ids that the map has, and how many of them there are. -/
theorem Represents.keys (h : Represents S config s m) : ∃ keys : Finset UInt64,
    (∀ id, id ∈ keys ↔ m id ≠ none) ∧ s.len = keys.card := by
  have size : s.vectors.length = s.externalIds.toFinset.card := by
    rw [toFinset_card_of_nodup h.distinct, s.sized]
  have sizeDelta : s.delta.length = (s.delta.map Prod.fst).toFinset.card := by
    rw [toFinset_card_of_nodup h.once, length_map]
  have removed : (s.tombstones.filter fun t => t ∈ s.externalIds) =
      s.externalIds.toFinset ∩ s.tombstones := by
    ext t
    simp [and_comm]
  have apart :
      Disjoint (s.externalIds.toFinset \ s.tombstones) (s.delta.map Prod.fst).toFinset := by
    refine Finset.disjoint_left.mpr ?_
    intro id inBase pending
    obtain ⟨d, member, rfl⟩ := mem_map.mp (mem_toFinset.mp pending)
    exact h.apart d member (mem_toFinset.mp (Finset.mem_sdiff.mp inBase).1)
  refine ⟨(s.externalIds.toFinset \ s.tombstones) ∪ (s.delta.map Prod.fst).toFinset, ?_, ?_⟩
  · intro id
    simp only [Finset.mem_union, Finset.mem_sdiff, mem_toFinset]
    constructor
    · rintro (⟨inBase, live⟩ | pending)
      · rw [← s.map_fst_base] at inBase
        obtain ⟨p, member, rfl⟩ := mem_map.mp inBase
        obtain ⟨v, eq, -⟩ := h.base p member live
        simp [eq]
      · obtain ⟨d, member, rfl⟩ := mem_map.mp pending
        obtain ⟨v, eq, -⟩ := h.pending d member
        simp [eq]
    · intro live
      rcases h.all id live with pending | ⟨live, inBase⟩
      · exact .inr pending
      · exact .inl ⟨inBase, live⟩
  · have split := Finset.card_sdiff_add_card_inter s.externalIds.toFinset s.tombstones
    rw [Finset.card_union_of_disjoint apart, DiskAnnIndex.len, removed, size, sizeDelta]
    omega

/-- An id that the base has is counted twice once it is inserted. -/
theorem Represents.insert_size (h : Represents S config s m) {externalId : UInt64} (vector : V)
    (again : externalId ∈ s.externalIds) :
    ¬SizeRight (s.insert S config externalId vector) (write m (externalId, some vector)) := by
  obtain ⟨keys, mem, size⟩ := h.keys
  rintro ⟨keys', mem', size'⟩
  have notPending : externalId ∉ s.delta.map Prod.fst := by
    intro pending
    obtain ⟨d, member, rfl⟩ := mem_map.mp pending
    exact h.apart d member again
  have whole : (s.delta.filter fun d => d.1 ≠ externalId) = s.delta := by
    refine filter_eq_self.mpr fun d member => ?_
    have other : d.1 ≠ externalId := fun same => notPending (same ▸ mem_map_of_mem member)
    simpa using other
  have grown : keys' = Insert.insert externalId keys := by
    ext id
    rw [mem', Finset.mem_insert, mem]
    by_cases same : id = externalId
    · subst same
      simp [write_self]
    · rw [write_other _ _ same]
      simp [same]
  have bound : (s.tombstones.filter fun t => t ∈ s.externalIds).card ≤ s.vectors.length := by
    rw [← s.sized, ← toFinset_card_of_nodup h.distinct]
    refine Finset.card_le_card fun t member => ?_
    exact mem_toFinset.mpr (Finset.mem_filter.mp member).2
  have erased : ((s.tombstones.erase externalId).filter fun t => t ∈ s.externalIds) =
      (s.tombstones.filter fun t => t ∈ s.externalIds).erase externalId :=
    Finset.filter_erase _ _ _
  simp only [DiskAnnIndex.len, DiskAnnIndex.insert, whole, erased, length_append,
    length_singleton] at size' size
  by_cases deleted : externalId ∈ s.tombstones
  · have counted : externalId ∈ s.tombstones.filter fun t => t ∈ s.externalIds :=
      Finset.mem_filter.mpr ⟨deleted, again⟩
    have positive := Finset.card_pos.mpr ⟨_, counted⟩
    rw [Finset.card_erase_of_mem counted] at size'
    have few := Finset.card_insert_le externalId keys
    rw [grown] at size'
    omega
  · have absent : externalId ∉ s.tombstones.filter fun t => t ∈ s.externalIds :=
      fun member => deleted (Finset.mem_filter.mp member).1
    have present : externalId ∈ keys := by
      rw [mem]
      rw [← s.map_fst_base] at again
      obtain ⟨p, member, rfl⟩ := mem_map.mp again
      obtain ⟨v, eq, -⟩ := h.base p member deleted
      simp [eq]
    rw [Finset.erase_eq_of_notMem absent, grown, Finset.insert_eq_of_mem present] at size'
    omega

variable [LinearOrder D]

/-- The order by id does not depend on the order before. -/
theorem sortById_congr {l l' : List (UInt64 × D)} (perm : l.Perm l') :
    l.insertionSort byId = l'.insertionSort byId := by
  have total : Std.Total (byId (D := D)) := ⟨fun a b => by
    by_cases same : a.1 = b.1
    · exact (le_total a.2 b.2).imp (fun le => .inr ⟨same, le⟩) fun ge => .inr ⟨same.symm, ge⟩
    · exact (UInt64.lt_or_lt_of_ne same).imp .inl .inl⟩
  have trans : IsTrans (UInt64 × D) (byId (D := D)) := ⟨fun a b c => by
    rintro (lt | ⟨same, le⟩) (lt' | ⟨same', le'⟩)
    · exact .inl (UInt64.lt_trans lt lt')
    · exact .inl (same' ▸ lt)
    · exact .inl (same ▸ lt')
    · exact .inr ⟨same.trans same', le.trans le'⟩⟩
  have sorted : ∀ l : List (UInt64 × D), (l.insertionSort byId).Pairwise byId :=
    fun l => pairwise_insertionSort _ l
  have both : (l.insertionSort byId).Perm (l'.insertionSort byId) :=
    (perm_insertionSort _ l).trans (perm.trans (perm_insertionSort _ l').symm)
  refine both.eq_of_pairwise ?_ (sorted l) (sorted l')
  rintro a b - - (lt | ⟨same, le⟩) (lt' | ⟨same', ge⟩)
  · exact absurd lt' (UInt64.lt_asymm lt)
  · exact absurd lt (same' ▸ UInt64.lt_irrefl _)
  · exact absurd lt' (same ▸ UInt64.lt_irrefl _)
  · exact Prod.ext same (le_antisymm le ge)

/-- A search gives the head of the map's ranking. -/
theorem Represents.search (h : Represents S config s m) : SearchRight S config s m := by
  intro connected query
  let distance : Entry V → D := fun p =>
    config.metric.distance S (config.metric.prepare S query) p.2
  let all := s.points.map fun p => (p.1, distance p)
  have ids : all.map Prod.fst = s.points.map Prod.fst := by simp [all]
  have sortedOnce : ((all.insertionSort byId).map Prod.fst).Nodup := by
    rw [((perm_insertionSort _ all).map Prod.fst).nodup_iff, ids]
    exact h.points_once
  refine ⟨rank (all.insertionSort byId), ?_, ?_⟩
  · refine ranks_rank sortedOnce fun id d => ?_
    rw [mem_insertionSort, mem_map, Option.map_eq_some_iff]
    constructor
    · rintro ⟨p, member, same⟩
      obtain ⟨rfl, rfl⟩ := Prod.mk.inj same
      obtain ⟨v, eq, own⟩ := h.mem_points.mp member
      exact ⟨v, eq, by rw [← own]⟩
    · rintro ⟨v, eq, rfl⟩
      exact ⟨(id, config.metric.prepare S v), h.mem_points.mpr ⟨v, eq, rfl⟩, rfl⟩
  · intro k l wide
    obtain ⟨found, run, perm⟩ := greedySearchBase_spec connected
      (fun i => config.metric.distance S (config.metric.prepare S query) (s.vectors.get i))
      (wide.trans (Nat.le_max_left l k))
    have named : (found.map fun c => (s.externalIds.get (c.1.cast s.sized.symm), c.2)).Perm
        (s.base.map fun p => (p.1, distance p)) := by
      refine (perm.map _).trans ?_
      have base : s.base = (List.finRange s.vectors.length).map fun i =>
          (s.externalIds.get (i.cast s.sized.symm), s.vectors.get i) := by
        refine ext_getElem ?_ ?_
        · simp [DiskAnnIndex.base, s.sized]
        · simp [DiskAnnIndex.base]
      rw [base, map_map, map_map]
      exact List.Perm.refl _
    have candidates : ((found.map fun c => (s.externalIds.get (c.1.cast s.sized.symm), c.2)).filter
          (fun c => c.1 ∉ s.tombstones) ++
        (s.delta.filter fun d => d.1 ∉ s.tombstones).map fun d =>
          (d.1, config.metric.distance S (config.metric.prepare S query) d.2)).Perm all := by
      have pending : (s.delta.filter fun d => d.1 ∉ s.tombstones) = s.delta :=
        filter_eq_self.mpr fun d member => by simpa using h.live d member
      rw [pending]
      simp only [all, DiskAnnIndex.points, map_append]
      refine List.Perm.append_right _ ?_
      refine (named.filter _).trans ?_
      rw [filter_map]
      exact List.Perm.refl _
    have plain : (all.insertionSort byId).destutter (fun a b => a.1 ≠ b.1) =
        all.insertionSort byId := by
      refine destutter_of_isChain _ _ ?_
      exact (pairwise_map.mp sortedOnce).isChain
    unfold DiskAnnIndex.search
    simp only [Option.getD_some, run, Option.bind_eq_bind, Option.bind_some]
    rw [sortById_congr candidates, plain]
    rfl

end Answers

section Runs

variable [LinearOrder D]

/-- A step of the index beside the map it is to answer for. -/
def follow (S : Space V D) (vamana : Vamana V) (config : Config)
    (p : DiskAnnIndex V × (UInt64 → Option V)) (op : Op V) :
    Option (DiskAnnIndex V × (UInt64 → Option V)) :=
  some (step S vamana config p.1 op, next p.2 op)

/-- The length and every search are those of the map. -/
def Right (S : Space V D) (config : Config) (p : DiskAnnIndex V × (UInt64 → Option V)) : Prop :=
  SizeRight p.1 p.2 ∧ SearchRight S config p.1 p.2

/-- An insert may only be of an id that the base does not have. -/
theorem Represents.right_step_iff {S : Space V D} {config : Config} {s : DiskAnnIndex V}
    {m : UInt64 → Option V} (h : Represents S config s m) (vamana : Vamana V) (op : Op V) :
    Right S config (DiskAnn.step S vamana config s op, next m op) ↔ Fit s op := by
  constructor
  · rintro ⟨size, -⟩
    cases op with
    | insert externalId vector => exact fun again => h.insert_size vector again size
    | delete externalId => trivial
    | consolidate => trivial
  · intro fit
    have after := @Represents.step _ _ _ _ _ _ h vamana op fit
    exact ⟨after.keys, after.search⟩

/-- Over a run the index answers as the map does in every state exactly if no step inserts an id
that the base has at that moment. -/
theorem answers_as_map_iff (S : Space V D) (vamana : Vamana V) (config : Config)
    {entries : List (Entry V)} (distinct : (entries.map Prod.fst).Nodup) {s : DiskAnnIndex V}
    (built : build S vamana config entries = some s) (ops : List (Op V)) :
    Run.Throughout (follow S vamana config) (Right S config) (s, ofEntries entries) ops ↔
      Run.Along (follow S vamana config) (fun p op => Fit p.1 op) (s, ofEntries entries) ops := by
  have start : Represents S config s (ofEntries entries) := by
    refine represents_build built distinct ?_ ?_
    · exact fun id w member => ⟨w, (ofEntries_eq_some distinct).mpr member, rfl⟩
    · intro id live
      obtain ⟨v, eq⟩ := Option.ne_none_iff_exists'.mp live
      exact mem_map_of_mem ((ofEntries_eq_some distinct).mp eq)
  have stepwise : ∀ p op, Represents S config p.1 p.2 →
      ((∀ p', follow S vamana config p op = some p' → Right S config p') ↔ Fit p.1 op) := by
    intro p op h
    rw [← h.right_step_iff vamana op]
    exact ⟨fun all => all _ rfl, fun right p' eq => Option.some.inj eq ▸ right⟩
  rw [Run.throughout_iff_along]
  refine Iff.trans (and_iff_right ⟨start.keys, start.search⟩) ?_
  refine Run.along_iff stepwise ?_ start
  intro p op p' h right eq
  cases eq
  exact h.step ((stepwise p op h).mp right)

end Runs

/-- Numbers in place of vectors, and their difference as the distance. -/
def sampleSpace : Space Nat Nat where
  normalize v := v
  cosineDistanceNormalized q v := (q - v) + (v - q)
  l2DistanceSquared q v := (q - v) * (q - v) + (v - q) * (v - q)
  normalize_normalize _ := rfl

/-- Every node is a neighbor of every node. -/
def sampleVamana : Vamana Nat := fun vectors some =>
  ⟨⟨0, length_pos_iff.mpr some⟩, fun _ => List.finRange vectors.length⟩

def sampleConfig : Config := ⟨.cosine, 100⟩

/-- What the samples are built from. -/
def sampleEntries : List (Entry Nat) := [(1, 5), (2, 9)]

/-- An insert of a new id, a delete and the rebuilding are all answered as the map answers. -/
theorem answers_as_map_sample :
    ∃ s, build sampleSpace sampleVamana sampleConfig sampleEntries = some s ∧
    Run.Throughout (follow sampleSpace sampleVamana sampleConfig) (Right sampleSpace sampleConfig)
      (s, ofEntries sampleEntries) [.insert 3 4, .delete 1, .consolidate] := by
  refine ⟨_, rfl,
    (answers_as_map_iff sampleSpace sampleVamana sampleConfig (by decide) rfl _).mpr ?_⟩
  decide

/-- A base id is inserted again: two points are counted, and the search of the first vector
still finds it. -/
theorem reinserted_id_counts_twice :
    ∃ s, build sampleSpace sampleVamana sampleConfig [(1, 0)] = some s ∧
    (∀ i, s.graph.Reaches s.graph.entryPoint i) ∧
    (s.insert sampleSpace sampleConfig 1 9).len = 2 ∧
    (s.insert sampleSpace sampleConfig 1 9).search sampleSpace sampleConfig 0 1 (some 1) =
      some [(1, 0)] ∧
    next (ofEntries [((1 : UInt64), 0)]) (.insert 1 9) 1 = some 9 ∧
    ¬ Run.Throughout (follow sampleSpace sampleVamana sampleConfig) (Right sampleSpace sampleConfig)
      (s, ofEntries [(1, 0)]) [.insert 1 9] := by
  refine ⟨_, rfl, ?_, rfl, ?_, rfl, ?_⟩
  · intro i
    obtain rfl : i = (⟨0, Nat.one_pos⟩ : Fin 1) := Subsingleton.elim (α := Fin 1) _ _
    exact Relation.ReflTransGen.refl
  · rfl
  · intro right
    obtain ⟨⟨keys, mem, size⟩, -⟩ := right [.insert 1 9] [] _ rfl rfl
    have lonely : ∀ id : UInt64, id ≠ 1 →
        next (ofEntries [((1 : UInt64), 0)]) (.insert 1 9) id = none := by
      intro id other
      simp [next, write, ofEntries, other, Ne.symm other]
    have only : keys ⊆ {1} := fun id live =>
      Finset.mem_singleton.mpr
        (Classical.byContradiction fun other => (mem id).mp live (lonely id other))
    have few := Finset.card_le_card only
    rw [← size] at few
    exact absurd few (by decide)

end GalaxDb.DiskAnn
