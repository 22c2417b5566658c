import GalaxDb.Versioning.DedupGrouping
import Mathlib.Logic.Relation

/-!
# The groups are the chains of near-duplicates

The brute-force grouping compares all pairs of rows. Banding offers every pair above the
threshold in some bucket, in whatever order the buckets come, and a pair that is skipped is in
one component already; so the components are the chains of such pairs. What a group is called
and what it holds depends on its rows alone.
-/

namespace GalaxDb.Versioning

open Std Bytes Collect List Option List

/-- Rows of two ids whose signatures agree on 103 slots. -/
def NearDuplicate (rows : List DedupRow) (p q : Bytes) : Prop :=
  p ≠ q ∧ ∃ a ∈ rows, ∃ b ∈ rows, a.1 = p ∧ b.1 = q ∧ 103 ≤ matchingSlots a.2 b.2

def Chained (rows : List DedupRow) : Bytes → Bytes → Prop :=
  Relation.ReflTransGen (NearDuplicate rows)

/-- The ids that are chained to one of them, in order. -/
structure Class (rows : List DedupRow) (ids : List Bytes) : Prop where
  sorted : ids.Pairwise fun p q => compare p q = .lt
  chained : ∃ p ∈ rows.map Prod.fst, ∀ q, q ∈ ids ↔ q ∈ rows.map Prod.fst ∧ Chained rows p q

section Chains

variable {rows rows' : List DedupRow} {p q : Bytes}

theorem NearDuplicate.symm (h : NearDuplicate rows p q) : NearDuplicate rows q p := by
  obtain ⟨apart, a, mem_a, b, mem_b, id_a, id_b, enough⟩ := h
  exact ⟨apart.symm, b, mem_b, a, mem_a, id_b, id_a, matchingSlots_comm ▸ enough⟩

theorem Chained.symm (h : Chained rows p q) : Chained rows q p := by
  have near : Symm (NearDuplicate rows) := ⟨fun _ _ => NearDuplicate.symm⟩
  exact Relation.ReflTransGen.stdSymm.symm _ _ h

theorem Chained.trans {r : Bytes} (h : Chained rows p q) (h' : Chained rows q r) :
    Chained rows p r := Relation.ReflTransGen.trans h h'

/-- The chains are those of the rows in any order. -/
theorem chained_congr (same : ∀ a, a ∈ rows ↔ a ∈ rows') :
    Chained rows p q ↔ Chained rows' p q := by
  have near : NearDuplicate rows = NearDuplicate rows' := by
    funext p q
    simp only [NearDuplicate, same]
  rw [Chained, Chained, near]

theorem class_congr (same : ∀ a, a ∈ rows ↔ a ∈ rows') {ids : List Bytes} :
    Class rows ids ↔ Class rows' ids := by
  have known : ∀ p, p ∈ rows.map Prod.fst ↔ p ∈ rows'.map Prod.fst := by
    intro p
    simp only [List.mem_map, same]
  constructor
  · rintro ⟨sorted, p, mem, chained⟩
    refine ⟨sorted, p, (known p).mp mem, fun q => ?_⟩
    rw [chained, known, chained_congr same]
  · rintro ⟨sorted, p, mem, chained⟩
    refine ⟨sorted, p, (known p).mpr mem, fun q => ?_⟩
    rw [chained, known, chained_congr same]

/-- Rows with distinct ids are told apart by them. -/
theorem index_unique (distinct : (rows.map Prod.fst).Nodup) {i j : Nat} {a b : DedupRow}
    (at_i : rows[i]? = some a) (at_j : rows[j]? = some b) (same : a.1 = b.1) : i = j := by
  have left : (rows.map Prod.fst)[i]? = some a.1 := by simp [at_i]
  have right : (rows.map Prod.fst)[j]? = some a.1 := by simp [at_j, same]
  obtain ⟨i_in, -⟩ := List.getElem?_eq_some_iff.mp left
  exact (getElem?_inj i_in distinct).mp (left.trans right.symm)

end Chains

section Buckets

variable {xxh3 : Bytes → UInt64} {rows : List DedupRow} {i j : Nat} {a b : DedupRow}

theorem mem_bucketItems {band : Nat} {hash : UInt64} (at_i : rows[i]? = some a)
    (at_band : (bandHashes xxh3 a.2)[band]? = some hash) :
    ((band, hash), i) ∈ bucketItems xxh3 rows := by
  refine mem_flatMap.mpr ⟨(a, i), mem_zipIdx_iff_getElem?.mpr at_i, ?_⟩
  exact mem_map.mpr ⟨(hash, band), mem_zipIdx_iff_getElem?.mpr at_band, rfl⟩

theorem lt_of_mem_bucketItems {key : Nat × UInt64} (mem : (key, i) ∈ bucketItems xxh3 rows) :
    i < rows.length := by
  obtain ⟨⟨row, k⟩, at_k, mem⟩ := mem_flatMap.mp mem
  obtain ⟨_, -, eq⟩ := mem_map.mp mem
  obtain rfl : k = i := congrArg Prod.snd eq
  exact (List.getElem?_eq_some_iff.mp (mem_zipIdx_iff_getElem?.mp at_k)).1

theorem mem_pairsOf {l : List Nat} (mem_i : i ∈ l) (mem_j : j ∈ l) (apart : i ≠ j) :
    (i, j) ∈ pairsOf l ∨ (j, i) ∈ pairsOf l := by
  induction l with
  | nil => cases mem_i
  | cons k rest ih =>
    simp only [pairsOf, mem_append, List.mem_map, Prod.mk.injEq]
    rcases mem_cons.mp mem_i with rfl | rest_i
    · rcases mem_cons.mp mem_j with rfl | rest_j
      · exact absurd rfl apart
      · exact .inl (.inl ⟨j, rest_j, rfl, rfl⟩)
    · rcases mem_cons.mp mem_j with rfl | rest_j
      · exact .inr (.inl ⟨i, rest_i, rfl, rfl⟩)
      · exact (ih rest_i rest_j).imp .inr .inr

theorem mem_of_mem_pairsOf {l : List Nat} (mem : (i, j) ∈ pairsOf l) : i ∈ l ∧ j ∈ l := by
  induction l with
  | nil => cases mem
  | cons k rest ih =>
    simp only [pairsOf, mem_append, List.mem_map, Prod.mk.injEq] at mem
    rcases mem with ⟨_, mem, rfl, rfl⟩ | mem
    · exact ⟨mem_cons_self, mem_cons_of_mem _ mem⟩
    · exact ⟨mem_cons_of_mem _ (ih mem).1, mem_cons_of_mem _ (ih mem).2⟩

theorem pairsOf_eq_nil {l : List Nat} (short : l.length < 2) : pairsOf l = [] := by
  match l, short with
  | [], _ => rfl
  | [_], _ => rfl

/-- A pair above the threshold is in some bucket, in one order or the other. -/
theorem exists_bucket (xxh3 : Bytes → UInt64) (order : MapOrder ((Nat × UInt64) × List Nat)) (at_i :
    rows[i]? = some a)
    (at_j : rows[j]? = some b) (apart : i ≠ j) (near : 103 ≤ matchingSlots a.2 b.2) :
    ∃ bucket ∈ (order.arrange (collect (bucketItems xxh3 rows))).map Prod.snd,
      (i, j) ∈ pairsOf bucket ∨ (j, i) ∈ pairsOf bucket := by
  obtain ⟨band, hash, at_a, at_b⟩ := exists_common_band xxh3 near
  have mem_i := mem_itemsOf.mpr (mem_bucketItems at_i at_a)
  have mem_j := mem_itemsOf.mpr (mem_bucketItems at_j at_b)
  refine ⟨_, mem_map.mpr ⟨((band, hash), _), ?_, rfl⟩, mem_pairsOf mem_i mem_j apart⟩
  rw [(order.perm _).mem_iff, (collected_collect _).mem]
  exact ⟨ne_nil_of_mem mem_i, rfl⟩

end Buckets

section Components

open UnionFind

variable {xxh3 : Bytes → UInt64} {rows : List DedupRow} {uf : UnionFind} {x y : Nat}

/-- Components are chained, and the near pairs that were seen are in one component. -/
structure Grouped (rows : List DedupRow) (uf : UnionFind) (seen : List (Nat × Nat)) : Prop where
  wellFormed : uf.WellFormed rows.length
  sound : ∀ x y a b, rows[x]? = some a → rows[y]? = some b → uf.Same x y → Chained rows a.1 b.1
  complete : ∀ p ∈ seen, ∀ a b, rows[p.1]? = some a → rows[p.2]? = some b →
    103 ≤ matchingSlots a.2 b.2 → uf.Same p.1 p.2

theorem grouped_new (rows : List DedupRow) : Grouped rows (UnionFind.new rows.length) [] where
  wellFormed := wellFormed_new _
  sound x y a b at_x at_y same := by
    obtain rfl := same_new.mp same
    obtain rfl := some.inj (at_x.symm.trans at_y)
    exact .refl
  complete p mem := by cases mem

/-- A find changes no component. -/
theorem Grouped.of_sameRoots {uf' : UnionFind} {seen : List (Nat × Nat)} (h : Grouped rows uf seen)
    (wf : uf'.WellFormed rows.length) (same : SameRoots uf.parent uf'.parent) :
    Grouped rows uf' seen where
  wellFormed := wf
  sound x y a b at_x at_y joined := h.sound x y a b at_x at_y (same.same.mp joined)
  complete p mem a b at_a at_b near := same.same.mpr (h.complete p mem a b at_a at_b near)

theorem Grouped.union {uf' : UnionFind} {seen : List (Nat × Nat)} {i j : Nat} {a b : DedupRow}
    (h : Grouped rows uf seen) (at_i : rows[i]? = some a) (at_j : rows[j]? = some b)
    (chained : Chained rows a.1 b.1) (wf : uf'.WellFormed rows.length)
    (merged : ∀ x y, uf'.Same x y ↔
      uf.Same x y ∨ (uf.Same x i ∨ uf.Same x j) ∧ (uf.Same y i ∨ uf.Same y j)) :
    Grouped rows uf' seen where
  wellFormed := wf
  sound x y c d at_x at_y joined := by
    rcases (merged x y).mp joined with before | ⟨to_x, to_y⟩
    · exact h.sound x y c d at_x at_y before
    · -- both reach the pair
      have reach : ∀ z e, rows[z]? = some e → uf.Same z i ∨ uf.Same z j → Chained rows e.1 a.1 := by
        intro z e at_z to_z
        rcases to_z with to_i | to_j
        · exact h.sound z i e a at_z at_i to_i
        · exact (h.sound z j e b at_z at_j to_j).trans chained.symm
      exact (reach x c at_x to_x).trans (reach y d at_y to_y).symm
  complete p mem c d at_c at_d near := (merged _ _).mpr (.inl (h.complete p mem c d at_c at_d near))

/-- A pair that was looked at: joined before, joined now, or not near. -/
theorem Grouped.seen {seen : List (Nat × Nat)} {i j : Nat} (h : Grouped rows uf seen)
    (joined : ∀ a b, rows[i]? = some a → rows[j]? = some b → 103 ≤ matchingSlots a.2 b.2 →
      uf.Same i j) : Grouped rows uf (seen ++ [(i, j)]) where
  wellFormed := h.wellFormed
  sound := h.sound
  complete p mem := by
    rcases mem_append.mp mem with mem | mem
    · exact h.complete p mem
    · obtain rfl := mem_singleton.mp mem
      exact joined

theorem visitPair_spec (distinct : (rows.map Prod.fst).Nodup) {seen : List (Nat × Nat)} {i j : Nat}
    (h : Grouped rows uf seen) (i_in : i < rows.length) (j_in : j < rows.length) :
    ∃ uf', visitPair rows nearDuplicateJaccardThreshold uf (i, j) = some uf' ∧
      Grouped rows uf' (seen ++ [(i, j)]) := by
  obtain ⟨uf', now, ri, rj, found, found', wf, ri_in, rj_in, root_i, root_j, same⟩ :=
    find_find h.wellFormed i_in j_in
  have kept := h.of_sameRoots wf same
  have at_i := getElem?_eq_getElem i_in
  have at_j := getElem?_eq_getElem j_in
  simp only [visitPair, found, found', bind_eq_bind, bind_some, at_i, at_j]
  by_cases joined : ri = rj
  · subst joined
    exact ⟨now, by rw [if_pos rfl], kept.seen fun _ _ _ _ _ => ⟨ri, root_i, root_j⟩⟩
  · rw [if_neg joined]
    by_cases near : 103 ≤ matchingSlots rows[i].2 rows[j].2
    · rw [if_pos (threshold_le_iff.mpr near)]
      obtain ⟨uf'', done, wf', merged⟩ := union_spec wf i_in j_in
      have apart : rows[i].1 ≠ rows[j].1 := by
        intro same_id
        obtain rfl := index_unique distinct at_i at_j same_id
        exact joined (root_i.unique root_j)
      have chained : Chained rows rows[i].1 rows[j].1 :=
        .single ⟨apart, _, getElem_mem i_in, _, getElem_mem j_in, rfl, rfl, near⟩
      refine ⟨uf'', done, (kept.union at_i at_j chained wf' merged).seen fun _ _ _ _ _ => ?_⟩
      exact (merged i j).mpr (.inr ⟨.inl ⟨ri, root_i, root_i⟩, .inr ⟨rj, root_j, root_j⟩⟩)
    · rw [if_neg (threshold_le_iff.not.mpr near)]
      refine ⟨now, rfl, kept.seen fun a b at_a at_b enough => absurd ?_ near⟩
      rwa [some.inj (at_i.symm.trans at_a), some.inj (at_j.symm.trans at_b)]

theorem visitBucket_spec (distinct : (rows.map Prod.fst).Nodup) {seen : List (Nat × Nat)}
    {bucket : List Nat} (h : Grouped rows uf seen) (inside : ∀ i ∈ bucket, i < rows.length) :
    ∃ uf', visitBucket rows nearDuplicateJaccardThreshold uf bucket = some uf' ∧
      Grouped rows uf' (seen ++ pairsOf bucket) := by
  rw [visitBucket]
  split
  · next short =>
    refine ⟨uf, rfl, ?_⟩
    rwa [pairsOf_eq_nil short, append_nil]
  · refine exists_foldlM (fun uf done => Grouped rows uf (seen ++ done)) ?_ (by rwa [append_nil])
    rintro uf done ⟨i, j⟩ mem kept
    obtain ⟨mem_i, mem_j⟩ := mem_of_mem_pairsOf mem
    have next := visitPair_spec distinct kept (inside i mem_i) (inside j mem_j)
    rwa [← append_assoc]

/-- After all buckets, in any order, the components are the chains. -/
theorem visitBuckets_spec (xxh3 : Bytes → UInt64) (distinct : (rows.map Prod.fst).Nodup)
    (order : MapOrder ((Nat × UInt64) × List Nat)) :
    ∃ uf, ((order.arrange (collect (bucketItems xxh3 rows))).map Prod.snd).foldlM
        (visitBucket rows nearDuplicateJaccardThreshold) (UnionFind.new rows.length) = some uf ∧
      uf.WellFormed rows.length ∧ ∀ x y a b, rows[x]? = some a → rows[y]? = some b →
        (uf.Same x y ↔ Chained rows a.1 b.1) := by
  obtain ⟨uf, done, grouped⟩ := exists_foldlM
    (l := (order.arrange (collect (bucketItems xxh3 rows))).map Prod.snd)
    (fun uf buckets => Grouped rows uf (buckets.flatMap pairsOf)) (by
      intro uf seen bucket mem kept
      obtain ⟨⟨key, bucket⟩, entry, rfl⟩ := mem_map.mp mem
      have inside : ∀ i ∈ bucket, i < rows.length := by
        intro i mem_i
        rw [(order.perm _).mem_iff, (collected_collect _).mem] at entry
        rw [entry.2] at mem_i
        exact lt_of_mem_bucketItems (mem_itemsOf.mp mem_i)
      obtain ⟨uf', now, kept'⟩ := visitBucket_spec distinct kept inside
      exact ⟨uf', now, by simpa using kept'⟩) (grouped_new rows)
  refine ⟨uf, done, grouped.wellFormed, ?_⟩
  intro x y a b at_x at_y
  refine ⟨grouped.sound x y a b at_x at_y, ?_⟩
  intro chained
  generalize id_b : b.1 = q at chained
  induction chained generalizing y b with
  | refl =>
    obtain rfl := index_unique distinct at_x at_y id_b.symm
    exact Forest.SameTree.refl grouped.wellFormed.grounded x
  | @tail q r _ step ih =>
    obtain ⟨apart, c, mem_c, d, mem_d, rfl, rfl, near⟩ := step
    obtain ⟨z, at_z⟩ := mem_iff_getElem?.mp mem_c
    obtain ⟨y', at_y'⟩ := mem_iff_getElem?.mp mem_d
    obtain rfl := index_unique distinct at_y at_y' id_b
    obtain rfl := some.inj (at_y.symm.trans at_y')
    have differ : z ≠ y := by
      rintro rfl
      exact apart (congrArg Prod.fst (some.inj (at_z.symm.trans at_y)))
    have joined : uf.Same z y := by
      obtain ⟨bucket, mem, pair | pair⟩ := exists_bucket xxh3 order at_z at_y differ near
      · exact grouped.complete _ (mem_flatMap.mpr ⟨bucket, mem, pair⟩) _ _ at_z at_y near
      · exact (grouped.complete _ (mem_flatMap.mpr ⟨bucket, mem, pair⟩) _ _ at_y at_z
          (matchingSlots_comm ▸ near)).symm
    exact (ih z c at_z rfl).trans joined

theorem collectRoots_spec {n : Nat} (wf : uf.WellFormed n) {l : List Nat} (inside :
    ∀ i ∈ l, i < n) :
    ∃ roots, collectRoots uf l = some roots ∧ roots.map Prod.snd = l ∧
      ∀ p ∈ roots, Forest.RootOf (up uf.parent) p.2 p.1 := by
  induction l generalizing uf with
  | nil => exact ⟨[], rfl, rfl, by simp⟩
  | cons i rest ih =>
    obtain ⟨uf', root, found, wf', -, root_i, same⟩ := find_spec wf (inside i mem_cons_self)
    obtain ⟨roots, rest_roots, indices, climbs⟩ :=
      ih wf' fun j mem => inside j (mem_cons_of_mem _ mem)
    refine ⟨(root, i) :: roots, by simp [collectRoots, found, rest_roots], by simp [indices], ?_⟩
    intro p mem
    rcases mem_cons.mp mem with rfl | mem
    · exact root_i
    · exact (same.roots _ _).mp (climbs p mem)

/-- The components cover the rows, each the rows chained to any of its rows. -/
structure Partition (rows : List DedupRow) (components : List (List Nat)) : Prop where
  inside : ∀ m ∈ components, ∀ i ∈ m, i < rows.length
  once : ∀ m ∈ components, m.Nodup
  covered : ∀ i < rows.length, ∃ m ∈ components, i ∈ m
  apart : ∀ m ∈ components, ∀ m' ∈ components, ∀ i ∈ m, i ∈ m' → m = m'
  chained : ∀ m ∈ components, ∀ i ∈ m, ∀ j a b, rows[i]? = some a → rows[j]? = some b →
    (j ∈ m ↔ Chained rows a.1 b.1)

/-- The collected roots partition the rows by their chains. -/
theorem partition_collect (order : MapOrder (Nat × List Nat)) {roots : List (Nat × Nat)}
    (indices : roots.map Prod.snd = List.range rows.length)
    (climbs : ∀ p ∈ roots, Forest.RootOf (up uf.parent) p.2 p.1)
    (same : ∀ x y a b, rows[x]? = some a → rows[y]? = some b →
      (uf.Same x y ↔ Chained rows a.1 b.1)) :
    Partition rows ((order.arrange (collect roots)).map Prod.snd) := by
  have entry : ∀ m, m ∈ (order.arrange (collect roots)).map Prod.snd ↔
      ∃ root, m ≠ [] ∧ m = itemsOf roots root := by
    intro m
    rw [((order.perm _).map Prod.snd).mem_iff]
    constructor
    · intro mem
      obtain ⟨⟨root, _⟩, collected, rfl⟩ := mem_map.mp mem
      exact ⟨root, ((collected_collect roots).mem root _).mp collected⟩
    · rintro ⟨root, facts⟩
      exact mem_map.mpr ⟨(root, m), ((collected_collect roots).mem root m).mpr facts, rfl⟩
  have indexed : ∀ i, i < rows.length ↔ ∃ root, (root, i) ∈ roots := by
    intro i
    rw [← mem_range, ← indices, List.mem_map]
    constructor
    · rintro ⟨⟨root, _⟩, mem, rfl⟩
      exact ⟨root, mem⟩
    · rintro ⟨root, mem⟩
      exact ⟨(root, i), mem, rfl⟩
  have listed : ∀ root i, i ∈ itemsOf roots root ↔
      i < rows.length ∧ Forest.RootOf (up uf.parent) i root := by
    intro root i
    rw [mem_itemsOf]
    constructor
    · intro mem
      exact ⟨(indexed i).mpr ⟨root, mem⟩, climbs _ mem⟩
    · rintro ⟨i_in, root_i⟩
      obtain ⟨other, mem⟩ := (indexed i).mp i_in
      rwa [root_i.unique (climbs _ mem)]
  refine ⟨?_, ?_, ?_, ?_, ?_⟩
  · intro m mem i mem_i
    obtain ⟨root, -, rfl⟩ := (entry m).mp mem
    exact ((listed root i).mp mem_i).1
  · intro m mem
    obtain ⟨root, -, rfl⟩ := (entry m).mp mem
    have all : (roots.map Prod.snd).Nodup := indices ▸ nodup_range
    exact all.sublist (filter_sublist.map Prod.snd)
  · intro i i_in
    obtain ⟨root, mem⟩ := (indexed i).mp i_in
    have mem_i := mem_itemsOf.mpr mem
    exact ⟨_, (entry _).mpr ⟨root, ne_nil_of_mem mem_i, rfl⟩, mem_i⟩
  · intro m mem m' mem' i mem_i mem_i'
    obtain ⟨root, -, rfl⟩ := (entry m).mp mem
    obtain ⟨root', -, rfl⟩ := (entry m').mp mem'
    rw [((listed root i).mp mem_i).2.unique ((listed root' i).mp mem_i').2]
  · intro m mem i mem_i j a b at_i at_j
    obtain ⟨root, -, rfl⟩ := (entry m).mp mem
    have root_i := ((listed root i).mp mem_i).2
    obtain ⟨j_in, -⟩ := List.getElem?_eq_some_iff.mp at_j
    rw [listed, ← same i j a b at_i at_j]
    constructor
    · rintro ⟨-, root_j⟩
      exact ⟨root, root_i, root_j⟩
    · rintro ⟨root', root_i', root_j⟩
      exact ⟨j_in, root_i.unique root_i' ▸ root_j⟩

end Components

section Groups

variable {xxh3 : Bytes → UInt64} {rows : List DedupRow} {components : List (List Nat)}

/-- The ids of a component in order. -/
def idsOf (rows : List DedupRow) (members : List Nat) : List Bytes :=
  sortIds (members.filterMap fun i => rows[i]?.map Prod.fst)

/-- The name of a component. -/
def groupId (xxh3 : Bytes → UInt64) (rows : List DedupRow) (members : List Nat) : Option UInt64 :=
  (idsOf rows members).head?.map xxh3

variable {g : NearDuplicateGrouping} {p q : Bytes} {m members : List Nat} {ids : List Bytes}

theorem mem_idsOf : p ∈ idsOf rows members ↔ ∃ i ∈ members, ∃ a, rows[i]? = some a ∧ a.1 = p := by
  simp only [idsOf, sortIds, mem_mergeSort, mem_filterMap, map_eq_some_iff]

theorem pairwise_sortIds (once : ids.Nodup) :
    (sortIds ids).Pairwise fun p q => compare p q = .lt := by
  have sorted : (sortIds ids).Pairwise fun p q => decide (compare p q ≠ .gt) := by
    refine pairwise_mergeSort ?_ ?_ ids
    · intro p q r
      simp only [ne_eq, decide_eq_true_eq, ← Ordering.isLE_iff_ne_gt]
      exact TransCmp.isLE_trans
    · intro p q
      rw [@OrientedCmp.eq_swap _ compare _ q]
      cases compare p q <;> rfl
  have different : (sortIds ids).Nodup := (mergeSort_perm _ _).nodup_iff.mpr once
  refine (sorted.and different).imp ?_
  rintro p q ⟨le, apart⟩
  have le : compare p q ≠ .gt := of_decide_eq_true le
  have apart : compare p q ≠ .eq := fun same => apart (LawfulEqCmp.eq_of_compare same)
  cases h : compare p q
  · rfl
  · exact absurd h apart
  · exact absurd h le

theorem nodup_members (distinct : (rows.map Prod.fst).Nodup) (once : members.Nodup) :
    (members.filterMap fun i => rows[i]?.map Prod.fst).Nodup := by
  refine List.Nodup.filterMap ?_ once
  intro i j p at_i at_j
  obtain ⟨a, row_i, rfl⟩ := map_eq_some_iff.mp at_i
  obtain ⟨b, row_j, same⟩ := map_eq_some_iff.mp at_j
  exact index_unique distinct row_i row_j same.symm

theorem length_idsOf (inside : ∀ i ∈ members, i < rows.length) :
    (idsOf rows members).length = members.length := by
  rw [idsOf, sortIds, length_mergeSort]
  induction members with
  | nil => rfl
  | cons i rest ih =>
    have at_i := getElem?_eq_getElem (inside i mem_cons_self)
    have later := ih fun j mem => inside j (mem_cons_of_mem _ mem)
    rw [filterMap_cons, at_i, map_some, length_cons, later, length_cons]

theorem Partition.class_idsOf (distinct : (rows.map Prod.fst).Nodup)
    (partition : Partition rows components) (mem : m ∈ components) (some_row : m ≠ []) :
    Class rows (idsOf rows m) where
  sorted := pairwise_sortIds (nodup_members distinct (partition.once m mem))
  chained := by
    obtain ⟨i, mem_i⟩ := exists_mem_of_ne_nil m some_row
    have i_in := partition.inside m mem i mem_i
    have at_i := getElem?_eq_getElem i_in
    refine ⟨rows[i].1, mem_map.mpr ⟨_, getElem_mem i_in, rfl⟩, fun q => ?_⟩
    rw [mem_idsOf]
    constructor
    · rintro ⟨j, mem_j, b, at_j, rfl⟩
      exact ⟨mem_map.mpr ⟨b, mem_of_getElem? at_j, rfl⟩,
        (partition.chained m mem i mem_i j _ b at_i at_j).mp mem_j⟩
    · rintro ⟨known, chained⟩
      obtain ⟨b, mem_b, rfl⟩ := mem_map.mp known
      obtain ⟨j, at_j⟩ := mem_iff_getElem?.mp mem_b
      exact ⟨j, (partition.chained m mem i mem_i j _ b at_i at_j).mpr chained, b, at_j, rfl⟩

/-- A class is told by any of its ids. -/
theorem Class.eq {ids' : List Bytes} (h : Class rows ids) (h' : Class rows ids') (mem : p ∈ ids)
    (mem' : p ∈ ids') : ids = ids' := by
  obtain ⟨sorted, r, -, chained⟩ := h
  obtain ⟨sorted', r', -, chained'⟩ := h'
  have between : Chained rows r r' := ((chained p).mp mem).2.trans ((chained' p).mp mem').2.symm
  refine eq_of_ordered_of_mem_iff id sorted sorted' fun q => ?_
  rw [chained, chained']
  exact and_congr_right fun _ => ⟨between.symm.trans, between.trans⟩

/-- The classes are the components, in order. -/
theorem Partition.class_iff (distinct : (rows.map Prod.fst).Nodup)
    (partition : Partition rows components) :
    Class rows ids ↔ ∃ m ∈ components, m ≠ [] ∧ ids = idsOf rows m := by
  constructor
  · intro h
    obtain ⟨p, known, chained⟩ := h.chained
    obtain ⟨a, mem_a, rfl⟩ := mem_map.mp known
    obtain ⟨i, at_i⟩ := mem_iff_getElem?.mp mem_a
    obtain ⟨i_in, -⟩ := List.getElem?_eq_some_iff.mp at_i
    obtain ⟨m, mem, mem_i⟩ := partition.covered i i_in
    have some_row := ne_nil_of_mem mem_i
    refine ⟨m, mem, some_row, h.eq (partition.class_idsOf distinct mem some_row) (p := a.1) ?_ ?_⟩
    · exact (chained _).mpr ⟨known, .refl⟩
    · exact mem_idsOf.mpr ⟨i, mem_i, a, at_i, rfl⟩
  · rintro ⟨m, mem, some_row, rfl⟩
    exact partition.class_idsOf distinct mem some_row

/-- Two components of one name are the same, as the names of two ids differ. -/
theorem Partition.groupId_injective (distinct : (rows.map Prod.fst).Nodup)
    (injective : Set.InjOn xxh3 {p | p ∈ rows.map Prod.fst}) (partition : Partition rows components)
    {m' : List Nat} (mem : m ∈ components) (mem' : m' ∈ components) {g : UInt64}
    (named : groupId xxh3 rows m = some g) (named' : groupId xxh3 rows m' = some g) : m = m' := by
  obtain ⟨p, first, rfl⟩ := map_eq_some_iff.mp named
  obtain ⟨p', first', hash⟩ := map_eq_some_iff.mp named'
  obtain ⟨i, mem_i, a, at_i, rfl⟩ := mem_idsOf.mp (mem_of_mem_head? first)
  obtain ⟨j, mem_j, b, at_j, rfl⟩ := mem_idsOf.mp (mem_of_mem_head? first')
  have same : b.1 = a.1 := injective (mem_map.mpr ⟨b, mem_of_getElem? at_j, rfl⟩)
    (mem_map.mpr ⟨a, mem_of_getElem? at_i, rfl⟩) hash
  obtain rfl := index_unique distinct at_j at_i same
  exact partition.apart m mem m' mem' j mem_i mem_j

/-- What has been assigned after some of the components. -/
structure AssignedFrom (xxh3 : Bytes → UInt64) (rows : List DedupRow) (components : List (List Nat))
    (acc : Assigned) (done : List (List Nat)) : Prop where
  part : ∀ m ∈ done, m ∈ components
  length : acc.rowToGroup.length = rows.length
  rowToGroup : ∀ i g, acc.rowToGroup[i]? = some (some g) ↔
    ∃ m ∈ done, 2 ≤ m.length ∧ i ∈ m ∧ groupId xxh3 rows m = some g
  groups : ∀ g ids, acc.groups[g]? = some ids ↔
    ∃ m ∈ done, 2 ≤ m.length ∧ groupId xxh3 rows m = some g ∧ ids = idsOf rows m

theorem assignedFrom_nil : AssignedFrom xxh3 rows components
    ⟨List.replicate rows.length none, ∅⟩ [] where
  part := by simp
  length := length_replicate
  rowToGroup i g := by
    simp only [getElem?_replicate, not_mem_nil, false_and, exists_false, iff_false]
    split <;> simp
  groups g ids := by simp

theorem getElem?_foldl_set {α : Type*} (members : List Nat) (v : α) (l : List α) (i : Nat) :
    (members.foldl (fun l i => l.set i v) l)[i]? =
      if i ∈ members ∧ i < l.length then some v else l[i]? := by
  induction members generalizing l with
  | nil => simp
  | cons j rest ih =>
    rw [foldl_cons, ih, length_set, getElem?_set]
    by_cases here : j = i
    · subst here
      by_cases inside : j < l.length <;> simp [inside]
    · simp [here, Ne.symm here]

theorem length_foldl_set {α : Type*} (members : List Nat) (v : α) (l : List α) :
    (members.foldl (fun l i => l.set i v) l).length = l.length := by
  induction members generalizing l with
  | nil => rfl
  | cons j rest ih => rw [foldl_cons, ih, length_set]

theorem mapM_ids (inside : ∀ i ∈ members, i < rows.length) :
    members.mapM (fun i => rows[i]?.map Prod.fst) =
      some (members.filterMap fun i => rows[i]?.map Prod.fst) := by
  induction members with
  | nil => rfl
  | cons i rest ih =>
    have at_i := getElem?_eq_getElem (inside i mem_cons_self)
    have later := ih fun j mem => inside j (mem_cons_of_mem _ mem)
    rw [mapM_cons, filterMap_cons, later, at_i]
    rfl

/-- A component gets its group, and its rows their identifier. -/
theorem assignComponent_spec (distinct : (rows.map Prod.fst).Nodup)
    (injective : Set.InjOn xxh3 {p | p ∈ rows.map Prod.fst}) (partition : Partition rows components)
    {acc : Assigned} {done : List (List Nat)} (mem : m ∈ components)
    (kept : AssignedFrom xxh3 rows components acc done) :
    ∃ acc', assignComponent xxh3 rows acc m = some acc' ∧
      AssignedFrom xxh3 rows components acc' (done ++ [m]) := by
  have part : ∀ m' ∈ done ++ [m], m' ∈ components := by
    intro m' mem'
    rcases mem_append.mp mem' with before | now
    · exact kept.part m' before
    · rwa [mem_singleton.mp now]
  rw [assignComponent]
  by_cases short : m.length < 2
  · have small : ¬2 ≤ m.length := Nat.not_le_of_lt short
    refine ⟨acc, by rw [if_pos short], part, kept.length, fun i g => ?_, fun g ids => ?_⟩
    · simp [kept.rowToGroup, or_and_right, exists_or, small]
    · simp [kept.groups, or_and_right, exists_or, small]
  · have large : 2 ≤ m.length := Nat.le_of_not_lt short
    have inside := partition.inside m mem
    have some_id : 0 < (idsOf rows m).length := by
      rw [length_idsOf inside]
      omega
    obtain ⟨first, at_first⟩ : ∃ first, (idsOf rows m)[0]? = some first :=
      ⟨_, getElem?_eq_getElem some_id⟩
    have named : groupId xxh3 rows m = some (xxh3 first) := by
      rw [groupId, head?_eq_getElem?, at_first, map_some]
    rw [if_neg short, mapM_ids inside]
    refine ⟨_, by
      rw [bind_eq_bind, bind_some, ← idsOf]
      dsimp only
      rw [at_first]
      rfl, part, (length_foldl_set ..).trans kept.length, ?_, ?_⟩
    · intro i g
      rw [getElem?_foldl_set, kept.length]
      by_cases mem_i : i ∈ m
      · rw [if_pos ⟨mem_i, inside i mem_i⟩]
        constructor
        · intro same
          obtain rfl := some.inj (some.inj same)
          exact ⟨m, by simp, large, mem_i, named⟩
        · rintro ⟨m', mem', -, mem_i', named'⟩
          obtain rfl := partition.apart m mem m' (part m' mem') i mem_i mem_i'
          rw [← named, named']
      · rw [if_neg fun both => mem_i both.1, kept.rowToGroup]
        simp [or_and_right, exists_or, mem_i]
    · intro g ids
      rw [ExtTreeMap.getElem?_insert]
      split
      · next same =>
        obtain rfl := LawfulEqCmp.eq_of_compare same
        constructor
        · intro stored
          exact ⟨m, by simp, large, named, (some.inj stored).symm⟩
        · rintro ⟨m', mem', -, named', rfl⟩
          rw [partition.groupId_injective distinct injective (part m' mem') mem named' named]
      · next other =>
        have differ : groupId xxh3 rows m ≠ some g := by
          intro same
          rw [named, some.injEq] at same
          exact other (same ▸ ReflCmp.compare_self)
        simp [kept.groups, or_and_right, exists_or, differ]

/-- What the grouping says: its groups are the classes of at least two ids, each under the hash
of its least id, and a row is told the group that lists it. -/
structure Tells (xxh3 : Bytes → UInt64) (rows : List DedupRow) (g : NearDuplicateGrouping) :
    Prop where
  assignments : g.assignments.map Prod.fst = rows.map Prod.fst
  groups : ∀ h ids, g.groups[h]? = some ids ↔
    Class rows ids ∧ 2 ≤ ids.length ∧ ids.head?.map xxh3 = some h
  groupOf : ∀ p h, g.groupOf p = some h ↔ ∃ ids, g.groups[h]? = some ids ∧ p ∈ ids

/-- The group of a row is the one at its place. -/
theorem groupOf_zipIdx (distinct : (rows.map Prod.fst).Nodup) {rowToGroup : List (Option UInt64)}
    {groups : ExtTreeMap UInt64 (List Bytes) compare} {h : UInt64} :
    NearDuplicateGrouping.groupOf
        ⟨rows.zipIdx.map fun (row, i) => (row.1, rowToGroup[i]?.join), groups⟩ p = some h ↔
      ∃ (i : Nat) (a : DedupRow), rows[i]? = some a ∧ a.1 = p ∧ rowToGroup[i]? = some (some h) := by
  have joined : ∀ i : Nat, rowToGroup[i]?.join = some h ↔ rowToGroup[i]? = some (some h) := by
    intro i
    rw [join_eq_some_iff]
  rw [NearDuplicateGrouping.groupOf]
  cases found : (rows.zipIdx.map fun (row, i) => (row.1, rowToGroup[i]?.join)).find?
      fun a => a.1 = p with
  | none =>
    simp only [reduceCtorEq, false_iff]
    rintro ⟨i, a, at_i, rfl, -⟩
    refine find?_eq_none.mp found (a.1, rowToGroup[i]?.join) ?_ (decide_eq_true rfl)
    exact mem_map.mpr ⟨(a, i), mem_zipIdx_iff_getElem?.mpr at_i, rfl⟩
  | some entry =>
    have matched : entry.1 = p := by simpa using find?_some found
    obtain ⟨⟨a, i⟩, mem, rfl⟩ := mem_map.mp (mem_of_find?_eq_some found)
    have at_i : rows[i]? = some a := mem_zipIdx_iff_getElem?.mp mem
    subst matched
    simp only [joined]
    constructor
    · intro told
      exact ⟨i, a, at_i, rfl, told⟩
    · rintro ⟨j, b, at_j, same, told⟩
      rwa [index_unique distinct at_i at_j same.symm]

theorem groupNearDuplicates_tells (distinct : (rows.map Prod.fst).Nodup)
    (injective : Set.InjOn xxh3 {p | p ∈ rows.map Prod.fst})
    (bucketOrder : MapOrder ((Nat × UInt64) × List Nat))
    (componentOrder : MapOrder (Nat × List Nat)) :
    ∃ g, groupNearDuplicates xxh3 bucketOrder componentOrder rows nearDuplicateJaccardThreshold =
      some g ∧ Tells xxh3 rows g := by
  by_cases empty : rows = []
  · subst empty
    refine ⟨⟨[], ∅⟩, rfl, rfl, ?_, ?_⟩
    · intro h ids
      simp only [ExtTreeMap.getElem?_empty, reduceCtorEq, false_iff]
      rintro ⟨⟨-, p, known, -⟩, -⟩
      cases known
    · simp [NearDuplicateGrouping.groupOf]
  obtain ⟨uf, buckets_done, wf, same⟩ := visitBuckets_spec xxh3 distinct bucketOrder
  obtain ⟨roots, collected, indices, climbs⟩ :=
    collectRoots_spec wf (l := List.range rows.length) fun i mem => mem_range.mp mem
  have partition := partition_collect componentOrder indices climbs same
  obtain ⟨acc, assigned, final⟩ := exists_foldlM (AssignedFrom xxh3 rows
    ((componentOrder.arrange (collect roots)).map Prod.snd)) (fun acc done m mem kept =>
      assignComponent_spec distinct injective partition mem kept) assignedFrom_nil
  have groups : ∀ h ids, acc.groups[h]? = some ids ↔
      Class rows ids ∧ 2 ≤ ids.length ∧ ids.head?.map xxh3 = some h := by
    intro h ids
    rw [final.groups, partition.class_iff distinct]
    constructor
    · rintro ⟨m, mem, large, named, rfl⟩
      refine ⟨⟨m, mem, ?_, rfl⟩, ?_, named⟩
      · rintro rfl
        cases large
      · rwa [length_idsOf (partition.inside m mem)]
    · rintro ⟨⟨m, mem, -, rfl⟩, large, named⟩
      rw [length_idsOf (partition.inside m mem)] at large
      exact ⟨m, mem, large, named, rfl⟩
  refine ⟨⟨rows.zipIdx.map fun (row, i) => (row.1, acc.rowToGroup[i]?.join), acc.groups⟩, ?_, ?_,
    groups, ?_⟩
  · simp [groupNearDuplicates, empty, buckets_done, collected, assigned]
  · rw [List.map_map]
    conv_rhs => rw [← zipIdx_map_fst 0 rows, List.map_map]
    rfl
  · intro p h
    rw [groupOf_zipIdx distinct]
    constructor
    · rintro ⟨i, a, at_i, rfl, told⟩
      obtain ⟨m, mem, large, mem_i, named⟩ := (final.rowToGroup i h).mp told
      exact ⟨_, (final.groups h _).mpr ⟨m, mem, large, named, rfl⟩,
        mem_idsOf.mpr ⟨i, mem_i, a, at_i, rfl⟩⟩
    · rintro ⟨ids, stored, mem_p⟩
      obtain ⟨m, mem, large, named, rfl⟩ := (final.groups h ids).mp stored
      obtain ⟨i, mem_i, a, at_i, rfl⟩ := mem_idsOf.mp mem_p
      exact ⟨i, a, at_i, rfl, (final.rowToGroup i h).mpr ⟨m, mem, large, mem_i, named⟩⟩

/-- A chain to another id starts with a near-duplicate. -/
theorem exists_partner (chained : Chained rows p q) (apart : p ≠ q) :
    ∃ r, NearDuplicate rows p r := by
  rcases Relation.ReflTransGen.cases_head chained with same | ⟨r, near, -⟩
  · exact absurd same apart
  · exact ⟨r, near⟩

/-- A row with a near-duplicate is in a class of two ids or more. -/
theorem Tells.exists_group (tells : Tells xxh3 rows g) (distinct : (rows.map Prod.fst).Nodup)
    (known : p ∈ rows.map Prod.fst) (known' : q ∈ rows.map Prod.fst) (chained : Chained rows p q)
    (apart : p ≠ q) :
    ∃ (h : UInt64) (ids : List Bytes), g.groups[h]? = some ids ∧ p ∈ ids ∧ q ∈ ids := by
  classical
  obtain ⟨ids, sorted, mem⟩ : ∃ ids : List Bytes, (ids.Pairwise fun r s => compare r s = .lt) ∧
      ∀ r, r ∈ ids ↔ r ∈ rows.map Prod.fst ∧ Chained rows p r := by
    refine ⟨sortIds ((rows.map Prod.fst).filter fun r => Chained rows p r),
      pairwise_sortIds (distinct.filter _), fun r => ?_⟩
    simp only [sortIds, mem_mergeSort, mem_filter, decide_eq_true_eq]
  have class_ids : Class rows ids := ⟨sorted, p, known, mem⟩
  have mem_p := (mem p).mpr ⟨known, .refl⟩
  have mem_q := (mem q).mpr ⟨known', chained⟩
  match ids with
  | [] => cases mem_p
  | [r] =>
    rw [mem_singleton] at mem_p mem_q
    exact absurd (mem_p.trans mem_q.symm) apart
  | r :: s :: rest =>
    refine ⟨xxh3 r, r :: s :: rest, (tells.groups _ _).mpr ⟨class_ids, ?_, rfl⟩, mem_p, mem_q⟩
    rw [length_cons, length_cons]
    omega

theorem Tells.groupOf_eq_iff (tells : Tells xxh3 rows g) (distinct : (rows.map Prod.fst).Nodup)
    (known : p ∈ rows.map Prod.fst) (known' : q ∈ rows.map Prod.fst) (apart : p ≠ q) :
    (∃ h, g.groupOf p = some h ∧ g.groupOf q = some h) ↔ Chained rows p q := by
  constructor
  · rintro ⟨h, told, told'⟩
    obtain ⟨ids, stored, mem⟩ := (tells.groupOf p h).mp told
    obtain ⟨ids', stored', mem'⟩ := (tells.groupOf q h).mp told'
    obtain rfl := some.inj (stored.symm.trans stored')
    obtain ⟨⟨-, r, -, chained⟩, -⟩ := (tells.groups h ids).mp stored
    exact ((chained p).mp mem).2.symm.trans ((chained q).mp mem').2
  · intro chained
    obtain ⟨h, ids, stored, mem, mem'⟩ := tells.exists_group distinct known known' chained apart
    exact ⟨h, (tells.groupOf p h).mpr ⟨ids, stored, mem⟩,
      (tells.groupOf q h).mpr ⟨ids, stored, mem'⟩⟩

theorem Tells.groupOf_eq_none_iff (tells : Tells xxh3 rows g) (distinct : (rows.map Prod.fst).Nodup)
    (known : p ∈ rows.map Prod.fst) : g.groupOf p = none ↔ ¬∃ q, NearDuplicate rows p q := by
  rw [eq_none_iff_forall_ne_some, not_exists]
  constructor
  · rintro alone q ⟨apart, a, mem_a, b, mem_b, rfl, rfl, near⟩
    have known' : b.1 ∈ rows.map Prod.fst := mem_map.mpr ⟨b, mem_b, rfl⟩
    obtain ⟨h, ids, stored, mem, -⟩ := tells.exists_group distinct known known'
      (.single ⟨apart, a, mem_a, b, mem_b, rfl, rfl, near⟩) apart
    exact alone h ((tells.groupOf a.1 h).mpr ⟨ids, stored, mem⟩)
  · intro alone h told
    obtain ⟨ids, stored, mem⟩ := (tells.groupOf p h).mp told
    obtain ⟨⟨sorted, r, -, chained⟩, large, -⟩ := (tells.groups h ids).mp stored
    obtain ⟨q, mem_q, apart⟩ : ∃ q ∈ ids, p ≠ q := by
      match ids, large with
      | s :: t :: rest, _ =>
        by_cases same : p = s
        · refine ⟨t, by simp, ?_⟩
          rintro rfl
          have less := (pairwise_cons.mp sorted).1 p (by simp)
          exact absurd less (same ▸ by simp)
        · exact ⟨s, by simp, same⟩
    obtain ⟨q', near⟩ :=
      exists_partner (((chained p).mp mem).2.symm.trans ((chained q).mp mem_q).2) apart
    exact alone q' near

/-- Groupings of the same rows say the same. -/
theorem Tells.same {rows' : List DedupRow} {g' : NearDuplicateGrouping} (tells : Tells xxh3 rows g)
    (tells' : Tells xxh3 rows' g') (perm : rows'.Perm rows) :
    g'.groups = g.groups ∧ ∀ p, g'.groupOf p = g.groupOf p := by
  have stored : ∀ h : UInt64, g'.groups[h]? = g.groups[h]? := by
    intro h
    refine ext fun ids => ?_
    rw [tells.groups, tells'.groups, class_congr fun a => perm.mem_iff]
  refine ⟨ExtTreeMap.ext_getElem? fun {h} => stored h, fun p => ext fun h => ?_⟩
  rw [tells.groupOf, tells'.groupOf, stored]

end Groups

/-- Grouping at 0.8 is the brute-force grouping, whatever the order of the hash maps and of the
rows: 0.8 is 103 slots, such a pair shares a bucket, two rows have one group exactly if a chain of
such pairs joins them, and a row has none exactly if it is in no such pair. -/
theorem groupNearDuplicates_chained (xxh3 : Bytes → UInt64) (rows : List DedupRow)
    (distinct : (rows.map Prod.fst).Nodup)
    (injective : Set.InjOn xxh3 {p | p ∈ rows.map Prod.fst}) :
    (∀ a ∈ rows, ∀ b ∈ rows,
      (nearDuplicateJaccardThreshold ≤ estimateJaccard a.2 b.2 ↔ 103 ≤ matchingSlots a.2 b.2) ∧
      (103 ≤ matchingSlots a.2 b.2 → ∃ (band : Nat) (hash : UInt64),
        (bandHashes xxh3 a.2)[band]? = some hash ∧ (bandHashes xxh3 b.2)[band]? = some hash)) ∧
    ∀ (bucketOrder : MapOrder ((Nat × UInt64) × List Nat))
      (componentOrder : MapOrder (Nat × List Nat)),
      ∃ g, groupNearDuplicates xxh3 bucketOrder componentOrder rows nearDuplicateJaccardThreshold =
          some g ∧
        g.assignments.map Prod.fst = rows.map Prod.fst ∧
        (∀ a ∈ rows, ∀ b ∈ rows, a.1 ≠ b.1 →
          ((∃ h, g.groupOf a.1 = some h ∧ g.groupOf b.1 = some h) ↔ Chained rows a.1 b.1)) ∧
        (∀ a ∈ rows, g.groupOf a.1 = none ↔ ¬∃ q, NearDuplicate rows a.1 q) ∧
        ∀ (rows' : List DedupRow), rows'.Perm rows →
          ∀ (bucketOrder' : MapOrder ((Nat × UInt64) × List Nat))
            (componentOrder' : MapOrder (Nat × List Nat)),
            ∃ g', groupNearDuplicates xxh3 bucketOrder' componentOrder' rows'
                nearDuplicateJaccardThreshold = some g' ∧
              g'.groups = g.groups ∧ ∀ p, g'.groupOf p = g.groupOf p := by
  refine ⟨fun a _ b _ => ⟨threshold_le_iff, exists_common_band xxh3⟩, ?_⟩
  intro bucketOrder componentOrder
  have known : ∀ a ∈ rows, a.1 ∈ rows.map Prod.fst := fun a mem => mem_map.mpr ⟨a, mem, rfl⟩
  obtain ⟨g, grouped, tells⟩ :=
    groupNearDuplicates_tells distinct injective bucketOrder componentOrder
  refine ⟨g, grouped, tells.assignments, ?_, ?_, ?_⟩
  · intro a mem_a b mem_b apart
    exact tells.groupOf_eq_iff distinct (known a mem_a) (known b mem_b) apart
  · intro a mem_a
    exact tells.groupOf_eq_none_iff distinct (known a mem_a)
  · intro rows' perm bucketOrder' componentOrder'
    have ids := perm.map Prod.fst
    have distinct' : (rows'.map Prod.fst).Nodup := ids.nodup_iff.mpr distinct
    have injective' : Set.InjOn xxh3 {p | p ∈ rows'.map Prod.fst} := by
      have same : {p | p ∈ rows'.map Prod.fst} = {p | p ∈ rows.map Prod.fst} :=
        Set.ext fun p => ids.mem_iff
      rwa [same]
    obtain ⟨g', grouped', tells'⟩ :=
      groupNearDuplicates_tells distinct' injective' bucketOrder' componentOrder'
    exact ⟨g', grouped', tells.same tells' perm⟩

/-- The hash on the bytes that `sampleRows` asks for. -/
def sampleHash (b : Bytes) : UInt64 :=
  if b = ascii "a" then 0xe6c632b61e964e1f
  else if b = ascii "b" then 0x575a0b1c44d8843f
  else if b = ascii "c" then 0x8c40219a46b9f81b
  else if b = List.replicate 16 0 then 0xd0a66a65c7528968
  else if b = [1, 0, 0, 0, 1, 0, 0, 0, 1, 0, 0, 0, 1, 0, 0, 0] then 0x60032e175d2692ba
  else 0

/-- A row with one value in all slots. -/
def flatRow (rowId : String) (slot : UInt32) : DedupRow :=
  (ascii rowId, ⟨Vector.replicate numHashes slot⟩)

def sampleRows : List DedupRow := [flatRow "a" 0, flatRow "b" 0, flatRow "c" 1]

theorem groupNearDuplicates_chained_sample :
    (sampleRows.map Prod.fst).Nodup ∧ Set.InjOn sampleHash {p | p ∈ sampleRows.map Prod.fst} ∧
      ∃ g, groupNearDuplicates sampleHash (.plain _) (.reversed _) sampleRows
          nearDuplicateJaccardThreshold = some g ∧
        ∃ h, g.groupOf (ascii "a") = some h ∧ g.groupOf (ascii "b") = some h := by
  have distinct : (sampleRows.map Prod.fst).Nodup := by decide
  have injective : Set.InjOn sampleHash {p | p ∈ sampleRows.map Prod.fst} := by
    intro p mem q mem' same
    have all : ∀ p ∈ sampleRows.map Prod.fst, ∀ q ∈ sampleRows.map Prod.fst,
        sampleHash p = sampleHash q → p = q := by decide
    exact all p mem q mem' same
  obtain ⟨g, grouped, -, chained, -⟩ :=
    (groupNearDuplicates_chained sampleHash sampleRows distinct injective).2 (.plain _)
      (.reversed _)
  refine ⟨distinct, injective, g, grouped, ?_⟩
  have mem_a : flatRow "a" 0 ∈ sampleRows := by simp [sampleRows]
  have mem_b : flatRow "b" 0 ∈ sampleRows := by simp [sampleRows]
  have apart : (flatRow "a" 0).1 ≠ (flatRow "b" 0).1 := by decide
  have near : 103 ≤ matchingSlots (flatRow "a" 0).2 (flatRow "b" 0).2 := by
    rw [show (flatRow "a" 0).2 = (flatRow "b" 0).2 from rfl, matchingSlots_self]
    decide
  exact (chained _ mem_a _ mem_b apart).mpr (.single ⟨apart, _, mem_a, _, mem_b, rfl, rfl, near⟩)

end GalaxDb.Versioning
