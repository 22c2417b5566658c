import GalaxDb.Lib.Collect
import Mathlib.Data.Finset.Card
import Mathlib.Data.UInt

/-!
# The builder of the graph

Random neighbors at first, then two passes over the points: a search from the medoid, the pruned
nodes that were met as the new neighbors, and an edge back from each of them. Nothing is the result
where an index is out of bounds or the random numbers are used up.
-/

namespace GalaxDb.Vamana

open List Option

abbrev NodeId := UInt32

/-- Floats by their bits. -/
abbrev Vector := List UInt32

section Builder

/-- What the builder does with vectors and distances. The order of distances may be any relation,
and a sort any rearrangement. -/
structure Space (D : Type) where
  normalize : Vector → Vector
  normalize_length : ∀ v, (normalize v).length = v.length
  distance : Vector → Vector → D
  centroid : List Vector → Vector
  closer : D → D → Bool
  farthest : D
  one : D
  scaledAtMost : D → D → D → Bool
  sort : List (NodeId × D) → List (NodeId × D)
  sort_perm : ∀ l, (sort l).Perm l

structure Config (D : Type) where
  dim : Nat
  r : Nat
  lBuild : Nat
  alpha : D

structure VamanaBuilder (D : Type) where
  config : Config D
  vectors : List Vector
  graph : List (List NodeId)
  medoid : NodeId

variable {D : Type} (S : Space D)

/-- The first of the closest. -/
def minBy : List (NodeId × D) → Option (NodeId × D)
  | [] => none
  | c :: rest => some (rest.foldl (fun x y => if S.closer y.2 x.2 then y else x) c)

structure Beam (D : Type) where
  list : List (NodeId × D)
  visited : Finset NodeId
  expanded : Finset NodeId
  allVisited : List NodeId

namespace VamanaBuilder

def new (vectors : List Vector) (config : Config D) : VamanaBuilder D :=
  ⟨config, vectors, List.replicate vectors.length [], 0⟩

def distV (b : VamanaBuilder D) (q : Vector) (id : NodeId) : Option D :=
  b.vectors[id.toNat]?.map (S.distance q)

def dist (b : VamanaBuilder D) (x y : NodeId) : Option D :=
  b.vectors[x.toNat]?.bind fun q => b.distV S q y

/-- The node closest to the centroid, by the index narrowed to 32 bits. -/
def computeMedoid (b : VamanaBuilder D) : Option NodeId := do
  let q := S.centroid b.vectors
  let best ← (List.range b.vectors.length).foldlM (fun (best : NodeId × D) i => do
    let d ← b.distV S q i.toUInt32
    some (if S.closer d best.2 then (i.toUInt32, d) else best)) (0, S.farthest)
  some best.1

/-- A neighbor that was not visited before joins the list. -/
def visit (b : VamanaBuilder D) (query : Vector) (beam : Beam D) (nb : NodeId) : Option (Beam D) :=
  if nb ∈ beam.visited then some beam
  else do
    let d ← b.distV S query nb
    some { beam with
      list := beam.list ++ [(nb, d)]
      visited := insert nb beam.visited
      allVisited := beam.allVisited ++ [nb] }

/-- Rounds until every node on the list is expanded. -/
def rounds (b : VamanaBuilder D) (query : Vector) (l : Nat) : Nat → Beam D → Option (List NodeId)
  | 0, _ => none
  | fuel + 1, beam =>
    match minBy S (beam.list.filter fun c => c.1 ∉ beam.expanded) with
    | none => some beam.allVisited
    | some cur => do
      let neighbors ← b.graph[cur.1.toNat]?
      let beam ← neighbors.foldlM (b.visit S query)
        { beam with expanded := insert cur.1 beam.expanded }
      b.rounds query l fuel { beam with list := (S.sort beam.list).take (max l 1) }

/-- No node is expanded twice, so there are never more rounds than nodes, and one to end. -/
def greedySearchVisited (b : VamanaBuilder D) (query : Vector) (l : Nat) :
    Option (List NodeId) := do
  let d ← b.distV S query b.medoid
  b.rounds S query l (b.vectors.length + 1) ⟨[(b.medoid, d)], {b.medoid}, ∅, [b.medoid]⟩

/-- A current neighbor that is not in the pool. -/
def addNeighbor (b : VamanaBuilder D) (p : NodeId) (pool : List (NodeId × D)) (c : NodeId) :
    Option (List (NodeId × D)) :=
  if c ≠ p ∧ c ∉ pool.map Prod.fst then (b.dist S p c).map fun d => pool ++ [(c, d)] else some pool

/-- The loop over the sorted pool, with a flag for each that was removed. -/
def keep (b : VamanaBuilder D) (alpha : D) :
    List (NodeId × D) → List Bool → List NodeId → Option (List NodeId)
  | [], _, result => some result
  | pstar :: rest, removed, result =>
    if removed.headD false then b.keep alpha rest removed.tail result
    else
      let result := result ++ [pstar.1]
      if b.config.r ≤ result.length then some result
      else do
        let removed ← (rest.zip removed.tail).mapM fun v =>
          if v.2 then some true
          else (b.dist S pstar.1 v.1.1).map fun d => S.scaledAtMost alpha d v.1.2
        b.keep alpha rest removed result

def robustPrune (b : VamanaBuilder D) (p : NodeId) (candidates : List NodeId) (alpha : D) :
    Option (List NodeId) := do
  let pool ← (candidates.filter fun c => c ≠ p).mapM fun c => (b.dist S p c).map fun d => (c, d)
  let neighbors ← b.graph[p.toNat]?
  let pool ← neighbors.foldlM (b.addNeighbor S p) pool
  b.keep S alpha (S.sort pool) (List.replicate pool.length false) []

/-- The edge from `j` back to `p`; a list that gets too long is pruned. -/
def backEdge (alpha : D) (p : NodeId) (b : VamanaBuilder D) (j : NodeId) :
    Option (VamanaBuilder D) :=
  if j = p then some b
  else do
    let neighbors ← b.graph[j.toNat]?
    let neighbors := if p ∈ neighbors then neighbors else neighbors ++ [p]
    let b := { b with graph := b.graph.set j.toNat neighbors }
    if b.config.r < neighbors.length then do
      let pruned ← b.robustPrune S j neighbors alpha
      some { b with graph := b.graph.set j.toNat pruned }
    else some b

def insertPoint (alpha : D) (b : VamanaBuilder D) (p : NodeId) : Option (VamanaBuilder D) := do
  let query ← b.vectors[p.toNat]?
  let visited ← b.greedySearchVisited S query b.config.lBuild
  let candidates := visited.filter fun v => v ≠ p
  let newNbrs ← b.robustPrune S p candidates alpha
  newNbrs.foldlM (backEdge S alpha p) { b with graph := b.graph.set p.toNat newNbrs }

/-- Random numbers below `n` until there are enough that were not seen. -/
def drawNeighbors (n target : Nat) :
    List Nat → List NodeId → List NodeId → Option (List NodeId × List Nat)
  | draws, seen, nbrs =>
    if target ≤ nbrs.length then some (nbrs, draws)
    else
      match draws with
      | [] => none
      | d :: draws =>
        let j := (d % n).toUInt32
        if j ∈ seen then drawNeighbors n target draws seen nbrs
        else drawNeighbors n target draws (j :: seen) (nbrs ++ [j])

/-- The nodes from `i` on get their random neighbors. -/
def drawGraph (n r : Nat) : Nat → Nat → List Nat → Option (List (List NodeId) × List Nat)
  | 0, _, draws => some ([], draws)
  | nodes + 1, i, draws => do
    let (nbrs, draws) ← drawNeighbors n (min r (n - 1)) draws [i.toUInt32] []
    let (graph, draws) ← drawGraph n r nodes (i + 1) draws
    some (nbrs :: graph, draws)

/-- The swaps for the positions from `i` down to 1. -/
def shuffle : Nat → List Nat → List NodeId → Option (List NodeId)
  | 0, _, o => some o
  | _ + 1, [], _ => none
  | i + 1, d :: draws, o => do
    let j := d % (i + 2)
    let x ← o[i + 1]?
    let y ← o[j]?
    shuffle i draws ((o.set (i + 1) y).set j x)

/-- The ids from 0 up to `n` narrowed to 32 bits. -/
def allIds (n : Nat) : List NodeId := (List.range (n % 2 ^ 32)).map Nat.toUInt32

def pass (b : VamanaBuilder D) (order : List NodeId) (alpha : D) : Option (VamanaBuilder D) :=
  order.foldlM (insertPoint S alpha) b

def build (b : VamanaBuilder D) (draws : List Nat) : Option (VamanaBuilder D) :=
  let n := b.vectors.length
  if n = 1 then some { b with medoid := 0 }
  else do
    let medoid ← b.computeMedoid S
    let (graph, draws) ← drawGraph n b.config.r n 0 draws
    let order ← shuffle ((allIds n).length - 1) draws (allIds n)
    let b ← pass S { b with medoid, graph } order S.one
    pass S b order b.config.alpha

end VamanaBuilder

end Builder

section Searching

variable {D : Type} {S : Space D} {b : VamanaBuilder D} {n : Nat}

/-- Different ids below `n`. -/
def Ids (n : Nat) (l : List NodeId) : Prop := l.Nodup ∧ ∀ x ∈ l, x.toNat < n

variable {l : List NodeId} {x : NodeId}

theorem Ids.length_le (ids : Ids n l) : l.length ≤ n := by
  have nodup : (l.map UInt32.toNat).Nodup := ids.1.map fun _ _ => UInt32.toNat_inj.mp
  have inside : (l.map UInt32.toNat).toFinset ⊆ Finset.range n := fun x mem => by
    obtain ⟨y, there, rfl⟩ := mem_map.mp (mem_toFinset.mp mem)
    exact Finset.mem_range.mpr (ids.2 y there)
  have count := Finset.card_le_card inside
  rwa [toFinset_card_of_nodup nodup, length_map, Finset.card_range] at count

theorem Ids.snoc (ids : Ids n l) (new : x ∉ l) (inside : x.toNat < n) : Ids n (l ++ [x]) := by
  refine ⟨nodup_append.mpr ⟨ids.1, nodup_singleton x, ?_⟩, ?_⟩
  · rintro y mem z last rfl
    exact new (mem_singleton.mp last ▸ mem)
  · intro y mem
    rcases mem_append.mp mem with before | last
    · exact ids.2 y before
    · rw [mem_singleton.mp last]
      exact inside

theorem Ids.sublist {l' : List NodeId} (ids : Ids n l) (sub : l'.Sublist l) : Ids n l' :=
  ⟨ids.1.sublist sub, fun x mem => ids.2 x (sub.subset mem)⟩

theorem distV_spec (q : Vector) (inside : x.toNat < b.vectors.length) :
    ∃ d, b.distV S q x = some d := by
  rw [VamanaBuilder.distV, getElem?_eq_getElem inside]
  exact ⟨_, rfl⟩

theorem dist_spec {y : NodeId} (first : x.toNat < b.vectors.length)
    (second : y.toNat < b.vectors.length) : ∃ d, b.dist S x y = some d := by
  rw [VamanaBuilder.dist, getElem?_eq_getElem first, bind_some]
  exact distV_spec _ second

theorem computeMedoid_spec (S : Space D) (nonempty : 0 < b.vectors.length) :
    ∃ m, b.computeMedoid S = some m ∧ m.toNat < b.vectors.length := by
  obtain ⟨best, found, inside⟩ := Collect.exists_foldlM
    (fun (best : NodeId × D) _ => best.1.toNat < b.vectors.length)
    (l := List.range b.vectors.length)
    (f := fun (best : NodeId × D) i => do
      let d ← b.distV S (S.centroid b.vectors) i.toUInt32
      some (if S.closer d best.2 then (i.toUInt32, d) else best))
    (fun best seen i mem inside => by
      have small : i.toUInt32.toNat < b.vectors.length :=
        (Nat.mod_le i _).trans_lt (mem_range.mp mem)
      obtain ⟨d, known⟩ := distV_spec (S := S) (S.centroid b.vectors) small
      refine ⟨_, by rw [known]; rfl, ?_⟩
      split
      · exact small
      · exact inside)
    (s := (0, S.farthest)) nonempty
  exact ⟨best.1, by rw [VamanaBuilder.computeMedoid]; simp only [found]; rfl, inside⟩

theorem minBy_mem {l : List (NodeId × D)} {c : NodeId × D} (found : minBy S l = some c) :
    c ∈ l := by
  cases l with
  | nil => cases found
  | cons a rest =>
    have inside (rest : List (NodeId × D)) (a : NodeId × D) :
        rest.foldl (fun x y => if S.closer y.2 x.2 then y else x) a ∈ a :: rest := by
      induction rest generalizing a with
      | nil => simp
      | cons c rest ih =>
        rw [foldl_cons]
        split
        · exact mem_cons_of_mem a (ih c)
        · rcases mem_cons.mp (ih a) with same | later
          · rw [same]
            exact mem_cons_self
          · exact mem_cons_of_mem a (mem_cons_of_mem c later)
    cases found
    exact inside rest a

/-- The neighbors of every node are nodes. -/
def Closed (b : VamanaBuilder D) : Prop :=
  b.graph.length = b.vectors.length ∧ ∀ nbrs ∈ b.graph, ∀ x ∈ nbrs, x.toNat < b.vectors.length

/-- The nodes that were met, each once. -/
structure Beam.Sound (n : Nat) (beam : Beam D) : Prop where
  ids : Ids n beam.allVisited
  visited : beam.visited = beam.allVisited.toFinset
  list : ∀ c ∈ beam.list, c.1 ∈ beam.visited
  expanded : beam.expanded ⊆ beam.visited

theorem visit_spec (q : Vector) {beam : Beam D} (sound : beam.Sound b.vectors.length) {nb : NodeId}
    (inside : nb.toNat < b.vectors.length) :
    ∃ beam', b.visit S q beam nb = some beam' ∧ beam'.Sound b.vectors.length ∧
      beam'.expanded = beam.expanded := by
  rw [VamanaBuilder.visit]
  split
  · exact ⟨beam, rfl, sound, rfl⟩
  · rename_i new
    obtain ⟨d, known⟩ := distV_spec (S := S) q inside
    have fresh : nb ∉ beam.allVisited := by
      rw [sound.visited, List.mem_toFinset] at new
      exact new
    refine ⟨{ beam with
      list := beam.list ++ [(nb, d)]
      visited := insert nb beam.visited
      allVisited := beam.allVisited ++ [nb] }, by rw [known]; rfl,
      ⟨sound.ids.snoc fresh inside, ?_, fun c mem => ?_, ?_⟩, rfl⟩
    · rw [toFinset_append, sound.visited]
      simp
    · rcases mem_append.mp mem with before | last
      · exact Finset.mem_insert_of_mem (sound.list c before)
      · rw [mem_singleton.mp last]
        exact Finset.mem_insert_self nb _
    · exact sound.expanded.trans (Finset.subset_insert nb _)

theorem rounds_spec (closed : Closed b) (q : Vector) (l : Nat) {beam : Beam D}
    (sound : beam.Sound b.vectors.length) {fuel : Nat}
    (enough : b.vectors.length < fuel + beam.expanded.card) :
    ∃ visited, b.rounds S q l fuel beam = some visited ∧ Ids b.vectors.length visited := by
  induction fuel generalizing beam with
  | zero =>
    have count : beam.expanded.card ≤ b.vectors.length :=
      calc beam.expanded.card ≤ beam.visited.card := Finset.card_le_card sound.expanded
        _ = beam.allVisited.length := by
          rw [sound.visited, toFinset_card_of_nodup sound.ids.1]
        _ ≤ b.vectors.length := sound.ids.length_le
    omega
  | succ fuel ih =>
    rw [VamanaBuilder.rounds]
    cases next : minBy S (beam.list.filter fun c => c.1 ∉ beam.expanded) with
    | none => exact ⟨beam.allVisited, rfl, sound.ids⟩
    | some cur =>
      obtain ⟨onList, new⟩ := mem_filter.mp (minBy_mem next)
      have fresh : cur.1 ∉ beam.expanded := by simpa using new
      have known := sound.list cur onList
      have inside : cur.1.toNat < b.graph.length := by
        rw [closed.1]
        rw [sound.visited, List.mem_toFinset] at known
        exact sound.ids.2 _ known
      have start : Beam.Sound b.vectors.length
          { beam with expanded := insert cur.1 beam.expanded } :=
        ⟨sound.ids, sound.visited, sound.list,
          Finset.insert_subset (sound.list cur onList) sound.expanded⟩
      obtain ⟨beam', visited, sound', expanded⟩ := Collect.exists_foldlM
        (fun (beam' : Beam D) _ => beam'.Sound b.vectors.length ∧
          beam'.expanded = insert cur.1 beam.expanded)
        (l := b.graph[cur.1.toNat]) (f := b.visit S q)
        (fun beam' seen nb mem kept => by
          have below := closed.2 _ (getElem_mem inside) nb mem
          obtain ⟨beam'', made, sound'', same⟩ := visit_spec (S := S) q kept.1 below
          exact ⟨beam'', made, sound'', same.trans kept.2⟩)
        ⟨start, rfl⟩
      have cut : Beam.Sound b.vectors.length
          { beam' with list := (S.sort beam'.list).take (max l 1) } :=
        ⟨sound'.ids, sound'.visited,
          fun c mem => sound'.list c ((S.sort_perm _).mem_iff.mp (mem_of_mem_take mem)),
          sound'.expanded⟩
      obtain ⟨all, ended, ids⟩ := ih cut (by
        rw [expanded, Finset.card_insert_of_notMem fresh]
        omega)
      refine ⟨all, ?_, ids⟩
      simp only [getElem?_eq_getElem inside, bind_eq_bind, bind_some, visited]
      exact ended

/-- The search ends, and meets each node once. -/
theorem greedySearchVisited_spec (closed : Closed b) (medoid : b.medoid.toNat < b.vectors.length)
    (q : Vector) (l : Nat) :
    ∃ visited, b.greedySearchVisited S q l = some visited ∧ Ids b.vectors.length visited := by
  obtain ⟨d, known⟩ := distV_spec (S := S) q medoid
  have sound :
      Beam.Sound b.vectors.length (⟨[(b.medoid, d)], {b.medoid}, ∅, [b.medoid]⟩ : Beam D) :=
    ⟨⟨nodup_singleton _, by simpa using medoid⟩, by simp, by simp, Finset.empty_subset _⟩
  obtain ⟨visited, ended, ids⟩ := @rounds_spec D S b closed q l _ sound (b.vectors.length + 1)
    (by simp)
  refine ⟨visited, ?_, ids⟩
  rw [VamanaBuilder.greedySearchVisited, known]
  exact ended

end Searching

section Pruning

variable {D : Type} {S : Space D} {b : VamanaBuilder D} {n : Nat}

/-- The list of a node: at most `r` other nodes, each once. -/
structure Neat (n r i : Nat) (nbrs : List NodeId) : Prop where
  degree : nbrs.length ≤ r
  ids : Ids n nbrs
  apart : i.toUInt32 ∉ nbrs

/-- The id of a node as a number is that node. -/
theorem toUInt32_toNat (x : NodeId) : x.toNat.toUInt32 = x := UInt32.ofNat_toNat

variable {nbrs : List NodeId} {i r : Nat}

theorem Neat.other (neat : Neat n r i nbrs) : ∀ x ∈ nbrs, x.toNat ≠ i := by
  rintro x mem rfl
  refine neat.apart ?_
  rwa [toUInt32_toNat]

/-- Different ids without a certain one are fewer than all ids. -/
theorem Neat.narrow (neat : Neat n r i nbrs) : nbrs.length < 2 ^ 32 := by
  have all : Ids (2 ^ 32) (i.toUInt32 :: nbrs) :=
    ⟨nodup_cons.mpr ⟨neat.apart, neat.ids.1⟩, fun x _ => x.toNat_lt⟩
  exact all.length_le

/-- The loop keeps the ids in the order of the pool, `r` of them at most. -/
theorem keep_spec (alpha : D) {pool : List (NodeId × D)}
    (inside : ∀ c ∈ pool, c.1.toNat < b.vectors.length) (removed : List Bool) {result : List NodeId}
    (room : result.length < b.config.r) :
    ∃ kept, b.keep S alpha pool removed result = some (result ++ kept) ∧
      kept.Sublist (pool.map Prod.fst) ∧ (result ++ kept).length ≤ b.config.r := by
  induction pool generalizing removed result with
  | nil =>
    refine ⟨[], by simp [VamanaBuilder.keep], List.Sublist.slnil, ?_⟩
    rw [append_nil]
    exact room.le
  | cons pstar rest ih =>
    obtain ⟨first, inside⟩ := forall_mem_cons.mp inside
    rw [VamanaBuilder.keep]
    split
    · obtain ⟨kept, done, sub, degree⟩ := ih inside removed.tail room
      exact ⟨kept, done, sub.cons _, degree⟩
    · dsimp only
      split
      · refine ⟨[pstar.1], rfl, ?_, ?_⟩
        · exact List.Sublist.cons_cons _ (nil_sublist _)
        · rw [length_append]
          exact room
      · rename_i more
        obtain ⟨flags, marked⟩ := Collect.exists_mapM (l := rest.zip removed.tail)
          (g := fun v => if v.2 then some true
            else (b.dist S pstar.1 v.1.1).map fun d => S.scaledAtMost alpha d v.1.2)
          fun v mem => by
            obtain ⟨d, known⟩ := dist_spec (S := S) first (inside _ (of_mem_zip mem).1)
            split
            · exact ⟨true, rfl⟩
            · exact ⟨_, by rw [known]; rfl⟩
        obtain ⟨kept, done, sub, degree⟩ := ih inside flags (not_le.mp more)
        rw [append_assoc] at done degree
        refine ⟨pstar.1 :: kept, ?_, sub.cons_cons _, degree⟩
        simp only [marked, bind_eq_bind, bind_some]
        exact done

/-- Different candidates, none of them `p`. -/
def Pool (n : Nat) (p : NodeId) (pool : List (NodeId × D)) : Prop :=
  Ids n (pool.map Prod.fst) ∧ p ∉ pool.map Prod.fst

theorem addNeighbor_spec {p c : NodeId} {pool : List (NodeId × D)}
    (here : p.toNat < b.vectors.length) (there : c.toNat < b.vectors.length)
    (good : Pool b.vectors.length p pool) :
    ∃ pool', b.addNeighbor S p pool c = some pool' ∧ Pool b.vectors.length p pool' := by
  rw [VamanaBuilder.addNeighbor]
  split
  · rename_i new
    obtain ⟨d, known⟩ := dist_spec (S := S) here there
    refine ⟨pool ++ [(c, d)], by rw [known]; rfl, ?_⟩
    rw [Pool, map_append]
    refine ⟨good.1.snoc new.2 there, fun mem => ?_⟩
    rcases mem_append.mp mem with before | last
    · exact good.2 before
    · exact new.1 (mem_singleton.mp last).symm
  · exact ⟨pool, rfl, good⟩

theorem robustPrune_spec (closed : Closed b) (positive : 1 ≤ b.config.r) {p : NodeId}
    (here : p.toNat < b.vectors.length) {candidates : List NodeId}
    (ids : Ids b.vectors.length candidates) (alpha : D) :
    ∃ result, b.robustPrune S p candidates alpha = some result ∧
      Neat b.vectors.length b.config.r p.toNat result := by
  have others : Ids b.vectors.length (candidates.filter fun c => c ≠ p) :=
    ids.sublist filter_sublist
  obtain ⟨pool, measured⟩ := Collect.exists_mapM (l := candidates.filter fun c => c ≠ p)
    (g := fun c => (b.dist S p c).map fun d => (c, d)) fun c mem => by
      obtain ⟨d, known⟩ := dist_spec (S := S) here (others.2 c mem)
      exact ⟨_, by rw [known]; rfl⟩
  have named : pool.map Prod.fst = candidates.filter fun c => c ≠ p := by
    have pairs : List.Forall₂ (fun c (e : NodeId × D) => c = e.1)
        (candidates.filter fun c => c ≠ p) pool :=
      (Collect.forall₂_of_mapM measured).imp fun c e found => by
        obtain ⟨d, -, rfl⟩ := map_eq_some_iff.mp found
        rfl
    have same : List.Forall₂ Eq (candidates.filter fun c => c ≠ p) (pool.map Prod.fst) :=
      forall₂_map_right_iff.mpr pairs
    rw [forall₂_eq_eq_eq] at same
    exact same.symm
  have start : Pool b.vectors.length p pool := by
    rw [Pool, named]
    exact ⟨others, fun mem => by simpa using of_mem_filter mem⟩
  have inside : p.toNat < b.graph.length := by
    rw [closed.1]
    exact here
  obtain ⟨whole, joined, good⟩ := Collect.exists_foldlM
    (fun (pool : List (NodeId × D)) _ => Pool b.vectors.length p pool)
    (l := b.graph[p.toNat]) (f := b.addNeighbor S p)
    (fun pool seen c mem good =>
      addNeighbor_spec here (closed.2 _ (getElem_mem inside) c mem) good) start
  have sorted := (S.sort_perm whole).map Prod.fst
  obtain ⟨kept, done, sub, degree⟩ := @keep_spec D S b alpha (S.sort whole)
    (fun c mem => good.1.2 c.1 (sorted.mem_iff.mp (mem_map_of_mem mem)))
    (List.replicate whole.length false) [] positive
  rw [nil_append] at done degree
  have all : Ids b.vectors.length ((S.sort whole).map Prod.fst) :=
    ⟨sorted.nodup_iff.mpr good.1.1, fun x mem => good.1.2 x (sorted.mem_iff.mp mem)⟩
  refine ⟨kept, ?_, degree, all.sublist sub, fun mem => ?_⟩
  · simp only [VamanaBuilder.robustPrune, measured, getElem?_eq_getElem inside, joined,
      bind_eq_bind, bind_some, done]
  · rw [toUInt32_toNat] at mem
    exact good.2 (sorted.mem_iff.mp (sub.subset mem))

end Pruning

section Building

variable {D : Type} {S : Space D} {b b0 : VamanaBuilder D} {n : Nat}

/-- Every list of the graph is neat. -/
def NeatGraph (n r : Nat) (graph : List (List NodeId)) : Prop :=
  graph.length = n ∧ ∀ i nbrs, graph[i]? = some nbrs → Neat n r i nbrs

variable {graph : List (List NodeId)} {order : List NodeId} {draws : List Nat} {p : NodeId}
  {i r : Nat}

theorem NeatGraph.set {nbrs : List NodeId} (neat : NeatGraph n r graph) (good : Neat n r i nbrs) :
    NeatGraph n r (graph.set i nbrs) := by
  refine ⟨by rw [length_set]; exact neat.1, fun j l known => ?_⟩
  by_cases same : i = j
  · subst same
    by_cases inside : i < graph.length
    · rw [getElem?_set_self inside] at known
      cases known
      exact good
    · rw [getElem?_eq_none (by rw [length_set]; omega)] at known
      cases known
  · rw [getElem?_set_ne same] at known
    exact neat.2 j l known

/-- A builder with another graph, which is neat. -/
structure Built (b0 b : VamanaBuilder D) : Prop where
  same : b = { b0 with graph := b.graph }
  neat : NeatGraph b0.vectors.length b0.config.r b.graph

theorem NeatGraph.closed (neat : NeatGraph b.vectors.length b.config.r b.graph) : Closed b := by
  refine ⟨neat.1, fun nbrs mem x there => ?_⟩
  obtain ⟨i, inside, rfl⟩ := getElem_of_mem mem
  exact (neat.2 i _ (getElem?_eq_getElem inside)).ids.2 x there

theorem backEdge_spec (alpha : D) {j : NodeId} (positive : 1 ≤ b0.config.r) (built : Built b0 b)
    (here : p.toNat < b0.vectors.length) (there : j.toNat < b0.vectors.length) :
    ∃ b', VamanaBuilder.backEdge S alpha p b j = some b' ∧ Built b0 b' := by
  obtain ⟨same, neat⟩ := built
  generalize b.graph = graph at same neat
  subst same
  rw [VamanaBuilder.backEdge]
  split
  · exact ⟨_, rfl, rfl, neat⟩
  · rename_i other
    have inside : j.toNat < graph.length := by
      rw [neat.1]
      exact there
    have good := neat.2 _ _ (getElem?_eq_getElem inside)
    obtain ⟨nbrs, joined⟩ : ∃ nbrs, nbrs = if p ∈ graph[j.toNat] then graph[j.toNat]
        else graph[j.toNat] ++ [p] := ⟨_, rfl⟩
    have ids : Ids b0.vectors.length nbrs ∧ j.toNat.toUInt32 ∉ nbrs := by
      rw [joined]
      split
      · exact ⟨good.ids, good.apart⟩
      · rename_i new
        refine ⟨good.ids.snoc new here, fun mem => ?_⟩
        rcases mem_append.mp mem with before | last
        · exact good.apart before
        · rw [toUInt32_toNat] at last
          exact other (mem_singleton.mp last)
    simp only [getElem?_eq_getElem inside, bind_eq_bind, bind_some, ← joined]
    split
    · have closed : Closed { b0 with graph := graph.set j.toNat nbrs } := by
        refine ⟨by rw [length_set]; exact neat.1, fun l mem x at_l => ?_⟩
        rcases mem_or_eq_of_mem_set mem with old | rfl
        · exact (NeatGraph.closed (b := { b0 with graph }) neat).2 l old x at_l
        · exact ids.1.2 x at_l
      obtain ⟨pruned, done, tidy⟩ :=
        @robustPrune_spec D S _ closed positive j there nbrs ids.1 alpha
      refine ⟨_, by rw [done]; rfl, rfl, ?_⟩
      rw [set_set]
      exact neat.set tidy
    · rename_i short
      exact ⟨_, rfl, rfl, neat.set ⟨not_lt.mp short, ids.1, ids.2⟩⟩

theorem insertPoint_spec (alpha : D) (positive : 1 ≤ b0.config.r)
    (medoid : b0.medoid.toNat < b0.vectors.length) (built : Built b0 b)
    (here : p.toNat < b0.vectors.length) :
    ∃ b', VamanaBuilder.insertPoint S alpha b p = some b' ∧ Built b0 b' := by
  obtain ⟨same, neat⟩ := built
  generalize b.graph = graph at same neat
  subst same
  have closed : Closed { b0 with graph } := neat.closed
  obtain ⟨visited, searched, ids⟩ :=
    greedySearchVisited_spec (S := S) closed medoid b0.vectors[p.toNat] b0.config.lBuild
  obtain ⟨nbrs, pruned, tidy⟩ := @robustPrune_spec D S _ closed positive p here
    (visited.filter fun v => v ≠ p) (ids.sublist filter_sublist) alpha
  obtain ⟨b', done, built'⟩ := Collect.exists_foldlM
    (fun (b' : VamanaBuilder D) _ => Built b0 b') (l := nbrs)
    (f := VamanaBuilder.backEdge S alpha p)
    (fun b' seen j mem kept => backEdge_spec alpha positive kept here (tidy.ids.2 j mem))
    (s := { b0 with graph := graph.set p.toNat nbrs }) ⟨rfl, neat.set tidy⟩
  refine ⟨b', ?_, built'⟩
  simp only [VamanaBuilder.insertPoint, getElem?_eq_getElem here, bind_eq_bind,
    bind_some, searched, pruned]
  exact done

open VamanaBuilder

theorem drawNeighbors_spec {target : Nat} {self : NodeId} (nonempty : 0 < n) {draws rest : List Nat}
    {seen nbrs result : List NodeId} (ids : Ids n nbrs) (known : ∀ x ∈ nbrs, x ∈ seen)
    (own : self ∈ seen) (apart : self ∉ nbrs) (room : nbrs.length ≤ target)
    (drawn : drawNeighbors n target draws seen nbrs = some (result, rest)) :
    Ids n result ∧ self ∉ result ∧ result.length ≤ target := by
  induction draws generalizing seen nbrs with
  | nil =>
    rw [drawNeighbors] at drawn
    split at drawn
    · cases drawn
      exact ⟨ids, apart, room⟩
    · cases drawn
  | cons d draws ih =>
    rw [drawNeighbors] at drawn
    split at drawn
    · cases drawn
      exact ⟨ids, apart, room⟩
    · rename_i more
      dsimp only at drawn
      split at drawn
      · exact ih ids known own apart room drawn
      · rename_i new
        have inside : (d % n).toUInt32.toNat < n :=
          (Nat.mod_le _ _).trans_lt (Nat.mod_lt d nonempty)
        have fresh : (d % n).toUInt32 ∉ nbrs := fun mem => new (known _ mem)
        refine ih (ids.snoc fresh inside) (fun x mem => ?_) (mem_cons_of_mem _ own)
          (fun mem => ?_) ?_ drawn
        · rcases mem_append.mp mem with before | last
          · exact mem_cons_of_mem _ (known x before)
          · rw [mem_singleton.mp last]
            exact mem_cons_self
        · rcases mem_append.mp mem with before | last
          · exact apart before
          · exact new (mem_singleton.mp last ▸ own)
        · rw [length_append]
          exact not_le.mp more

theorem drawGraph_spec {nodes : Nat} (nonempty : 0 < n) {rest : List Nat}
    (drawn : drawGraph n r nodes i draws = some (graph, rest)) :
    graph.length = nodes ∧ ∀ j nbrs, graph[j]? = some nbrs → Neat n r (i + j) nbrs := by
  induction nodes generalizing i draws graph with
  | zero =>
    cases drawn
    exact ⟨rfl, fun j nbrs known => by simp at known⟩
  | succ nodes ih =>
    obtain ⟨⟨first, draws'⟩, head, drawn⟩ := bind_eq_some_iff.mp drawn
    obtain ⟨⟨others, draws''⟩, tail, drawn⟩ := bind_eq_some_iff.mp drawn
    cases drawn
    obtain ⟨ids, apart, degree⟩ := @drawNeighbors_spec n _ i.toUInt32 nonempty _ _ _ _ _
      ⟨nodup_nil, by simp⟩ (by simp) (mem_singleton_self _) not_mem_nil
      (Nat.zero_le _) head
    obtain ⟨length, neat⟩ := ih tail
    refine ⟨by rw [length_cons, length], fun j nbrs known => ?_⟩
    cases j with
    | zero =>
      cases known
      exact ⟨degree.trans (min_le_left _ _), ids, apart⟩
    | succ j =>
      have there := neat j nbrs known
      rwa [add_assoc, add_comm 1 j] at there

theorem mem_of_shuffle {o : List NodeId} (shuffled : shuffle i draws o = some order) :
    ∀ x ∈ order, x ∈ o := by
  induction i generalizing draws o with
  | zero =>
    cases shuffled
    exact fun x mem => mem
  | succ i ih =>
    cases draws with
    | nil => cases shuffled
    | cons d draws =>
      obtain ⟨x, first, shuffled⟩ := bind_eq_some_iff.mp shuffled
      obtain ⟨y, second, shuffled⟩ := bind_eq_some_iff.mp shuffled
      intro z mem
      rcases mem_or_eq_of_mem_set (ih shuffled z mem) with swapped | rfl
      · rcases mem_or_eq_of_mem_set swapped with old | rfl
        · exact old
        · exact mem_of_getElem? second
      · exact mem_of_getElem? first

theorem mem_allIds {x : NodeId} (mem : x ∈ allIds n) : x.toNat < n := by
  obtain ⟨k, inside, rfl⟩ := mem_map.mp mem
  have below := mem_range.mp inside
  exact (Nat.mod_le k _).trans_lt (below.trans_le (Nat.mod_le n _))

theorem pass_spec (alpha : D) (positive : 1 ≤ b0.config.r)
    (medoid : b0.medoid.toNat < b0.vectors.length) (built : Built b0 b)
    (inside : ∀ x ∈ order, x.toNat < b0.vectors.length) :
    ∃ b', b.pass S order alpha = some b' ∧ Built b0 b' :=
  Collect.exists_foldlM (fun (b' : VamanaBuilder D) _ => Built b0 b')
    (fun _ _ p mem kept => insertPoint_spec alpha positive medoid kept (inside p mem)) built

/-- The random numbers are enough for the neighbors at first and for the order of the points. -/
def Enough (n r : Nat) (draws : List Nat) : Prop :=
  n = 1 ∨ ∃ graph rest order, drawGraph n r n 0 draws = some (graph, rest) ∧
    shuffle ((allIds n).length - 1) rest (allIds n) = some order

/-- The builder ends, with a node as the medoid and a neat graph. -/
theorem build_spec (S : Space D) {vectors : List Vector} (nonempty : 0 < vectors.length)
    {config : Config D} (positive : 1 ≤ config.r) {draws : List Nat}
    (enough : Enough vectors.length config.r draws) :
    ∃ b, (VamanaBuilder.new vectors config).build S draws = some b ∧ b.config = config ∧
      b.vectors = vectors ∧ b.medoid.toNat < vectors.length ∧
      NeatGraph vectors.length config.r b.graph := by
  by_cases single : vectors.length = 1
  · refine ⟨{ VamanaBuilder.new vectors config with medoid := 0 }, if_pos single, rfl, rfl,
      nonempty, ?_⟩
    refine ⟨length_replicate, fun i nbrs known => ?_⟩
    obtain rfl : nbrs = [] := eq_of_mem_replicate (mem_of_getElem? known)
    exact ⟨Nat.zero_le _, ⟨nodup_nil, by simp⟩, by simp⟩
  · obtain ⟨graph, rest, order, drawn, shuffled⟩ := enough.resolve_left single
    obtain ⟨medoid, found, inside⟩ := computeMedoid_spec (b := VamanaBuilder.new vectors config) S
      nonempty
    obtain ⟨length, neat⟩ := drawGraph_spec nonempty drawn
    have start : Built { VamanaBuilder.new vectors config with medoid, graph }
        { VamanaBuilder.new vectors config with medoid, graph } :=
      ⟨rfl, length, fun i nbrs known => by
        have there := neat i nbrs known
        rwa [zero_add] at there⟩
    have points : ∀ x ∈ order, x.toNat < vectors.length := fun x mem =>
      mem_allIds (mem_of_shuffle shuffled x mem)
    obtain ⟨b1, first, built1⟩ := pass_spec (S := S) S.one positive inside start points
    obtain ⟨b2, second, built2⟩ := pass_spec (S := S) config.alpha positive inside built1 points
    have config1 : b1.config = config := by rw [built1.same]; rfl
    refine ⟨b2, ?_, by rw [built2.same]; rfl, by rw [built2.same]; rfl,
      by rw [built2.same]; exact inside, built2.neat⟩
    rw [VamanaBuilder.build,
      if_neg (show ¬ (VamanaBuilder.new vectors config).vectors.length = 1 from single)]
    simp only [found, bind_eq_bind, bind_some]
    change (drawGraph vectors.length config.r vectors.length 0 draws).bind _ = _
    rw [drawn, bind_some]
    change (shuffle ((allIds vectors.length).length - 1) rest (allIds vectors.length)).bind _ = _
    rw [shuffled, bind_some]
    rw [first, bind_some, config1]
    exact second

end Building

end GalaxDb.Vamana
