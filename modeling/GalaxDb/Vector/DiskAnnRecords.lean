import GalaxDb.Vector.HnswFile
import GalaxDb.Vector.Vamana

/-!
# The records of the graph on disk

Behind the header and the external ids stands a record of fixed size for each node: the vector, the
degree, and a slot for each possible neighbor. A bounded cache keeps the nodes that were read.
Nothing is the result of a build whose builder has none.
-/

namespace GalaxDb.DiskAnnFile

open Bytes Decoded Formats Vamana HnswFile List

inductive Metric where
  | cosine
  | l2
  deriving DecidableEq

def Metric.asU8 : Metric → UInt8
  | .cosine => 0
  | .l2 => 1

structure DiskAnnConfig (D : Type) extends Vamana.Config D where
  metric : Metric

structure Node where
  vector : Vector
  neighbors : List NodeId
  deriving DecidableEq

/-- The oldest entries leave first. -/
structure NodeCache where
  map : List (NodeId × Node)
  order : List NodeId
  capacity : Nat

namespace NodeCache

def new (capacity : Nat) : NodeCache := ⟨[], [], max capacity 1⟩

def get (c : NodeCache) (id : NodeId) : Option Node := c.map.lookup id

/-- A node that is there keeps its place in the order. -/
def put (c : NodeCache) (id : NodeId) (node : Node) : NodeCache :=
  let map := (id, node) :: c.map.filter fun e => e.1 ≠ id
  if (c.get id).isSome then { c with map }
  else
    match c.order ++ [id] with
    | evict :: rest =>
      if c.capacity < map.length then
        { c with map := map.filter fun e => e.1 ≠ evict, order := rest }
      else { c with map, order := evict :: rest }
    | [] => { c with map, order := [] }

end NodeCache

def metaSize : Nat := 20
def defaultCacheNodes : Nat := 4096

structure DiskAnnIndex (D : Type) where
  file : Bytes
  config : DiskAnnConfig D
  numPoints : UInt32
  entryPoint : NodeId
  externalIds : List UInt64
  recordsOffset : Nat
  recordSize : Nat
  cache : NodeCache

/-- The sixteen bytes at the head of a file; the last four are zero. -/
def headerBytes (support : FormatSupport) (writer : WriterVersion) : Bytes :=
  support.magic ++ (toLe 2 support.currentWrite ++ (toLe 2 writer.major ++ (toLe 2 writer.minor ++
    (toLe 2 writer.patch ++ List.replicate 4 0))))

def metaBytes {D : Type} (config : DiskAnnConfig D) (n : Nat) (entryPoint : NodeId) : Bytes :=
  toLe 4 config.dim ++ (toLe 4 n ++ (toLe 4 config.r ++ (word entryPoint ++
    (config.metric.asU8 :: List.replicate 3 0))))

/-- A slot without a neighbor is zero. -/
def recordBytes (r : Nat) (node : Node) : Bytes :=
  node.vector.flatMap word ++ (toLe 4 node.neighbors.length ++
    (List.range r).flatMap fun j => word (node.neighbors[j]?.getD 0))

namespace DiskAnnIndex

variable {D : Type}

def sizeOfRecord (dim r : Nat) : Nat := dim * 4 + 4 + r * 4

def nodeOf (vectors : List Vector) (graph : List (List NodeId)) (id : Nat) : Option Node := do
  let vector ← vectors[id]?
  let neighbors ← graph[id]?
  some ⟨vector, neighbors⟩

/-- The vectors as they go into the graph. -/
def materialize (S : Space D) (config : DiskAnnConfig D) (entries : List (UInt64 × Vector)) :
    List Vector :=
  entries.map fun e => if config.metric = .cosine then S.normalize e.2 else e.2

def build (space : Metric → Space D) (writer : WriterVersion) (draws : List Nat)
    (entries : List (UInt64 × Vector)) (config : DiskAnnConfig D) :
    Option (Outcome (DiskAnnIndex D)) :=
  let n := entries.length
  let S := space config.metric
  if n = 0 then some (.error (.internal "DiskANN build needs >= 1 point"))
  else
    match entries.find? fun e => e.2.length ≠ config.dim with
    | some e =>
      some (.error (.internal ("DiskANN vector dim " ++ toString e.2.length ++ " != config dim " ++
        toString config.dim)))
    | none => do
      let vectors := materialize S config entries
      let externalIds := entries.map Prod.fst
      let builder ← (VamanaBuilder.new vectors config.toConfig).build S draws
      let nodes ← (List.range n).mapM (nodeOf vectors builder.graph)
      some (.ok {
        file := headerBytes FormatSupport.diskann writer ++ (metaBytes config n builder.medoid ++
          (externalIds.flatMap (fun e => toLe 8 e.toNat) ++ nodes.flatMap (recordBytes config.r)))
        config
        numPoints := n.toUInt32
        entryPoint := builder.medoid
        externalIds
        recordsOffset := formatHeaderSize + metaSize + n * 8
        recordSize := sizeOfRecord config.dim config.r
        cache := .new defaultCacheNodes })

/-- So many bytes from a position on; it may be behind the end. -/
def readExact (file : Bytes) (offset n : Nat) : Outcome Bytes :=
  if offset + n ≤ file.length then getSlice file offset (offset + n) else .error .unexpectedEof

/-- The node, and the index with the node in its cache. -/
def readNode (index : DiskAnnIndex D) (id : NodeId) : Outcome (Node × DiskAnnIndex D) :=
  match index.cache.get id with
  | some node => .ok (node, index)
  | none => do
    let offset := index.recordsOffset + id.toNat * index.recordSize
    let record ← readExact index.file offset index.recordSize
    let vector ← readWords record index.config.dim 0
    let degree ← number record (index.config.dim * 4) 4
    let neighbors ← readWords record degree (index.config.dim * 4 + 4)
    let node := ⟨vector, neighbors⟩
    return (node, { index with cache := index.cache.put id node })

/-- Nodes read one after another. -/
def readNodes : DiskAnnIndex D → List NodeId → Outcome (List Node)
  | _, [] => .ok []
  | index, id :: ids => do
    let (node, index) ← index.readNode id
    let nodes ← readNodes index ids
    return node :: nodes

end DiskAnnIndex

section Cache

variable {c : NodeCache} {id k : NodeId} {node found : Node}

theorem lookup_filter {l : List (NodeId × Node)}
    (there : (l.filter fun e => e.1 ≠ id).lookup k = some found) : l.lookup k = some found := by
  induction l with
  | nil => cases there
  | cons e l ih =>
    rw [lookup_cons]
    by_cases same : k = e.1
    · subst same
      by_cases removed : e.1 = id
      · rw [filter_cons_of_neg (by simpa using removed)] at there
        have absent : (l.filter fun f => f.1 ≠ id).lookup e.1 = none := by
          rw [lookup_eq_none_iff]
          intro f mem
          have other : f.1 ≠ id := by simpa using of_mem_filter mem
          simpa [removed] using other.symm
        rw [absent] at there
        cases there
      · rw [filter_cons_of_pos (by simpa using removed), lookup_cons] at there
        simpa using there
    · have other : (k == e.1) = false := by simpa using same
      rw [other]
      refine ih ?_
      by_cases removed : e.1 = id
      · rwa [filter_cons_of_neg (by simpa using removed)] at there
      · rw [filter_cons_of_pos (by simpa using removed), lookup_cons, other] at there
        exact there

/-- A cache holds nothing that was not put into it. -/
theorem get_put (there : (c.put id node).get k = some found) :
    (k = id ∧ found = node) ∨ c.get k = some found := by
  have kept (e : NodeId) {map : List (NodeId × Node)}
      (held : map = (id, node) :: c.map.filter fun e => e.1 ≠ id)
      (there : map.lookup k = some found) : (k = id ∧ found = node) ∨ c.get k = some found := by
    rw [held, lookup_cons] at there
    by_cases same : k = id
    · rw [same, beq_self_eq_true] at there
      exact .inl ⟨same, (Option.some.inj there).symm⟩
    · rw [show (k == id) = false by simpa using same] at there
      exact .inr (lookup_filter there)
  simp only [NodeCache.put] at there
  split at there
  · exact kept id rfl there
  · split at there
    · split at there
      · exact kept id rfl (lookup_filter there)
      · exact kept id rfl there
    · exact kept id rfl there

end Cache

section Records

variable {D : Type} {index : DiskAnnIndex D} {nodes : List Node} {dim r : Nat} {node : Node}

/-- A node that has room in a record. -/
structure Fits (dim r : Nat) (node : Node) : Prop where
  vector : node.vector.length = dim
  degree : node.neighbors.length ≤ r
  narrow : node.neighbors.length < 2 ^ 32

variable {ids : List NodeId}

/-- The slots begin with the neighbors. -/
theorem slots_eq (degree : ids.length ≤ r) :
    ∃ rest, (List.range r).flatMap (fun j => word (ids[j]?.getD 0)) = ids.flatMap word ++ rest := by
  obtain ⟨free, rfl⟩ := Nat.exists_eq_add_of_le degree
  have used : (List.range ids.length).map (fun j => ids[j]?.getD 0) = ids := by
    refine ext_getElem (by simp) fun j inside there => ?_
    rw [getElem_map, getElem_range, getElem?_eq_getElem there]
    rfl
  rw [range_add, flatMap_append]
  refine ⟨_, congrArg (· ++ _) ?_⟩
  rw [← flatMap_map (fun j => ids[j]?.getD 0) word, used]

theorem length_recordBytes (vector : node.vector.length = dim) :
    (recordBytes r node).length = DiskAnnIndex.sizeOfRecord dim r := by
  have slots : ((List.range r).flatMap fun j => word (node.neighbors[j]?.getD 0)).length =
      r * 4 := by
    have width : ∀ j ∈ List.range r, (word (node.neighbors[j]?.getD 0)).length = 4 := fun j _ =>
      toLe_length 4 _
    rw [length_flatMap, map_congr_left width, map_const', length_range, sum_replicate_nat]
  rw [recordBytes, length_append, length_append, length_flatMap_word, toLe_length, slots,
    vector, DiskAnnIndex.sizeOfRecord, add_assoc]

/-- The parts of a record. -/
theorem readRecord (fits : Fits dim r node) :
    readWords (recordBytes r node) dim 0 = .ok node.vector ∧
      number (recordBytes r node) (dim * 4) 4 = .ok node.neighbors.length ∧
      readWords (recordBytes r node) node.neighbors.length (dim * 4 + 4) = .ok node.neighbors := by
  obtain ⟨rest, slots⟩ := slots_eq fits.degree
  have start := Remaining.start (recordBytes r node)
  rw [show recordBytes r node = node.vector.flatMap word ++ (toLe 4 node.neighbors.length ++
    (node.neighbors.flatMap word ++ rest)) by rw [recordBytes, slots]] at start ⊢
  have degree := start.skip (length_flatMap_word node.vector)
  rw [zero_add, fits.vector] at degree
  have words := readWords_spec start
  rw [fits.vector] at words
  exact ⟨words, number_of_lt degree fits.narrow, readWords_spec (degree.skip (toLe_length 4 _))⟩

/-- The file holds the records of the nodes, and the cache no other nodes. -/
structure Written (index : DiskAnnIndex D) (nodes : List Node) : Prop where
  records : Remaining index.file index.recordsOffset
    (nodes.flatMap (recordBytes index.config.r) ++ [])
  size : index.recordSize = DiskAnnIndex.sizeOfRecord index.config.dim index.config.r
  fits : ∀ node ∈ nodes, Fits index.config.dim index.config.r node
  cached : ∀ id node, index.cache.get id = some node → nodes[id.toNat]? = some node

theorem Written.readNode (written : Written index nodes) {id : NodeId}
    (known : nodes[id.toNat]? = some node) :
    ∃ index', index.readNode id = .ok (node, index') ∧ Written index' nodes := by
  rw [DiskAnnIndex.readNode]
  cases held : index.cache.get id with
  | some cached =>
    have same := written.cached id cached held
    rw [known] at same
    cases same
    exact ⟨index, rfl, written⟩
  | none =>
    obtain ⟨inside, found⟩ := List.getElem?_eq_some_iff.mp known
    have fits := written.fits node (mem_of_getElem? known)
    have width : ∀ n ∈ nodes, (recordBytes index.config.r n).length = index.recordSize :=
      fun n mem => by rw [length_recordBytes (written.fits n mem).vector, written.size]
    have there := written.records.chunk width inside
    rw [found] at there
    have whole := width node (mem_of_getElem? known)
    have short : index.recordsOffset + id.toNat * index.recordSize + index.recordSize ≤
        index.file.length := by
      have total := there.length
      rw [length_append] at total
      omega
    have record : DiskAnnIndex.readExact index.file
        (index.recordsOffset + id.toNat * index.recordSize) index.recordSize =
        .ok (recordBytes index.config.r node) := by
      rw [DiskAnnIndex.readExact, if_pos short, there.getSlice whole]
    obtain ⟨vector, degree, neighbors⟩ := readRecord fits
    refine ⟨{ index with cache := index.cache.put id node }, ?_, written.records, written.size,
      written.fits, fun k other there => ?_⟩
    · simp only [record, vector, degree, neighbors, ok_bind]
      rfl
    · rcases get_put there with ⟨rfl, rfl⟩ | before
      · exact known
      · exact written.cached k other before

/-- The nodes that are read one after another are those of the records. -/
theorem Written.readNodes (written : Written index nodes) {read : List Node}
    (known : ids.mapM (fun id => nodes[id.toNat]?) = some read) :
    index.readNodes ids = .ok read := by
  induction ids generalizing index read with
  | nil =>
    cases known
    rfl
  | cons id ids ih =>
    rw [mapM_cons] at known
    obtain ⟨node, first, known⟩ := Option.bind_eq_some_iff.mp known
    obtain ⟨rest, later, known⟩ := Option.bind_eq_some_iff.mp known
    cases known
    obtain ⟨index', done, written'⟩ := written.readNode first
    rw [DiskAnnIndex.readNodes, done, ok_bind]
    simp only [ih written' later, ok_bind]
    rfl

end Records

section Building

variable {D : Type} {n : Nat} {space : Metric → Space D} {writer : WriterVersion} {draws : List Nat}
  {entries : List (UInt64 × Vector)} {config : DiskAnnConfig D}

theorem length_materialize (S : Space D) : (DiskAnnIndex.materialize S config entries).length =
    entries.length := length_map _

theorem dim_materialize (S : Space D) (dims : ∀ e ∈ entries, e.2.length = config.dim) :
    ∀ v ∈ DiskAnnIndex.materialize S config entries, v.length = config.dim := by
  intro v mem
  obtain ⟨e, there, rfl⟩ := mem_map.mp mem
  split
  · rw [S.normalize_length, dims e there]
  · exact dims e there

/-- The nodes of a neat graph have room in their records. -/
theorem nodes_spec {vectors : List Vector} {graph : List (List NodeId)}
    (dims : ∀ v ∈ vectors, v.length = config.dim)
    (neat : NeatGraph vectors.length config.r graph) :
    ∃ nodes, (List.range vectors.length).mapM (DiskAnnIndex.nodeOf vectors graph) = some nodes ∧
      (∀ node ∈ nodes, Fits config.dim config.r node) ∧
      ∀ id, nodes[id]? = DiskAnnIndex.nodeOf vectors graph id := by
  have each : ∀ id < vectors.length, ∃ node, DiskAnnIndex.nodeOf vectors graph id = some node ∧
      Fits config.dim config.r node := fun id inside => by
    have listed : id < graph.length := by
      rw [neat.1]
      exact inside
    have tidy := neat.2 id _ (getElem?_eq_getElem listed)
    refine ⟨⟨vectors[id], graph[id]⟩, ?_, dims _ (getElem_mem inside), tidy.degree, tidy.narrow⟩
    rw [DiskAnnIndex.nodeOf, getElem?_eq_getElem inside, getElem?_eq_getElem listed]
    rfl
  obtain ⟨nodes, collected⟩ := Collect.exists_mapM (l := List.range vectors.length)
    (g := DiskAnnIndex.nodeOf vectors graph) fun id mem =>
      (each id (mem_range.mp mem)).imp fun _ => And.left
  have length : nodes.length = vectors.length := by
    rw [← (Collect.forall₂_of_mapM collected).length_eq, length_range]
  have found (id : Nat) (inside : id < nodes.length) :
      DiskAnnIndex.nodeOf vectors graph id = some nodes[id] := by
    obtain ⟨a, place, made⟩ := Collect.getElem?_of_mapM collected (getElem?_eq_getElem inside)
    rw [getElem?_range (by rw [← length]; exact inside)] at place
    cases place
    exact made
  refine ⟨nodes, collected, fun node mem => ?_, fun id => ?_⟩
  · obtain ⟨id, inside, rfl⟩ := getElem_of_mem mem
    obtain ⟨node, made, fits⟩ := each id (by rw [← length]; exact inside)
    rw [found id inside] at made
    cases made
    exact fits
  · by_cases inside : id < nodes.length
    · rw [found id inside, getElem?_eq_getElem inside]
    · rw [getElem?_eq_none (not_lt.mp inside), DiskAnnIndex.nodeOf,
        getElem?_eq_none (by omega)]
      rfl

theorem length_headerBytes : (headerBytes FormatSupport.diskann writer).length =
    formatHeaderSize := by
  simp [headerBytes, FormatSupport.diskann, ascii, formatHeaderSize]

theorem length_metaBytes (entryPoint : NodeId) : (metaBytes config n entryPoint).length =
    metaSize := by
  simp [metaBytes, word, metaSize]

/-- The builder respects the format of the records, and each record is read back. -/
theorem vamana_records_read_back (space : Metric → Space D) (writer : WriterVersion)
    (nonempty : entries ≠ []) (dims : ∀ e ∈ entries, e.2.length = config.dim)
    (positive : 1 ≤ config.r) (enough : Enough entries.length config.r draws) :
    ∃ b index, (VamanaBuilder.new (DiskAnnIndex.materialize (space config.metric) config entries)
        config.toConfig).build (space config.metric) draws = some b ∧
      b.graph.length = entries.length ∧
      (∀ (i : Nat) (nbrs : List NodeId), b.graph[i]? = some nbrs →
        nbrs.length ≤ config.r ∧ nbrs.Nodup ∧
        ∀ x ∈ nbrs, x.toNat < entries.length ∧ x.toNat ≠ i) ∧
      b.medoid.toNat < entries.length ∧
      DiskAnnIndex.build space writer draws entries config = some (.ok index) ∧
      index.entryPoint = b.medoid ∧
      ∀ ids : List NodeId, (∀ id ∈ ids, id.toNat < entries.length) →
        ∃ nodes, ids.mapM (fun id => DiskAnnIndex.nodeOf b.vectors b.graph id.toNat) = some nodes ∧
          index.readNodes ids = .ok nodes := by
  have length : (DiskAnnIndex.materialize (space config.metric) config entries).length =
      entries.length := length_materialize _
  have dims' := dim_materialize (space config.metric) dims
  generalize made : DiskAnnIndex.materialize (space config.metric) config entries = vectors
    at length dims'
  have inhabited : 0 < entries.length := length_pos_of_ne_nil nonempty
  obtain ⟨b, built, same, kept, medoid, neat⟩ :=
    @build_spec _ (space config.metric) vectors (by rw [length]; exact inhabited)
      config.toConfig positive draws (by rw [length]; exact enough)
  obtain ⟨nodes, collected, fits, nodeOf⟩ := nodes_spec dims' neat
  rw [length] at medoid collected neat
  obtain ⟨index, index_eq⟩ : ∃ index : DiskAnnIndex D, index = {
      file :=
        headerBytes FormatSupport.diskann writer ++ (metaBytes config entries.length b.medoid ++
        ((entries.map Prod.fst).flatMap (fun e => toLe 8 e.toNat) ++
          nodes.flatMap (recordBytes config.r)))
      config
      numPoints := entries.length.toUInt32
      entryPoint := b.medoid
      externalIds := entries.map Prod.fst
      recordsOffset := formatHeaderSize + metaSize + entries.length * 8
      recordSize := DiskAnnIndex.sizeOfRecord config.dim config.r
      cache := .new defaultCacheNodes } := ⟨_, rfl⟩
  have file : DiskAnnIndex.build space writer draws entries config = some (.ok index) := by
    have right : entries.find? (fun e => e.2.length ≠ config.dim) = none := by
      simpa using dims
    rw [DiskAnnIndex.build, if_neg inhabited.ne', right, index_eq]
    simp only [made, built, collected, Option.bind_eq_bind, Option.bind_some]
  have written : Written index nodes := by
    subst index_eq
    refine ⟨?_, rfl, fits, fun id node held => by cases held⟩
    have start := Remaining.start (headerBytes FormatSupport.diskann writer ++
      (metaBytes config entries.length b.medoid ++
        ((entries.map Prod.fst).flatMap (fun e => toLe 8 e.toNat) ++
          (nodes.flatMap (recordBytes config.r) ++ []))))
    have ids := ((start.skip length_headerBytes).skip (length_metaBytes b.medoid)).chunks
      (w := 8) fun e _ => toLe_length 8 e.toNat
    rw [length_map, zero_add] at ids
    rwa [append_nil] at ids ⊢
  refine ⟨b, index, built, neat.1, fun i nbrs known => ?_, medoid, file, by rw [index_eq],
    fun ids inside => ?_⟩
  · have tidy := neat.2 i nbrs known
    exact ⟨tidy.degree, tidy.ids.1, fun x mem => ⟨tidy.ids.2 x mem, tidy.other x mem⟩⟩
  · obtain ⟨read, listed⟩ := Collect.exists_mapM (l := ids)
      (g := fun id => nodes[id.toNat]?) fun id mem => by
        have there : id.toNat < nodes.length := by
          rw [← (Collect.forall₂_of_mapM collected).length_eq, length_range]
          exact inside id mem
        exact ⟨_, getElem?_eq_getElem there⟩
    refine ⟨read, ?_, written.readNodes listed⟩
    rw [kept, ← listed]
    simp only [nodeOf]

/-- The sum of the differences of the words, sorted by insertion. -/
def wordSpace : Space Nat where
  normalize v := v
  normalize_length _ := rfl
  distance v w := ((v.zip w).map fun p => max p.1.toNat p.2.toNat - min p.1.toNat p.2.toNat).sum
  centroid vectors := vectors.headD []
  closer d e := d < e
  farthest := 2 ^ 32
  one := 1
  scaledAtMost alpha d e := alpha * d ≤ e
  sort l := l.insertionSort fun c e => c.2 ≤ e.2
  sort_perm l := perm_insertionSort _ l

theorem three_points_read_back : ∃ (b : VamanaBuilder Nat) (index : DiskAnnIndex Nat),
    b.medoid.toNat < 3 ∧
    DiskAnnIndex.build (fun _ => wordSpace) ⟨0, 7, 0⟩ [1, 2, 0, 1, 1, 2, 1, 0, 0, 0]
      [(7, [10]), (8, [20]), (9, [30])] ⟨⟨1, 2, 4, 1⟩, .l2⟩ = some (.ok index) ∧
    ∃ nodes, [2, 0, 2].mapM (fun id : NodeId => DiskAnnIndex.nodeOf b.vectors b.graph id.toNat) =
      some nodes ∧ index.readNodes [2, 0, 2] = .ok nodes := by
  obtain ⟨b, index, -, -, -, medoid, file, -, reads⟩ :=
    @vamana_records_read_back _ [1, 2, 0, 1, 1, 2, 1, 0, 0, 0]
      [(7, [10]), (8, [20]), (9, [30])] ⟨⟨1, 2, 4, 1⟩, .l2⟩ (fun _ => wordSpace) ⟨0, 7, 0⟩ (by simp)
        (by simp)
      (by decide) (.inr ⟨_, _, _, rfl, rfl⟩)
  exact ⟨b, index, medoid, file, reads [2, 0, 2] (by simp)⟩

end Building

end GalaxDb.DiskAnnFile
