import GalaxDb.Formats.Header
import GalaxDb.Lib.Bits
import GalaxDb.Lib.Collect
import GalaxDb.Vector.Hnsw

/-!
# The file of a graph

A header, a record of fixed size for each node, the vectors, and the neighbor lists of all nodes and
layers one behind another, each behind its length. A list is found by passing over all lists before
it. A graph that does not have what is read of it gives no file.
-/

namespace GalaxDb.HnswFile

open Bytes Decoded Formats List Option

structure HnswConfig extends Hnsw.Config where
  dim : Nat

/-- The parts of the graph that go into the file; floats by their bits. -/
structure HnswGraph where
  config : HnswConfig
  vectors : List UInt32
  externalIds : List UInt64
  nodeMaxLayers : List Nat
  neighbors0 : List UInt32
  neighbors0Counts : List UInt16
  neighborsUpper : List (List (List UInt32))
  entryPoint : Option UInt32
  maxLayer : Nat
  len : Nat

namespace HnswGraph

def getExternalId (g : HnswGraph) (id : Nat) : Option UInt64 :=
  if g.len ≤ id then none else g.externalIds[id]?

def getVector (g : HnswGraph) (id : Nat) : Option (List UInt32) :=
  let start := id * g.config.dim
  if start + g.config.dim ≤ g.vectors.length then
    some ((g.vectors.drop start).take g.config.dim)
  else none

def nodeMaxLayer (g : HnswGraph) (id : Nat) : Option Nat := g.nodeMaxLayers[id]?

/-- Layer 0 has `m0` slots for each node, counted by a `u16`. -/
def getNeighbors (g : HnswGraph) (id layer : Nat) : Option (List UInt32) :=
  if layer = 0 then
    g.neighbors0Counts[id]?.map fun count =>
      (g.neighbors0.drop (id * g.config.m0)).take count.toNat
  else g.neighborsUpper[id]?.map fun upper => upper[layer - 1]?.getD []

end HnswGraph

def hnswMagic : Nat := 0x484E5357
def hnswVersion : Nat := 1
def headerSize : Nat := 64
def nodeMetaSize : Nat := 16

def word (n : UInt32) : Bytes := toLe 4 n.toNat

/-- The count is narrowed to 16 bits, the list is not. -/
def listBytes (ids : List UInt32) : Bytes := toLe 2 ids.length ++ ids.flatMap word

namespace HnswGraph

def vectorsOffset (g : HnswGraph) : Nat := headerSize + g.len * nodeMetaSize

def adjacencyOffset (g : HnswGraph) : Nat := g.vectorsOffset + g.len * (g.config.dim % 2 ^ 32) * 4

/-- The fields of the header in their widths; the last eight bytes are zero. -/
def header (g : HnswGraph) : Bytes :=
  toLe 4 hnswMagic ++ (toLe 4 hnswVersion ++ (toLe 4 g.config.dim ++ (toLe 4 g.config.m ++
    (toLe 4 g.config.m0 ++ (toLe 4 g.config.efConstruction ++ (toLe 4 g.maxLayer ++
      (word (g.entryPoint.getD 0) ++ (toLe 8 g.len ++ (toLe 8 g.vectorsOffset ++
        (toLe 8 g.adjacencyOffset ++ List.replicate 8 0))))))))))

def nodeMeta (g : HnswGraph) (i : Nat) : Option Bytes := do
  let extId := (g.getExternalId i).getD 0
  let _ ← g.getVector i
  let maxLayer ← g.nodeMaxLayer i
  some (toLe 8 extId.toNat ++ (toLe 4 maxLayer ++ List.replicate 4 0))

def nodeVector (g : HnswGraph) (i : Nat) :
    Option Bytes := (g.getVector i).map fun v => v.flatMap word

def nodeAdjacency (g : HnswGraph) (i : Nat) : Option Bytes := do
  let maxLayer ← g.nodeMaxLayer i
  let lists ← (List.range (maxLayer + 1)).mapM fun layer => (g.getNeighbors i layer).map listBytes
  some lists.flatten

end HnswGraph

def writeHnswFile (g : HnswGraph) : Option Bytes := do
  let metas ← (List.range g.len).mapM g.nodeMeta
  let vectors ← (List.range g.len).mapM g.nodeVector
  let adjacency ← (List.range g.len).mapM g.nodeAdjacency
  some (g.header ++ (metas.flatten ++ (vectors.flatten ++ adjacency.flatten)))

structure HnswFileHeader where
  dim : Nat
  m : Nat
  m0 : Nat
  efConstruction : Nat
  maxLayer : Nat
  entryPoint : UInt32
  nodeCount : Nat
  vectorsOffset : Nat
  adjacencyOffset : Nat

structure MmapHnswGraph where
  mmap : Bytes
  header : HnswFileHeader

/-- The number in `w` bytes from a position on. -/
def number (data : Bytes) (offset w : Nat) : Outcome Nat := do
  let bytes ← getSlice data offset (offset + w)
  return ofLe bytes

/-- The words from a position on, one after another. -/
def readWords (data : Bytes) : Nat → Nat → Outcome (List UInt32)
  | 0, _ => .ok []
  | count + 1, offset => do
    let n ← number data offset 4
    let rest ← readWords data count (offset + 4)
    return n.toUInt32 :: rest

def hex (n : Nat) : String := "0x" ++ String.ofList (Nat.toDigits 16 n)

namespace MmapHnswGraph

def readHeader (data : Bytes) : Outcome HnswFileHeader := do
  let dim ← number data 8 4
  let m ← number data 12 4
  let m0 ← number data 16 4
  let efConstruction ← number data 20 4
  let maxLayer ← number data 24 4
  let entryPoint ← number data 28 4
  let nodeCount ← number data 32 8
  let vectorsOffset ← number data 40 8
  let adjacencyOffset ← number data 48 8
  return { dim, m, m0, efConstruction, maxLayer, entryPoint := entryPoint.toUInt32, nodeCount,
           vectorsOffset, adjacencyOffset }

def openFile (data : Bytes) : Outcome MmapHnswGraph :=
  if data.length < headerSize then .error (.internal "HNSW file too small for header")
  else do
    let magic ← number data 0 4
    if magic ≠ hnswMagic then
      .error (.internal ("not an HNSW file: magic " ++ hex magic ++ ", expected " ++ hex hnswMagic))
    else do
      let version ← number data 4 4
      FormatSupport.hnsw.check (version % 2 ^ 16)
      let header ← readHeader data
      return ⟨data, header⟩

def nodeCount (f : MmapHnswGraph) : Nat := f.header.nodeCount
def entryPoint (f : MmapHnswGraph) : UInt32 := f.header.entryPoint
def maxLayer (f : MmapHnswGraph) : Nat := f.header.maxLayer
def dim (f : MmapHnswGraph) : Nat := f.header.dim

def externalId (f : MmapHnswGraph) (nodeIdx : Nat) : Outcome UInt64 := do
  let id ← number f.mmap (headerSize + nodeIdx * nodeMetaSize) 8
  return id.toUInt64

def nodeMaxLayer (f : MmapHnswGraph) (nodeIdx : Nat) : Outcome Nat :=
  number f.mmap (headerSize + nodeIdx * nodeMetaSize + 8) 4

/-- The floats of a slice. -/
def getVector (f : MmapHnswGraph) (nodeIdx : Nat) : Outcome (List UInt32) := do
  let offset := f.header.vectorsOffset + nodeIdx * f.dim * 4
  let bytes ← getSlice f.mmap offset (offset + f.dim * 4)
  readWords bytes f.dim 0

/-- The layers of a node from `l` on: the list of the wanted layer, or the position behind them. -/
def scanLayers (f : MmapHnswGraph) (wanted : Option Nat) :
    Nat → Nat → Nat → Outcome (List UInt32 ⊕ Nat)
  | 0, _, offset => .ok (.inr offset)
  | layers + 1, l, offset => do
    let count ← number f.mmap offset 2
    let offset := offset + 2
    if wanted = some l then do
      let neighbors ← readWords f.mmap count offset
      return .inl neighbors
    else scanLayers f wanted layers (l + 1) (offset + count * 4)

/-- The nodes from `i` on. -/
def scanNodes (f : MmapHnswGraph) (nodeIdx layer : Nat) : Nat → Nat → Nat → Outcome (List UInt32)
  | 0, _, _ => .ok []
  | nodes + 1, i, offset => do
    let nodeMaxLayer ← f.nodeMaxLayer i
    let found ← f.scanLayers (if i = nodeIdx then some layer else none) (nodeMaxLayer + 1) 0 offset
    match found with
    | .inl neighbors => .ok neighbors
    | .inr offset => scanNodes f nodeIdx layer nodes (i + 1) offset

def getNeighbors (f : MmapHnswGraph) (nodeIdx layer : Nat) : Outcome (List UInt32) :=
  f.scanNodes nodeIdx layer (nodeIdx + 1) 0 f.header.adjacencyOffset

end MmapHnswGraph

/-- Node ids are `u32`, the vectors have a length for each node and fit into the memory, and the
lists are within the maxima. -/
structure WellFormed (g : HnswGraph) : Prop where
  ids : g.len ≤ 2 ^ 32
  vectors : g.vectors.length = g.len * g.config.dim
  memory : g.vectors.length * 4 < 2 ^ 63
  externalIds : g.externalIds.length = g.len
  nodeMaxLayers : g.nodeMaxLayers.length = g.len
  slots : g.neighbors0.length = g.len * g.config.m0
  counts : g.neighbors0Counts.length = g.len
  maxima0 : ∀ count ∈ g.neighbors0Counts, count.toNat ≤ g.config.m0
  uppers : g.neighborsUpper.length = g.len
  layers : ∀ (i : Nat) (upper : List (List UInt32)), g.neighborsUpper[i]? = some upper →
    g.nodeMaxLayers[i]? = some upper.length
  maxima : ∀ i layer ids, g.getNeighbors i layer = some ids →
    ids.length ≤ g.config.maxEdges layer ∧ ∀ n ∈ ids, n.toNat < g.len
  entry : match g.entryPoint with
    | none => g.len = 0
    | some e => e.toNat < g.len ∧ g.nodeMaxLayers[e.toNat]? = some g.maxLayer

/-- What is read of the file is what the graph has. -/
def Agree {α : Type} (x : Option α) (y : Outcome α) : Prop := ∃ a, x = some a ∧ y = .ok a

structure Same (g : HnswGraph) (f : MmapHnswGraph) : Prop where
  nodeCount : f.nodeCount = g.len
  dim : f.dim = g.config.dim
  entryPoint : g.entryPoint = some f.entryPoint
  maxLayer : f.maxLayer = g.maxLayer
  externalId : ∀ i < g.len, Agree (g.getExternalId i) (f.externalId i)
  vector : ∀ i < g.len, Agree (g.getVector i) (f.getVector i)
  nodeMaxLayer : ∀ i < g.len, Agree (g.nodeMaxLayer i) (f.nodeMaxLayer i)
  neighbors : ∀ i < g.len, ∀ layer, Agree (g.getNeighbors i layer) (f.getNeighbors i layer)
  above : ∀ i maxLayer, g.nodeMaxLayer i = some maxLayer → ∀ layer, maxLayer < layer →
    f.getNeighbors i layer = .ok []

/-- There is a node, and what is narrowed in the file has room there. -/
structure Fits (g : HnswGraph) : Prop where
  nonempty : 0 < g.len
  dim : g.config.dim < 2 ^ 32
  maxLayer : g.maxLayer < 2 ^ 32
  nodeMaxLayers : ∀ i maxLayer, g.nodeMaxLayer i = some maxLayer → maxLayer < 2 ^ 32
  lists : ∀ i layer ids, g.getNeighbors i layer = some ids → ids.length < 2 ^ 16

section Contents

variable {g : HnswGraph} {i layer : Nat}

namespace HnswGraph

def vectorOf (g : HnswGraph) (i : Nat) : List UInt32 :=
  (g.vectors.drop (i * g.config.dim)).take g.config.dim

def layerOf (g : HnswGraph) (i : Nat) : Nat := g.nodeMaxLayers[i]?.getD 0

def neighborsOf (g : HnswGraph) (i layer : Nat) : List UInt32 := (g.getNeighbors i layer).getD []

def metaOf (g : HnswGraph) (i : Nat) : Bytes :=
  toLe 8 ((g.externalIds[i]?.getD 0).toNat) ++ (toLe 4 (g.layerOf i) ++ List.replicate 4 0)

def listsOf (g : HnswGraph) (i : Nat) : Bytes :=
  (List.range (g.layerOf i + 1)).flatMap fun layer => listBytes (g.neighborsOf i layer)

/-- The file of a graph that has all its parts. -/
def bytes (g : HnswGraph) : Bytes :=
  g.header ++ ((List.range g.len).flatMap g.metaOf ++
    ((List.range g.len).flatMap (fun i => (g.vectorOf i).flatMap word) ++
      (List.range g.len).flatMap g.listsOf))

end HnswGraph

namespace WellFormed

variable (wellFormed : WellFormed g)
include wellFormed

theorem getExternalId (inside : i < g.len) :
    g.getExternalId i = some (g.externalIds[i]?.getD 0) := by
  have there : i < g.externalIds.length := by
    rw [wellFormed.externalIds]
    exact inside
  rw [HnswGraph.getExternalId, if_neg inside.not_ge, getElem?_eq_getElem there]
  rfl

theorem getVector (inside : i < g.len) :
    g.getVector i = some (g.vectorOf i) ∧ (g.vectorOf i).length = g.config.dim := by
  have whole : i * g.config.dim + g.config.dim ≤ g.vectors.length := by
    rw [wellFormed.vectors, ← Nat.succ_mul]
    exact Nat.mul_le_mul_right _ inside
  refine ⟨if_pos whole, ?_⟩
  rw [HnswGraph.vectorOf, length_take, length_drop]
  omega

theorem nodeMaxLayer (inside : i < g.len) : g.nodeMaxLayer i = some (g.layerOf i) := by
  have there : i < g.nodeMaxLayers.length := by
    rw [wellFormed.nodeMaxLayers]
    exact inside
  rw [HnswGraph.nodeMaxLayer, HnswGraph.layerOf, getElem?_eq_getElem there]
  rfl

theorem upper (inside : i < g.len) :
    ∃ upper, g.neighborsUpper[i]? = some upper ∧ upper.length = g.layerOf i := by
  have there : i < g.neighborsUpper.length := by
    rw [wellFormed.uppers]
    exact inside
  have found := getElem?_eq_getElem there
  have layers := wellFormed.layers i _ found
  exact ⟨_, found, by rw [HnswGraph.layerOf, layers]; rfl⟩

theorem getNeighbors (inside : i < g.len) (layer : Nat) :
    g.getNeighbors i layer = some (g.neighborsOf i layer) := by
  have there : (g.getNeighbors i layer).isSome := by
    rw [HnswGraph.getNeighbors]
    split
    · have counted : i < g.neighbors0Counts.length := by
        rw [wellFormed.counts]
        exact inside
      rw [getElem?_eq_getElem counted]
      rfl
    · obtain ⟨upper, found, -⟩ := wellFormed.upper inside
      rw [found]
      rfl
  obtain ⟨ids, eq⟩ := isSome_iff_exists.mp there
  rw [HnswGraph.neighborsOf, eq]
  rfl

/-- The lists above the layers of a node are empty. -/
theorem above (inside : i < g.len) (high : g.layerOf i < layer) : g.neighborsOf i layer = [] := by
  obtain ⟨upper, found, length⟩ := wellFormed.upper inside
  rw [HnswGraph.neighborsOf, HnswGraph.getNeighbors, if_neg (by omega), found, map_some,
    getElem?_eq_none (by omega)]
  rfl

theorem writeHnswFile_eq : writeHnswFile g = some g.bytes := by
  have range {i : Nat} (mem : i ∈ List.range g.len) : i < g.len := mem_range.mp mem
  have metas : (List.range g.len).mapM g.nodeMeta = some ((List.range g.len).map g.metaOf) :=
    Collect.mapM_of_forall fun i mem => by
      simp only [HnswGraph.nodeMeta, wellFormed.getExternalId (range mem),
        (wellFormed.getVector (range mem)).1, wellFormed.nodeMaxLayer (range mem),
        bind_eq_bind, bind_some, getD_some, HnswGraph.metaOf]
  have vectors : (List.range g.len).mapM g.nodeVector =
      some ((List.range g.len).map fun i => (g.vectorOf i).flatMap word) :=
    Collect.mapM_of_forall fun i mem => by
      simp only [HnswGraph.nodeVector, (wellFormed.getVector (range mem)).1, map_some]
  have adjacency : (List.range g.len).mapM g.nodeAdjacency =
      some ((List.range g.len).map g.listsOf) :=
    Collect.mapM_of_forall fun i mem => by
      have lists : (List.range (g.layerOf i + 1)).mapM
          (fun layer => (g.getNeighbors i layer).map listBytes) =
            some
              ((List.range (g.layerOf i + 1)).map fun layer => listBytes (g.neighborsOf i layer)) :=
        Collect.mapM_of_forall fun layer _ => by
          rw [wellFormed.getNeighbors (range mem), map_some]
      simp only [HnswGraph.nodeAdjacency, wellFormed.nodeMaxLayer (range mem), lists,
        bind_eq_bind, bind_some, HnswGraph.listsOf, flatMap_def]
  simp only [writeHnswFile, metas, vectors, adjacency, bind_eq_bind, bind_some,
    HnswGraph.bytes, flatMap_def]

end WellFormed

end Contents

section Numbers

variable {data rest : Bytes} {i w n : Nat}

theorem number_eq (h : Remaining data i (toLe w n ++ rest)) :
    number data i w = .ok (n % 256 ^ w) := by
  rw [number, h.getSlice (toLe_length w n), ok_bind, ofLe_toLe]
  rfl

theorem number_of_lt (h : Remaining data i (toLe w n ++ rest)) (small : n < 256 ^ w) :
    number data i w = .ok n := by
  rw [number_eq h, Nat.mod_eq_of_lt small]

theorem word_of_number (e : UInt32) : (e.toNat % 256 ^ 4).toUInt32 = e := by
  rw [Nat.mod_eq_of_lt (show e.toNat < 256 ^ 4 from e.toNat_lt)]
  exact UInt32.ofNat_toNat

variable {ids : List UInt32}

theorem readWords_spec (h : Remaining data i (ids.flatMap word ++ rest)) :
    readWords data ids.length i = .ok ids := by
  induction ids generalizing i with
  | nil => rfl
  | cons e ids ih =>
    rw [flatMap_cons, append_assoc] at h
    have first := number_eq h
    have next := ih (h.skip (toLe_length 4 e.toNat))
    rw [length_cons, readWords, first, ok_bind, next, ok_bind, word_of_number]
    rfl

theorem length_of_readWords {count : Nat} (read : readWords data count i = .ok ids) :
    ids.length = count := by
  induction count generalizing i ids with
  | zero =>
    cases read
    rfl
  | succ count ih =>
    obtain ⟨n, -, read⟩ := bind_eq_ok.mp read
    obtain ⟨rest, later, done⟩ := bind_eq_ok.mp read
    cases done
    rw [length_cons, ih later]

theorem length_flatMap_word (ids : List UInt32) : (ids.flatMap word).length = ids.length * 4 := by
  rw [length_flatMap, map_congr_left (fun e _ => toLe_length 4 e.toNat), map_const',
    sum_replicate_nat]

end Numbers

section Header

variable {g : HnswGraph}

theorem length_header (g : HnswGraph) : g.header.length = 64 := by
  simp [HnswGraph.header, word]

theorem WellFormed.offsets (wellFormed : WellFormed g) :
    g.len < 256 ^ 8 ∧ g.vectorsOffset < 256 ^ 8 ∧ g.adjacencyOffset < 256 ^ 8 := by
  have ids := wellFormed.ids
  have memory := wellFormed.memory
  rw [wellFormed.vectors] at memory
  have narrowed : g.len * (g.config.dim % 2 ^ 32) ≤ g.len * g.config.dim :=
    Nat.mul_le_mul_left g.len (Nat.mod_le _ _)
  rw [HnswGraph.adjacencyOffset, HnswGraph.vectorsOffset, headerSize, nodeMetaSize]
  refine ⟨?_, ?_, ?_⟩ <;> omega

/-- What the header of the file has. -/
structure Opened (g : HnswGraph) (f : MmapHnswGraph) : Prop where
  mmap : f.mmap = g.bytes
  dim : f.dim = g.config.dim % 2 ^ 32
  maxLayer : f.maxLayer = g.maxLayer % 2 ^ 32
  entryPoint : f.entryPoint = g.entryPoint.getD 0
  nodeCount : f.nodeCount = g.len
  vectorsOffset : f.header.vectorsOffset = g.vectorsOffset
  adjacencyOffset : f.header.adjacencyOffset = g.adjacencyOffset

theorem WellFormed.openFile_eq (wellFormed : WellFormed g) :
    ∃ f, MmapHnswGraph.openFile g.bytes = .ok f ∧ Opened g f := by
  obtain ⟨len, vectorsOffset, adjacencyOffset⟩ := wellFormed.offsets
  have length : 64 ≤ g.bytes.length := by
    rw [HnswGraph.bytes, length_append, length_header]
    exact Nat.le_add_right 64 _
  obtain ⟨data, shape⟩ : ∃ data, data = g.bytes := ⟨_, rfl⟩
  have start : Remaining data 0 g.bytes := by
    rw [← shape]
    exact Remaining.start data
  rw [← shape] at length ⊢
  rw [HnswGraph.bytes, HnswGraph.header] at start
  simp only [append_assoc] at start
  have at_4 : Remaining data 4 _ := start.skip (toLe_length 4 _)
  have at_8 : Remaining data 8 _ := at_4.skip (toLe_length 4 _)
  have at_12 : Remaining data 12 _ := at_8.skip (toLe_length 4 _)
  have at_16 : Remaining data 16 _ := at_12.skip (toLe_length 4 _)
  have at_20 : Remaining data 20 _ := at_16.skip (toLe_length 4 _)
  have at_24 : Remaining data 24 _ := at_20.skip (toLe_length 4 _)
  have at_28 : Remaining data 28 _ := at_24.skip (toLe_length 4 _)
  have at_32 : Remaining data 32 _ := at_28.skip (toLe_length 4 _)
  have at_40 : Remaining data 40 _ := at_32.skip (toLe_length 8 _)
  have at_48 : Remaining data 48 _ := at_40.skip (toLe_length 8 _)
  have header : MmapHnswGraph.readHeader data = .ok ⟨g.config.dim % 256 ^ 4, g.config.m % 256 ^ 4,
      g.config.m0 % 256 ^ 4, g.config.efConstruction % 256 ^ 4, g.maxLayer % 256 ^ 4,
      g.entryPoint.getD 0, g.len, g.vectorsOffset, g.adjacencyOffset⟩ := by
    simp only [MmapHnswGraph.readHeader, number_eq at_8, number_eq at_12, number_eq at_16,
      number_eq at_20, number_eq at_24, number_eq at_28, number_of_lt at_32 len,
      number_of_lt at_40 vectorsOffset, number_of_lt at_48 adjacencyOffset, ok_bind, pure_eq,
      word_of_number]
  have magic : number data 0 4 = .ok hnswMagic := number_of_lt start (by decide)
  have version : number data 4 4 = .ok hnswVersion := number_of_lt at_4 (by decide)
  have current : FormatSupport.hnsw.check (hnswVersion % 2 ^ 16) = .ok () := rfl
  refine ⟨⟨data, ⟨g.config.dim % 256 ^ 4, g.config.m % 256 ^ 4, g.config.m0 % 256 ^ 4,
    g.config.efConstruction % 256 ^ 4, g.maxLayer % 256 ^ 4, g.entryPoint.getD 0, g.len,
    g.vectorsOffset, g.adjacencyOffset⟩⟩, ?_, ⟨shape, rfl, rfl, rfl, rfl, rfl, rfl⟩⟩
  rw [MmapHnswGraph.openFile, if_neg (by rw [headerSize]; omega), magic, ok_bind,
    if_neg (by simp), version, ok_bind, current, ok_bind, header, ok_bind]
  rfl

end Header

section Nodes

variable {g : HnswGraph} {f : MmapHnswGraph} {i layer : Nat}

theorem WellFormed.vectorWidth (wellFormed : WellFormed g) : ∀ j ∈ List.range g.len,
    ((g.vectorOf j).flatMap word).length = g.config.dim * 4 := fun j mem => by
  rw [length_flatMap_word, (wellFormed.getVector (mem_range.mp mem)).2]

variable (opened : Opened g f)
include opened

theorem Opened.metas : Remaining f.mmap 64 ((List.range g.len).flatMap g.metaOf ++
    ((List.range g.len).flatMap (fun i => (g.vectorOf i).flatMap word) ++
      (List.range g.len).flatMap g.listsOf)) := by
  rw [opened.mmap]
  have start := Remaining.start g.bytes
  have skipped := start.skip (length_header g)
  rwa [zero_add] at skipped

theorem Opened.nodeMeta (inside : i < g.len) :
    ∃ rest, Remaining f.mmap (headerSize + i * nodeMetaSize) (g.metaOf i ++ rest) := by
  have width : ∀ j ∈ List.range g.len, (g.metaOf j).length = 16 := fun j _ => by
    simp [HnswGraph.metaOf]
  have there := opened.metas.chunk width (n := i) (by rw [length_range]; exact inside)
  rw [getElem_range] at there
  exact ⟨_, there⟩

theorem Opened.externalId (inside : i < g.len) :
    f.externalId i = .ok (g.externalIds[i]?.getD 0) := by
  obtain ⟨rest, there⟩ := opened.nodeMeta inside
  rw [MmapHnswGraph.externalId, number_of_lt there (UInt64.toNat_lt _), ok_bind]
  exact congrArg Decoded.ok UInt64.ofNat_toNat

theorem Opened.nodeMaxLayer (inside : i < g.len) :
    f.nodeMaxLayer i = .ok (g.layerOf i % 2 ^ 32) := by
  obtain ⟨rest, there⟩ := opened.nodeMeta inside
  rw [HnswGraph.metaOf, append_assoc] at there
  have behind := there.skip (toLe_length 8 _)
  exact number_eq behind

theorem Opened.vectors : Remaining f.mmap g.vectorsOffset
    ((List.range g.len).flatMap (fun i => (g.vectorOf i).flatMap word) ++
      (List.range g.len).flatMap g.listsOf) := by
  have width : ∀ j ∈ List.range g.len, (g.metaOf j).length = 16 := fun j _ => by
    simp [HnswGraph.metaOf]
  have there := opened.metas.chunks width
  rwa [length_range] at there

variable (wellFormed : WellFormed g)
include wellFormed

theorem Opened.getVector (small : g.config.dim < 2 ^ 32) (inside : i < g.len) :
    f.getVector i = .ok (g.vectorOf i) := by
  have dim : f.dim = g.config.dim := by rw [opened.dim, Nat.mod_eq_of_lt small]
  have there := opened.vectors.chunk wellFormed.vectorWidth (n := i)
    (by rw [length_range]; exact inside)
  rw [getElem_range, ← mul_assoc] at there
  obtain ⟨-, length⟩ := wellFormed.getVector inside
  have width : ((g.vectorOf i).flatMap word).length = g.config.dim * 4 := by
    rw [length_flatMap_word, length]
  have whole : Remaining ((g.vectorOf i).flatMap word) 0 ((g.vectorOf i).flatMap word ++ []) := by
    rw [append_nil]
    exact Remaining.start _
  simp only [MmapHnswGraph.getVector, opened.vectorsOffset, dim]
  rw [there.getSlice width, ok_bind, ← length]
  exact readWords_spec whole

theorem Opened.adjacency (small : g.config.dim < 2 ^ 32) :
    Remaining f.mmap f.header.adjacencyOffset ((List.range g.len).flatMap g.listsOf) := by
  have there := opened.vectors.chunks wellFormed.vectorWidth
  rw [length_range, ← mul_assoc] at there
  rwa [opened.adjacencyOffset, HnswGraph.adjacencyOffset, Nat.mod_eq_of_lt small]

end Nodes

section Scanning

variable {f : MmapHnswGraph} {lists : Nat → List UInt32} {wanted : Option Nat} {rest : Bytes}
  {l k offset : Nat}

/-- The lists of the layers from `l` on. -/
def layersFrom (lists : Nat → List UInt32) (l k : Nat) : Bytes :=
  (List.range' l k).flatMap fun layer => listBytes (lists layer)

theorem layersFrom_succ : layersFrom lists l (k + 1) =
    toLe 2 (lists l).length ++ ((lists l).flatMap word ++ layersFrom lists (l + 1) k) := by
  rfl

theorem count_of_short {ids : List UInt32} (short : ids.length < 2 ^ 16) :
    ids.length % 256 ^ 2 = ids.length :=
  Nat.mod_eq_of_lt short

/-- Lists that are not wanted are passed over. -/
theorem scanLayers_pass (short : ∀ layer ∈ List.range' l k, (lists layer).length < 2 ^ 16)
    (other : ∀ layer ∈ List.range' l k, wanted ≠ some layer)
    (there : Remaining f.mmap offset (layersFrom lists l k ++ rest)) :
    ∃ behind, f.scanLayers wanted k l offset = .ok (.inr behind) ∧
      Remaining f.mmap behind rest := by
  induction k generalizing l offset with
  | zero => exact ⟨offset, rfl, there⟩
  | succ k ih =>
    rw [range'_succ, forall_mem_cons] at short other
    rw [layersFrom_succ, append_assoc, append_assoc] at there
    have count := number_eq there
    rw [count_of_short short.1] at count
    have next := (there.skip (toLe_length 2 _)).skip (length_flatMap_word _)
    obtain ⟨behind, scanned, done⟩ := ih short.2 other.2 next
    refine ⟨behind, ?_, done⟩
    rw [MmapHnswGraph.scanLayers, count, ok_bind]
    simp only [other.1, if_false]
    exact scanned

/-- The wanted list is read by its narrowed count. -/
theorem scanLayers_found {j : Nat} (inside : j < k)
    (short : ∀ layer, l ≤ layer → layer < l + j → (lists layer).length < 2 ^ 16)
    (there : Remaining f.mmap offset (layersFrom lists l k ++ rest)) :
    ∃ at_list behind, f.scanLayers (some (l + j)) k l offset =
        (readWords f.mmap ((lists (l + j)).length % 256 ^ 2) at_list >>= fun ids =>
          .ok (.inl ids)) ∧
      Remaining f.mmap at_list ((lists (l + j)).flatMap word ++ behind) := by
  induction k generalizing l j offset with
  | zero => exact absurd inside (Nat.not_lt_zero j)
  | succ k ih =>
    rw [layersFrom_succ, append_assoc, append_assoc] at there
    have count := number_eq there
    have words := there.skip (toLe_length 2 _)
    cases j with
    | zero =>
      refine ⟨offset + 2, layersFrom lists (l + 1) k ++ rest, ?_, words⟩
      rw [MmapHnswGraph.scanLayers, count, ok_bind]
      simp only [add_zero, if_true]
      rfl
    | succ j =>
      rw [count_of_short (short l le_rfl (by omega))] at count
      have next := words.skip (length_flatMap_word _)
      have further : l + (j + 1) = l + 1 + j := by omega
      obtain ⟨at_list, behind, scanned, found⟩ := ih (Nat.lt_of_succ_lt_succ inside)
        (fun layer low high => short layer (by omega) (by omega)) next
      rw [further]
      refine ⟨at_list, behind, ?_, found⟩
      rw [MmapHnswGraph.scanLayers, count, ok_bind]
      simp only [some.injEq, show ¬ l + 1 + j = l by omega, if_false]
      exact scanned

variable {g : HnswGraph} {i nodeIdx layer : Nat}

/-- The lists of a node that are there are short enough for their counts. -/
def Short (g : HnswGraph) (i : Nat) : Prop :=
  ∀ layer, layer ≤ g.layerOf i → (g.neighborsOf i layer).length < 2 ^ 16

theorem listsOf_eq (g : HnswGraph) (i : Nat) :
    g.listsOf i = layersFrom (g.neighborsOf i) 0 (g.layerOf i + 1) := by
  rw [HnswGraph.listsOf, layersFrom, range_eq_range']

/-- The nodes before the one that is looked for are passed over. -/
theorem scanNodes_reach (reads : ∀ j, j ≤ nodeIdx → f.nodeMaxLayer j = .ok (g.layerOf j))
    (inside : nodeIdx < g.len) (short : ∀ j < nodeIdx, Short g j) (before : i ≤ nodeIdx)
    (there : Remaining f.mmap offset ((List.range' i (g.len - i)).flatMap g.listsOf)) :
    ∃ at_node rest, f.scanNodes nodeIdx layer (nodeIdx + 1 - i) i offset =
        f.scanNodes nodeIdx layer 1 nodeIdx at_node ∧
      Remaining f.mmap at_node (g.listsOf nodeIdx ++ rest) := by
  induction further : nodeIdx - i generalizing i offset with
  | zero =>
    obtain rfl : i = nodeIdx := by omega
    obtain ⟨n, rest⟩ : ∃ n, g.len - i = n + 1 := ⟨g.len - i - 1, by omega⟩
    rw [rest, range'_succ, flatMap_cons] at there
    refine ⟨offset, _, by rw [Nat.add_sub_cancel_left], there⟩
  | succ k ih =>
    obtain ⟨n, rest⟩ : ∃ n, g.len - i = n + 1 := ⟨g.len - i - 1, by omega⟩
    rw [rest, range'_succ, flatMap_cons, listsOf_eq] at there
    have other : i ≠ nodeIdx := by omega
    obtain ⟨behind, scanned, next⟩ := @scanLayers_pass f (g.neighborsOf i)
      (if i = nodeIdx then some layer else none) _ 0 (g.layerOf i + 1) offset
      (fun layer mem => short i (by omega) layer (by
        have := mem_range'_1.mp mem
        omega))
      (fun layer _ => by simp [other]) there
    have fewer : n = g.len - (i + 1) := by omega
    rw [fewer] at next
    obtain ⟨at_node, rest, reached, found⟩ := ih (by omega) next (by omega)
    refine ⟨at_node, rest, ?_, found⟩
    have steps : nodeIdx + 1 - i = (nodeIdx + 1 - (i + 1)) + 1 := by omega
    rw [steps, MmapHnswGraph.scanNodes, reads i before, ok_bind, scanned, ok_bind]
    exact reached

variable (reads : ∀ j, j < g.len → f.nodeMaxLayer j = .ok (g.layerOf j))
  (start : Remaining f.mmap f.header.adjacencyOffset ((List.range g.len).flatMap g.listsOf))
  (inside : i < g.len) (short : ∀ j < i, Short g j)
include reads start inside short

theorem getNeighbors_found (high : layer ≤ g.layerOf i)
    (lower : ∀ l < layer, (g.neighborsOf i l).length < 2 ^ 16) :
    ∃ at_list behind, f.getNeighbors i layer =
        readWords f.mmap ((g.neighborsOf i layer).length % 256 ^ 2) at_list ∧
      Remaining f.mmap at_list ((g.neighborsOf i layer).flatMap word ++ behind) := by
  rw [range_eq_range'] at start
  obtain ⟨at_node, rest, reached, there⟩ := @scanNodes_reach f _ g 0 i layer
    (fun j le => reads j (Nat.lt_of_le_of_lt le inside)) inside short (Nat.zero_le i) start
  rw [listsOf_eq] at there
  obtain ⟨at_list, behind, scanned, found⟩ :=
    @scanLayers_found f (g.neighborsOf i) rest 0 (g.layerOf i + 1) at_node layer
      (Nat.lt_succ_of_le high) (fun l _ below => lower l (by omega)) there
  rw [zero_add] at scanned found
  refine ⟨at_list, behind, ?_, found⟩
  rw [MmapHnswGraph.getNeighbors]
  rw [Nat.sub_zero] at reached
  rw [reached, MmapHnswGraph.scanNodes, reads i inside, ok_bind, if_pos rfl, scanned]
  cases readWords f.mmap ((g.neighborsOf i layer).length % 256 ^ 2) at_list <;> rfl

theorem getNeighbors_above (all : Short g i) (above : g.layerOf i < layer) :
    f.getNeighbors i layer = .ok [] := by
  rw [range_eq_range'] at start
  obtain ⟨at_node, rest, reached, there⟩ := @scanNodes_reach f _ g 0 i layer
    (fun j le => reads j (Nat.lt_of_le_of_lt le inside)) inside short (Nat.zero_le i) start
  rw [listsOf_eq] at there
  obtain ⟨behind, scanned, -⟩ := @scanLayers_pass f (g.neighborsOf i) (some layer) rest 0
    (g.layerOf i + 1) at_node
    (fun l mem => all l (by have := mem_range'_1.mp mem; omega))
    (fun l mem same => by
      have := mem_range'_1.mp mem
      have := some.inj same
      omega) there
  rw [Nat.sub_zero] at reached
  rw [MmapHnswGraph.getNeighbors, reached, MmapHnswGraph.scanNodes, reads i inside, ok_bind,
    if_pos rfl, scanned, ok_bind]
  rfl

end Scanning

section Faithful

variable {g : HnswGraph} {f : MmapHnswGraph} {i layer : Nat}

theorem Agree.of_eq {α : Type} {a : α} {x : Option α} {y : Outcome α} (agree : Agree x y)
    (eq : x = some a) : y = .ok a := by
  obtain ⟨b, same, read⟩ := agree
  rw [eq] at same
  cases same
  exact read

theorem narrowed_eq {n m : Nat} (positive : 0 < m) (same : n % m = n) : n < m := by
  rw [← same]
  exact Nat.mod_lt n positive

theorem Fits.short (fits : Fits g) (wellFormed : WellFormed g) (inside : i < g.len) : Short g i :=
  fun layer _ => fits.lists i layer _ (wellFormed.getNeighbors inside layer)

theorem Fits.same (fits : Fits g) (wellFormed : WellFormed g) (opened : Opened g f) : Same g f := by
  have small := fits.dim
  have reads (j : Nat) (inside : j < g.len) : f.nodeMaxLayer j = .ok (g.layerOf j) := by
    have narrow := fits.nodeMaxLayers j _ (wellFormed.nodeMaxLayer inside)
    rw [opened.nodeMaxLayer inside, Nat.mod_eq_of_lt narrow]
  have start := opened.adjacency wellFormed small
  have above (i : Nat) (inside : i < g.len) (layer : Nat) (high : g.layerOf i < layer) :
      f.getNeighbors i layer = .ok [] :=
    getNeighbors_above reads start inside
      (fun j before => fits.short wellFormed (before.trans inside))
      (fits.short wellFormed inside) high
  refine ⟨opened.nodeCount, ?_, ?_, ?_, fun i inside => ?_, fun i inside => ?_,
    fun i inside => ?_, fun i inside layer => ?_, fun i maxLayer known layer high => ?_⟩
  · rw [opened.dim, Nat.mod_eq_of_lt small]
  · have entry := wellFormed.entry
    rw [opened.entryPoint]
    cases point : g.entryPoint with
    | none =>
      rw [point] at entry
      exact absurd fits.nonempty (by omega)
    | some e => rfl
  · rw [opened.maxLayer, Nat.mod_eq_of_lt fits.maxLayer]
  · exact ⟨_, wellFormed.getExternalId inside, opened.externalId inside⟩
  · exact ⟨_, (wellFormed.getVector inside).1, opened.getVector wellFormed small inside⟩
  · exact ⟨_, wellFormed.nodeMaxLayer inside, reads i inside⟩
  · refine ⟨_, wellFormed.getNeighbors inside layer, ?_⟩
    rcases lt_or_ge (g.layerOf i) layer with high | low
    · rw [above i inside layer high, wellFormed.above inside high]
    · obtain ⟨at_list, behind, found, there⟩ := getNeighbors_found reads start inside
        (fun j before => fits.short wellFormed (before.trans inside)) low
        (fun l below => fits.short wellFormed inside l ((Nat.le_of_lt below).trans low))
      rw [found, count_of_short (fits.short wellFormed inside layer low)]
      exact readWords_spec there
  · have inside : i < g.len := by
      rw [← wellFormed.nodeMaxLayers]
      exact (List.getElem?_eq_some_iff.mp known).1
    have same : g.layerOf i = maxLayer := by
      rw [wellFormed.nodeMaxLayer inside] at known
      exact some.inj known
    exact above i inside layer (by rw [same]; exact high)

theorem Same.short (same : Same g f) (wellFormed : WellFormed g) (opened : Opened g f)
    (reads : ∀ j, j < g.len → f.nodeMaxLayer j = .ok (g.layerOf j)) (small : g.config.dim < 2 ^ 32)
    (inside : i < g.len) : Short g i := by
  have start := opened.adjacency wellFormed small
  induction i using Nat.strongRecOn with
  | ind i before =>
    intro layer
    induction layer using Nat.strongRecOn with
    | ind layer lower =>
      intro high
      obtain ⟨at_list, behind, found, -⟩ := getNeighbors_found reads start inside
        (fun j earlier => before j earlier (earlier.trans inside)) high
        (fun l below => lower l below ((Nat.le_of_lt below).trans high))
      have read := (same.neighbors i inside layer).of_eq (wellFormed.getNeighbors inside layer)
      rw [found] at read
      exact narrowed_eq (by decide) (length_of_readWords read).symm

theorem Same.fits (same : Same g f) (wellFormed : WellFormed g) (opened : Opened g f) : Fits g := by
  have small : g.config.dim < 2 ^ 32 :=
    narrowed_eq (by decide) (opened.dim.symm.trans same.dim)
  have layer (i : Nat) (inside : i < g.len) : g.layerOf i < 2 ^ 32 := by
    have read := (same.nodeMaxLayer i inside).of_eq (wellFormed.nodeMaxLayer inside)
    rw [opened.nodeMaxLayer inside] at read
    exact narrowed_eq (by decide) (Decoded.ok.inj read)
  have reads (j : Nat) (inside : j < g.len) : f.nodeMaxLayer j = .ok (g.layerOf j) := by
    rw [opened.nodeMaxLayer inside, Nat.mod_eq_of_lt (layer j inside)]
  refine ⟨?_, small, narrowed_eq (by decide) (opened.maxLayer.symm.trans same.maxLayer),
    fun i maxLayer known => ?_, fun i layer ids known => ?_⟩
  · have entry := wellFormed.entry
    rw [same.entryPoint] at entry
    exact (Nat.zero_le _).trans_lt entry.1
  · have inside : i < g.len := by
      rw [← wellFormed.nodeMaxLayers]
      exact (List.getElem?_eq_some_iff.mp known).1
    rw [wellFormed.nodeMaxLayer inside] at known
    rw [← some.inj known]
    exact layer i inside
  · by_cases inside : i < g.len
    · rw [wellFormed.getNeighbors inside] at known
      rw [← some.inj known]
      rcases lt_or_ge (g.layerOf i) layer with high | low
      · rw [wellFormed.above inside high]
        decide
      · exact same.short wellFormed opened reads small inside layer low
    · have counts : g.neighbors0Counts.length ≤ i := by
        rw [wellFormed.counts]
        exact not_lt.mp inside
      have uppers : g.neighborsUpper.length ≤ i := by
        rw [wellFormed.uppers]
        exact not_lt.mp inside
      rw [HnswGraph.getNeighbors, getElem?_eq_none counts, getElem?_eq_none uppers] at known
      split at known <;> cases known

/-- The file has what the graph has. -/
def Faithful (g : HnswGraph) : Prop :=
  ∃ bytes f, writeHnswFile g = some bytes ∧ MmapHnswGraph.openFile bytes = .ok f ∧ Same g f

theorem Faithful.fits (faithful : Faithful g) (wellFormed : WellFormed g) : Fits g := by
  obtain ⟨f, read, opened⟩ := wellFormed.openFile_eq
  obtain ⟨bytes, f', written, read', same⟩ := faithful
  rw [wellFormed.writeHnswFile_eq] at written
  cases written
  rw [read] at read'
  cases read'
  exact same.fits wellFormed opened

/-- A graph is read back from its file exactly if it has a node and its dimension, its layers and
the lengths of its lists fit into their fields. -/
theorem hnsw_file_faithful_iff (wellFormed : WellFormed g) : Faithful g ↔ Fits g := by
  constructor
  · intro faithful
    exact faithful.fits wellFormed
  · intro fits
    obtain ⟨f, read, opened⟩ := wellFormed.openFile_eq
    exact ⟨g.bytes, f, wellFormed.writeHnswFile_eq, read, fits.same wellFormed opened⟩

/-- Two nodes, the second a neighbor of the first. -/
def pair : HnswGraph where
  config := { m := 1, m0 := 2, efConstruction := 10, maxElements := 10, dim := 1 }
  vectors := [0x3F800000, 0xBF800000]
  externalIds := [7, 9]
  nodeMaxLayers := [0, 0]
  neighbors0 := [1, 0, 0, 0]
  neighbors0Counts := [1, 0]
  neighborsUpper := [[], []]
  entryPoint := some 0
  maxLayer := 0
  len := 2

variable {ids : List UInt32}

theorem getNeighbors_pair (known : pair.getNeighbors i layer = some ids) :
    ids = [] ∨ (layer = 0 ∧ ids = [1]) := by
  rw [HnswGraph.getNeighbors] at known
  split at known
  · rename_i bottom
    rcases i with _ | _ | i
    · exact .inr ⟨bottom, (some.inj known).symm⟩
    · exact .inl (some.inj known).symm
    · cases known
  · rcases i with _ | _ | i
    · exact .inl (some.inj known).symm
    · exact .inl (some.inj known).symm
    · cases known

theorem wellFormed_pair : WellFormed pair := by
  refine ⟨by decide +kernel, rfl, by decide +kernel, rfl, rfl, rfl, rfl, by simp [pair], rfl,
    fun i upper known => ?_, fun i layer ids known => ?_, ⟨by decide, rfl⟩⟩
  · rcases i with _ | _ | i
    · cases known
      rfl
    · cases known
      rfl
    · cases known
  · rcases getNeighbors_pair known with rfl | ⟨rfl, rfl⟩
    · simp
    · refine ⟨by decide, fun n mem => ?_⟩
      obtain rfl : n = 1 := mem_singleton.mp mem
      decide

/-- The file of two nodes. -/
theorem pair_read_back : WellFormed pair ∧ Faithful pair := by
  refine ⟨wellFormed_pair, (hnsw_file_faithful_iff wellFormed_pair).mpr
    ⟨by decide +kernel, by decide +kernel, by decide +kernel, fun i maxLayer known => ?_,
      fun i layer ids known => ?_⟩⟩
  · rcases i with _ | _ | i
    · cases known
      decide +kernel
    · cases known
      decide +kernel
    · cases known
  · rcases getNeighbors_pair known with rfl | ⟨rfl, rfl⟩ <;> decide +kernel

/-- A node with all the others as neighbors in layer 1, one more than a 16-bit count has room for.
-/
def crowded : HnswGraph where
  config := { m := 65536, m0 := 131072, efConstruction := 200, maxElements := 1000000, dim := 1 }
  vectors := List.replicate 65537 0x3F800000
  externalIds := List.replicate 65537 0
  nodeMaxLayers := List.replicate 65537 1
  neighbors0 := List.replicate (65537 * 131072) 0
  neighbors0Counts := List.replicate 65537 0
  neighborsUpper := [(List.range' 1 65536).map Nat.toUInt32] :: List.replicate 65536 [[]]
  entryPoint := some 0
  maxLayer := 1
  len := 65537

theorem getNeighbors_crowded (known : crowded.getNeighbors i layer = some ids) :
    ids = [] ∨ (layer = 1 ∧ ids = (List.range' 1 65536).map Nat.toUInt32) := by
  rw [HnswGraph.getNeighbors] at known
  split at known
  · obtain ⟨count, found, rfl⟩ := map_eq_some_iff.mp known
    obtain rfl : count = 0 := eq_of_mem_replicate (mem_of_getElem? found)
    exact .inl rfl
  · rename_i upper
    obtain ⟨lists, found, rfl⟩ := map_eq_some_iff.mp known
    cases i with
    | zero =>
      obtain rfl := some.inj found
      rcases layer with _ | _ | layer
      · exact absurd rfl upper
      · exact .inr ⟨rfl, rfl⟩
      · exact .inl rfl
    | succ i =>
      obtain rfl : lists = [[]] := eq_of_mem_replicate (mem_of_getElem? found)
      rcases layer with _ | _ | layer
      · exact .inl rfl
      · exact .inl rfl
      · exact .inl rfl

theorem wellFormed_crowded : WellFormed crowded := by
  have length {α : Type} (n : Nat) (a : α) : (List.replicate n a).length = n :=
    length_replicate
  have uppers : crowded.neighborsUpper.length = 65537 := by
    have lists : crowded.neighborsUpper =
      [(List.range' 1 65536).map Nat.toUInt32] :: List.replicate 65536 [[]] := rfl
    rw [lists, length_cons, length]
  refine ⟨by decide +kernel, length _ _, ?_, length _ _, length _ _, length _ _, length _ _,
    fun count mem => ?_, ?_, fun i upper known => ?_, fun i layer ids known => ?_, ?_⟩
  · have vectors : crowded.vectors.length = 65537 := length _ _
    rw [vectors]
    decide +kernel
  · obtain rfl : count = 0 := eq_of_mem_replicate mem
    exact Nat.zero_le _
  · exact uppers
  · have inside : i < 65537 := by
      have there := (List.getElem?_eq_some_iff.mp known).1
      rwa [uppers] at there
    have one : upper.length = 1 := by
      cases i with
      | zero =>
        obtain rfl := some.inj known
        rfl
      | succ i =>
        obtain rfl : upper = [[]] := eq_of_mem_replicate (mem_of_getElem? known)
        rfl
    rw [one]
    change (List.replicate 65537 1)[i]? = some 1
    rw [getElem?_replicate, if_pos inside]
  · rcases getNeighbors_crowded known with rfl | ⟨rfl, rfl⟩
    · simp
    · refine ⟨?_, fun n mem => ?_⟩
      · rw [length_map, length_range']
        decide +kernel
      obtain ⟨k, inRange, rfl⟩ := mem_map.mp mem
      have bounds := mem_range'_1.mp inRange
      have narrow : k < UInt32.size := bounds.2.trans_le (by decide)
      have value : k.toUInt32.toNat = k := UInt32.toNat_ofNat_of_lt' narrow
      rw [value]
      exact bounds.2
  · change (0 : UInt32).toNat < 65537 ∧ (List.replicate 65537 1)[(0 : UInt32).toNat]? = some 1
    refine ⟨by decide, ?_⟩
    rw [getElem?_replicate, if_pos (by decide)]

/-- A list of 65536 neighbors is written behind a count of zero. -/
theorem long_list_not_read_back : WellFormed crowded ∧ ¬ Faithful crowded := by
  refine ⟨wellFormed_crowded, fun faithful => ?_⟩
  have known : crowded.getNeighbors 0 1 = some ((List.range' 1 65536).map Nat.toUInt32) := rfl
  have short := (faithful.fits wellFormed_crowded).lists 0 1 _ known
  rw [length_map, length_range'] at short
  exact absurd short (by decide)

end Faithful

end GalaxDb.HnswFile
