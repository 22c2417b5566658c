import GalaxDb.Lib.Run
import GalaxDb.Sql.Value
import GalaxDb.Vector.DeltaBuffer
import Std.Data.ExtTreeMap

/-!
# Semantic searches and their cache

The index of one table behind its lock. A search holds the lock shared while it looks into the
cache, searches and stores what it found; a write computes its embedding first and then holds
the lock alone while it changes the vectors and empties the cache.
-/

namespace GalaxDb.Ann

open Ranking

/-- The numbers of a search: what the backend computes from vectors and distances. -/
structure Scoring (V D : Type) where
  cosineDistance : V → V → D
  cosineSimilarity : V → V → D
  /-- `1.0 - dist`. -/
  similarityOf : D → D
  /-- `1.0 - threshold as f32`, from the bits of the threshold. -/
  distanceThreshold : UInt64 → D
  dim : V → Nat
  xxh3 : Bytes → UInt64

/-- Row ids with their similarities. -/
abbrev Results (D : Type) := List (UInt64 × D)

section Cache

variable {V D R : Type}

/-- The results of a search, of whatever kind the searches of the backend have. -/
structure SemCacheEntry (V R : Type) where
  queryEmbedding : V
  modelVersion : String
  thresholdBits : UInt64
  k : Nat
  results : R
  createdAt : Nat
  lastUsed : Nat

/-- Times are in nanoseconds. -/
structure SemanticCache (V D R : Type) where
  enabled : Bool
  similarity : D
  ttl : Nat
  maxEntries : Nat
  entries : List (SemCacheEntry V R)

/-- What a search asks for, with its text embedded. -/
structure Query (V : Type) where
  embedding : V
  modelVersion : String
  thresholdBits : UInt64
  k : Nat

namespace SemanticCache

def defaultMaxEntries : Nat := 256

/-- `similarity: 1.0`. -/
def new (one : D) : SemanticCache V D R := ⟨false, one, 0, defaultMaxEntries, []⟩

def configure (c : SemanticCache V D R) (similarity : D) (ttlSecs : Nat) : SemanticCache V D R :=
  { c with enabled := true, similarity := similarity, ttl := ttlSecs * 1000000000, entries := [] }

def disable (c : SemanticCache V D R) : SemanticCache V D R :=
  { c with enabled := false, entries := [] }

def invalidate (c : SemanticCache V D R) : SemanticCache V D R := { c with entries := [] }

variable [LinearOrder D]

/-- An entry that answers the query. -/
def Matches (S : Scoring V D) (c : SemanticCache V D R) (q : Query V) (e : SemCacheEntry V R) :
    Prop :=
  e.thresholdBits = q.thresholdBits ∧ e.k = q.k ∧ e.modelVersion = q.modelVersion ∧
    c.similarity ≤ S.cosineSimilarity q.embedding e.queryEmbedding

instance (S : Scoring V D) (c : SemanticCache V D R) (q : Query V) (e : SemCacheEntry V R) :
    Decidable (Matches S c q e) :=
  inferInstanceAs (Decidable (e.thresholdBits = q.thresholdBits ∧ e.k = q.k ∧
    e.modelVersion = q.modelVersion ∧
      c.similarity ≤ S.cosineSimilarity q.embedding e.queryEmbedding))

def unexpired (c : SemanticCache V D R) (now : Nat) : List (SemCacheEntry V R) :=
  c.entries.filter fun e => now - e.createdAt < c.ttl

/-- Expired entries are dropped, and the first that matches is used. -/
def lookup (S : Scoring V D) (c : SemanticCache V D R) (q : Query V) (now : Nat) :
    SemanticCache V D R × Option R :=
  if c.enabled then
    match (c.unexpired now).findIdx? fun e => Matches S c q e with
    | none => ({ c with entries := c.unexpired now }, none)
    | some i =>
      ({ c with entries := (c.unexpired now).modify i fun e => { e with lastUsed := now } },
        (c.unexpired now)[i]?.map SemCacheEntry.results)
  else (c, none)

/-- The first entry of those that were used least recently, and when. -/
def oldest : List (SemCacheEntry V R) → Option (Nat × Nat)
  | [] => none
  | e :: rest =>
    match oldest rest with
    | none => some (0, e.lastUsed)
    | some (i, used) => if e.lastUsed ≤ used then some (0, e.lastUsed) else some (i + 1, used)

/-- A full cache loses its oldest entry. -/
def evicted (c : SemanticCache V D R) : List (SemCacheEntry V R) :=
  if c.maxEntries ≤ c.entries.length then
    match oldest c.entries with
    | some (i, _) => c.entries.eraseIdx i
    | none => c.entries
  else c.entries

def store (c : SemanticCache V D R) (q : Query V) (results : R) (now : Nat) : SemanticCache V D R :=
  if c.enabled then
    { c with entries := c.evicted ++
        [⟨q.embedding, q.modelVersion, q.thresholdBits, q.k, results, now, now⟩] }
  else c

end SemanticCache

end Cache

section Contents

variable {V D : Type} [LinearOrder D]

/-- What is searched. The base graph is given by its searches, by candidates and beam width; none
of the operations here changes it. -/
structure Contents (V D : Type) where
  hnsw : V → Nat → Nat → Results D
  delta : DeltaBuffer V
  vectors : Std.ExtTreeMap UInt64 V compare

def hnswCandidates : Nat := 100

def efSearch : Nat := 200

/-- The most similar first; ties keep their order. -/
def sortResults (results : Results D) : Results D := results.mergeSort fun a b => b.2 ≤ a.2

def executeSemanticMatch (S : Scoring V D) (index : Contents V D) (queryVector : V)
    (thresholdBits : UInt64) (k : Nat) : Results D :=
  let ranked := unionAndRerank S.cosineDistance (index.hnsw queryVector hnswCandidates efSearch)
    (index.delta.search S.cosineDistance queryVector hnswCandidates) index.delta.tombstones
    queryVector hnswCandidates fun rowId => index.vectors[rowId]?
  let near := (ranked.filter fun r => r.2 ≤ S.distanceThreshold thresholdBits).take k
  sortResults (near.map fun r => (r.1, S.similarityOf r.2))

end Contents

section Backend

variable {V D : Type} [LinearOrder D]

/-- The results of a search, and the writes that were complete when it was computed: all of them,
and those that changed the vectors. The code keeps the results only. -/
structure Answer (D : Type) where
  results : Results D
  completed : Nat
  changed : Nat
  deriving DecidableEq

/-- `TableVectorIndex`. -/
structure TableIndex (V D : Type) where
  sourceColumn : Bytes
  dim : Nat
  contents : Contents V D
  keyToRowId : Std.ExtTreeMap Bytes UInt64 compare
  semanticCache : SemanticCache V D (Answer D)

/-- Where a call is. -/
inductive Phase (V D : Type) where
  | idle
  | searching (q : Query V)
  | missed (q : Query V)
  | computed (q : Query V) (answer : Answer D)
  | inserting (rowKey : Bytes) (embedding : V)
  | insertLocked (rowKey : Bytes) (embedding : V)
  | deleting (rowKey : Bytes) (rowId : UInt64)
  | deleteLocked (rowKey : Bytes) (rowId : UInt64)
  -- the vectors are changed and the cache is not yet empty
  | changed

/-- The index, the holders of its lock, the calls, and the writes that are complete. -/
structure Backend (V D : Type) where
  index : TableIndex V D
  readers : List Nat
  writer : Option Nat
  phase : Nat → Phase V D
  sidecar : Bool
  completed : Nat
  changed : Nat

/-- What a thread does next. The sidecar's answers, the result of logging a delete and the clock
are inputs. -/
inductive Action (V D : Type) where
  | beginSearch (response : Option (V × String)) (thresholdBits : UInt64) (k : Nat)
  | lookup (now : Nat)
  | compute
  | store (now : Nat)
  | beginInsert (rowKey : Bytes) (row : Sql.Columns) (response : Option V)
  | beginDelete (rowKey : Bytes) (logged : Bool)
  | lock
  | change
  | invalidate
  | configureSemanticCache (similarity : D) (ttlSecs : Nat)
  | dropSemanticCache

namespace Backend

def goto (b : Backend V D) (t : Nat) (phase : Phase V D) : Backend V D :=
  { b with phase := Function.update b.phase t phase }

/-- The call returns, and the lock it held shared is free of it. -/
def endRead (b : Backend V D) (t : Nat) : Backend V D :=
  { b.goto t .idle with readers := b.readers.filter (· ≠ t) }

def setCache (b : Backend V D) (cache : SemanticCache V D (Answer D)) : Backend V D :=
  { b with index := { b.index with semanticCache := cache } }

/-- A call that completes without a change. -/
def complete (b : Backend V D) : Backend V D := { b with completed := b.completed + 1 }

/-- The text of the source column. -/
def sourceText (index : TableIndex V D) (row : Sql.Columns) : Option Bytes :=
  match row.find? fun c => c.1 = index.sourceColumn with
  | some (_, .text s) => some s
  | _ => none

/-- `none` where the thread is elsewhere or the lock is taken. -/
def step (S : Scoring V D) (b : Backend V D) : Nat × Action V D → Option (Backend V D)
  | (t, .beginSearch response thresholdBits k) =>
    match b.phase t, b.writer with
    | .idle, none =>
      match b.sidecar, response with
      | true, some (embedding, modelVersion) =>
        some { b.goto t (.searching ⟨embedding, modelVersion, thresholdBits, k⟩) with
          readers := t :: b.readers }
      -- without a sidecar, or where it fails, the search is an error
      | _, _ => some b
    | _, _ => none
  | (t, .lookup now) =>
    match b.phase t with
    | .searching q =>
      match b.index.semanticCache.lookup S q now with
      | (cache, some _) => some ((b.setCache cache).endRead t)
      | (cache, none) => some ((b.setCache cache).goto t (.missed q))
    | _ => none
  | (t, .compute) =>
    match b.phase t with
    | .missed q =>
      let results := executeSemanticMatch S b.index.contents q.embedding q.thresholdBits q.k
      some (b.goto t (.computed q ⟨results, b.completed, b.changed⟩))
    | _ => none
  | (t, .store now) =>
    match b.phase t with
    | .computed q answer => some ((b.setCache (b.index.semanticCache.store q answer now)).endRead t)
    | _ => none
  | (t, .beginInsert rowKey row response) =>
    match b.phase t, b.sidecar, b.writer with
    | .idle, false, _ => some b.complete
    | .idle, true, none =>
      match sourceText b.index row, response with
      -- nothing to embed
      | none, _ => some b.complete
      | some _, none => some b
      | some _, some embedding => some (b.goto t (.inserting rowKey embedding))
    | _, _, _ => none
  | (t, .beginDelete rowKey logged) =>
    match b.phase t, b.writer with
    | .idle, none =>
      match b.index.keyToRowId[rowKey]? with
      -- nothing to tombstone
      | none => some b.complete
      | some rowId => if logged then some (b.goto t (.deleting rowKey rowId)) else some b
    | _, _ => none
  | (t, .lock) =>
    match b.writer, b.readers, b.phase t with
    | none, [], .inserting rowKey embedding =>
      some { b.goto t (.insertLocked rowKey embedding) with writer := some t }
    | none, [], .deleting rowKey rowId =>
      some { b.goto t (.deleteLocked rowKey rowId) with writer := some t }
    | _, _, _ => none
  | (t, .change) =>
    match b.phase t with
    | .insertLocked rowKey embedding =>
      -- a vector of the wrong dimension is refused
      if S.dim embedding ≠ b.index.dim then some { b.goto t .idle with writer := none }
      else
        let rowId := S.xxh3 rowKey
        some { b.goto t .changed with
          index := { b.index with
            contents := { b.index.contents with
              delta := b.index.contents.delta.insert rowId embedding
              vectors := b.index.contents.vectors.insert rowId embedding }
            keyToRowId := b.index.keyToRowId.insert rowKey rowId } }
    | .deleteLocked rowKey rowId =>
      some { b.goto t .changed with
        index := { b.index with
          contents := { b.index.contents with
            delta := b.index.contents.delta.delete rowId
            vectors := b.index.contents.vectors.erase rowId }
          keyToRowId := b.index.keyToRowId.erase rowKey } }
    | _ => none
  | (t, .invalidate) =>
    match b.phase t with
    | .changed => some { (b.setCache b.index.semanticCache.invalidate).goto t .idle with
        writer := none, completed := b.completed + 1, changed := b.changed + 1 }
    | _ => none
  | (_, .configureSemanticCache similarity ttlSecs) =>
    match b.writer with
    | none => some (b.setCache (b.index.semanticCache.configure similarity ttlSecs))
    | some _ => none
  | (_, .dropSemanticCache) =>
    match b.writer with
    | none => some (b.setCache b.index.semanticCache.disable)
    | some _ => none

/-- Nothing is running, and the cache is the new one. -/
def initial (one : D) (index : TableIndex V D) (sidecar : Bool) : Backend V D :=
  ⟨{ index with semanticCache := .new one }, [], none, fun _ => .idle, sidecar, 0, 0⟩

/-- Thread `t` is about to be served an answer from the cache. -/
def Hits (S : Scoring V D) (b : Backend V D) (t now : Nat) (answer : Answer D) : Prop :=
  ∃ q, b.phase t = .searching q ∧ (b.index.semanticCache.lookup S q now).2 = some answer

end Backend

end Backend

end GalaxDb.Ann
