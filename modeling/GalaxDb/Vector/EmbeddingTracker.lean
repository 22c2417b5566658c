import GalaxDb.Lib.Bytes
import GalaxDb.Lib.Run
import Mathlib.Data.List.AList

/-!
# Stale embeddings

The metadata of a row's embedding: the model version that made it, and whether it waits to be
made again. A change of the model version marks the rows of the version before, and a completion
marks its row fresh whatever version it used, so rows are only as fresh as they look while no
completion of another version arrives. The two critical sections of a version change are one step.
-/

namespace GalaxDb

open Bytes AList

namespace Embeddings

section Operations

structure EmbeddingMeta where
  modelVersion : Bytes
  stale : Bool
  deriving DecidableEq

def EmbeddingMeta.newPending : EmbeddingMeta := ⟨[], true⟩

def EmbeddingMeta.completed (modelVersion : Bytes) : EmbeddingMeta := ⟨modelVersion, false⟩

def EmbeddingMeta.markStale (m : EmbeddingMeta) : EmbeddingMeta := { m with stale := true }

/-- A table and a row of it. -/
abbrev RowId := Bytes × UInt64

abbrev Metadata := AList fun _ : RowId => EmbeddingMeta

/-- The same rows with changed metadata. -/
def Metadata.mapValues (f : EmbeddingMeta → EmbeddingMeta) (inner : Metadata) : Metadata where
  entries := inner.entries.map fun e => ⟨e.1, f e.2⟩
  nodupKeys := by
    have keys :
        (inner.entries.map fun e => (⟨e.1, f e.2⟩ : Sigma fun _ : RowId => EmbeddingMeta)).keys =
        inner.entries.keys := by
      simp [List.keys]
    rw [List.NodupKeys, keys]
    exact inner.nodupKeys

structure EmbeddingTracker where
  inner : Metadata
  currentModelVersion : Bytes

def EmbeddingTracker.new : EmbeddingTracker := ⟨∅, []⟩

variable (tracker : EmbeddingTracker)

def EmbeddingTracker.onInsert (row : RowId) : EmbeddingTracker :=
  { tracker with inner := tracker.inner.insert row .newPending }

def EmbeddingTracker.onEmbeddingComplete (row : RowId) (modelVersion : Bytes) : EmbeddingTracker :=
  { tracker with inner := tracker.inner.insert row (.completed modelVersion) }

def EmbeddingTracker.onDelete (row : RowId) : EmbeddingTracker :=
  { tracker with inner := tracker.inner.erase row }

/-- With the number of rows that became stale. -/
def EmbeddingTracker.onModelVersionChange (newVersion : Bytes) : EmbeddingTracker × Nat :=
  let oldVersion := tracker.currentModelVersion
  if oldVersion = [] ∨ oldVersion = newVersion then
    ({ tracker with currentModelVersion := newVersion }, 0)
  else
    let outdated (m : EmbeddingMeta) : Bool := m.modelVersion = oldVersion && !m.stale
    (⟨tracker.inner.mapValues fun m => if outdated m then m.markStale else m, newVersion⟩,
      tracker.inner.entries.countP fun e => outdated e.2)

def EmbeddingTracker.getMeta (row : RowId) : Option EmbeddingMeta := tracker.inner.lookup row

def EmbeddingTracker.isStale (row : RowId) : Bool := (tracker.getMeta row).any (·.stale)

/-- The rows of a table to embed again. -/
def EmbeddingTracker.staleRows (table : Bytes) : List UInt64 :=
  (tracker.inner.entries.filter fun e => e.1.1 = table ∧ e.2.stale).map fun e => e.1.2

end Operations

section Lookups

variable {tracker : EmbeddingTracker} {row : RowId} {m : EmbeddingMeta}

theorem lookup_mapValues (f : EmbeddingMeta → EmbeddingMeta) (inner : Metadata) :
    (inner.mapValues f).lookup row = (inner.lookup row).map f := by
  ext m
  rw [← Option.mem_def, mem_lookup_iff, Option.map_eq_some_iff]
  simp only [Metadata.mapValues, List.mem_map, Sigma.mk.injEq, Sigma.exists]
  constructor
  · rintro ⟨row', m', mem, rfl, changed⟩
    exact ⟨m', mem_lookup_iff.mpr mem, eq_of_heq changed⟩
  · rintro ⟨m', found, rfl⟩
    exact ⟨row, m', mem_lookup_iff.mp found, rfl, HEq.rfl⟩

/-- A row is listed exactly if its metadata is stale. -/
theorem mem_staleRows {table : Bytes} {id : UInt64} :
    id ∈ tracker.staleRows table ↔ tracker.isStale (table, id) = true := by
  rw [EmbeddingTracker.isStale, EmbeddingTracker.getMeta, Option.any_eq_true]
  simp only [EmbeddingTracker.staleRows, List.mem_map, List.mem_filter, decide_eq_true_eq]
  constructor
  · rintro ⟨⟨⟨table', id'⟩, m⟩, ⟨mem, rfl, stale⟩, rfl⟩
    exact ⟨m, mem_lookup_iff.mpr mem, stale⟩
  · rintro ⟨m, found, stale⟩
    exact ⟨⟨(table, id), m⟩, ⟨mem_lookup_iff.mp found, rfl, stale⟩, rfl⟩

end Lookups

section Runs

inductive Action where
  | insert (row : RowId)
  | embeddingComplete (row : RowId) (modelVersion : Bytes)
  | modelVersionChange (newVersion : Bytes)
  | delete (row : RowId)
  deriving DecidableEq

def step (tracker : EmbeddingTracker) : Action → Option EmbeddingTracker
  | .insert row => some (tracker.onInsert row)
  | .embeddingComplete row modelVersion => some (tracker.onEmbeddingComplete row modelVersion)
  | .modelVersionChange newVersion => some (tracker.onModelVersionChange newVersion).1
  | .delete row => some (tracker.onDelete row)

/-- Every fresh row has an embedding of this version. -/
def FreshAre (tracker : EmbeddingTracker) (version : Bytes) : Prop :=
  ∀ row m, tracker.getMeta row = some m → m.stale = false → m.modelVersion = version

/-- Once a version is set, the fresh rows have embeddings of it, and the rows of other versions
are listed. -/
structure UpToDate (tracker : EmbeddingTracker) : Prop where
  fresh : tracker.currentModelVersion ≠ [] → FreshAre tracker tracker.currentModelVersion
  listed : tracker.currentModelVersion ≠ [] → ∀ table id m,
    tracker.getMeta (table, id) = some m → m.modelVersion ≠ tracker.currentModelVersion →
      id ∈ tracker.staleRows table

/-- A completion used the current version, unless there is none, and the first version that is
set is the one of the rows embedded before. -/
def InTime (tracker : EmbeddingTracker) : Action → Prop
  | .embeddingComplete _ modelVersion =>
    tracker.currentModelVersion ≠ [] → modelVersion = tracker.currentModelVersion
  | .modelVersionChange newVersion =>
    tracker.currentModelVersion = [] → newVersion ≠ [] → FreshAre tracker newVersion
  | _ => True

variable {tracker tracker' : EmbeddingTracker} {row : RowId}

/-- The second half says the first again. -/
theorem upToDate_iff : UpToDate tracker ↔
    (tracker.currentModelVersion ≠ [] → FreshAre tracker tracker.currentModelVersion) := by
  constructor
  · exact UpToDate.fresh
  · intro fresh
    refine ⟨fresh, fun set table id m found other => ?_⟩
    rw [mem_staleRows, EmbeddingTracker.isStale, found]
    by_contra notStale
    exact other (fresh set _ m found (by simpa using notStale))

variable {inner : Metadata} {current version : Bytes}

theorem freshAre_insert {m : EmbeddingMeta} : FreshAre ⟨inner.insert row m, current⟩ version ↔
      (m.stale = false → m.modelVersion = version) ∧
        FreshAre ⟨inner.erase row, current⟩ version := by
  constructor
  · intro fresh
    refine ⟨fun live => fresh row m (lookup_insert _) live, fun other m' found live => ?_⟩
    have elsewhere : other ≠ row := by
      rintro rfl
      simp [EmbeddingTracker.getMeta] at found
    refine fresh other m' ?_ live
    rw [EmbeddingTracker.getMeta] at found ⊢
    rwa [lookup_insert_ne elsewhere, ← lookup_erase_ne elsewhere]
  · rintro ⟨here, fresh⟩ other m' found live
    by_cases same : other = row
    · subst same
      rw [EmbeddingTracker.getMeta, lookup_insert] at found
      obtain rfl := Option.some.inj found
      exact here live
    · refine fresh other m' ?_ live
      rw [EmbeddingTracker.getMeta] at found ⊢
      rwa [lookup_erase_ne same, ← lookup_insert_ne same]

theorem FreshAre.erase (fresh : FreshAre ⟨inner, current⟩ version) :
    FreshAre ⟨inner.erase row, current⟩ version := by
  intro other m found live
  have elsewhere : other ≠ row := by
    rintro rfl
    simp [EmbeddingTracker.getMeta] at found
  refine fresh other m ?_ live
  rwa [EmbeddingTracker.getMeta, lookup_erase_ne elsewhere] at found

/-- A version change from a version to another leaves no fresh row, if all of them had it. -/
theorem freshAre_change {newVersion : Bytes} (set : tracker.currentModelVersion ≠ [])
    (other : tracker.currentModelVersion ≠ newVersion)
    (fresh : FreshAre tracker tracker.currentModelVersion) :
    FreshAre (tracker.onModelVersionChange newVersion).1 version := by
  intro row m found live
  rw [EmbeddingTracker.onModelVersionChange, if_neg (not_or.mpr ⟨set, other⟩)] at found
  rw [EmbeddingTracker.getMeta, lookup_mapValues] at found
  obtain ⟨before, at_row, rfl⟩ := Option.map_eq_some_iff.mp found
  have old := fresh row before at_row
  cases stale : before.stale with
  | true => simp [stale] at live
  | false => simp [old stale, stale, EmbeddingMeta.markStale] at live

/-- A step keeps the rows up to date exactly if it is in time. -/
theorem upToDate_step (before : UpToDate tracker) (a : Action) :
    (∀ next, step tracker a = some next → UpToDate next) ↔ InTime tracker a := by
  rw [upToDate_iff] at before
  cases a with
  | insert row =>
    refine iff_of_true ?_ trivial
    intro next taken
    obtain rfl := Option.some.inj taken
    rw [upToDate_iff]
    intro set
    exact freshAre_insert.mpr ⟨by simp [EmbeddingMeta.newPending], (before set).erase⟩
  | embeddingComplete row modelVersion =>
    simp only [step, Option.some.injEq, forall_eq', upToDate_iff, InTime]
    constructor
    · intro after set
      exact (freshAre_insert.mp (after set)).1 rfl
    · intro inTime set
      exact freshAre_insert.mpr ⟨fun _ => inTime set, (before set).erase⟩
  | modelVersionChange newVersion =>
    simp only [step, Option.some.injEq, forall_eq', upToDate_iff, InTime]
    by_cases unset : tracker.currentModelVersion = []
    · have kept : (tracker.onModelVersionChange newVersion).1 =
          { tracker with currentModelVersion := newVersion } := by
        rw [EmbeddingTracker.onModelVersionChange, if_pos (Or.inl unset)]
      rw [kept]
      exact ⟨fun after _ => after, fun inTime => inTime unset⟩
    · refine iff_of_true (fun set => ?_) fun none => absurd none unset
      by_cases same : tracker.currentModelVersion = newVersion
      · have kept : (tracker.onModelVersionChange newVersion).1 =
            { tracker with currentModelVersion := newVersion } := by
          rw [EmbeddingTracker.onModelVersionChange, if_pos (Or.inr same)]
        rw [kept]
        exact same ▸ before unset
      · exact freshAre_change unset same (before unset)
  | delete row =>
    refine iff_of_true ?_ trivial
    intro next taken
    obtain rfl := Option.some.inj taken
    rw [upToDate_iff]
    intro set
    exact (before set).erase

/-- No row with an old embedding is reported fresh in a run exactly if its steps are in time. -/
theorem up_to_date_exact (acts : List Action) :
    Run.Throughout step UpToDate .new acts ↔ Run.Along step InTime .new acts := by
  have start : UpToDate .new := upToDate_iff.mpr fun set => absurd rfl set
  rw [Run.throughout_iff_along, and_iff_right start]
  exact Run.along_iff (fun _ a before => upToDate_step before a)
    (fun _ _ _ _ kept taken => kept _ taken) start

/-- The first model's embedding of a row arrives after the change to the second. -/
def lateCompletion : List Action :=
  [.modelVersionChange (ascii "v1"), .insert (ascii "docs", 1), .modelVersionChange (ascii "v2"),
    .embeddingComplete (ascii "docs", 1) (ascii "v1")]

/-- The completion of an older request marks the newer text as embedded. -/
theorem late_completion_reported_fresh : ¬ Run.Throughout step UpToDate .new lateCompletion := by
  intro upToDate
  have last := upToDate lateCompletion [] _ (List.append_nil _) rfl
  have current := last.fresh (by decide) (ascii "docs", 1) ⟨ascii "v1", false⟩
    (by decide +kernel) rfl
  exact absurd current (by decide)

end Runs

end Embeddings

end GalaxDb
