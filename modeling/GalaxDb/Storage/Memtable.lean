import GalaxDb.Lib.Bytes
import GalaxDb.Lib.Newest

/-!
# Memtable

The in-memory write buffer. The sixteen shards of the code partition the keys by
a hash and every shard is ordered by key; their union is one ordered map, which is
what `iterAll` sorts them into. A version chain is kept newest first.
-/

namespace GalaxDb

abbrev Timestamp := Nat

/-- One link of a version chain; no value is a tombstone. -/
structure Version where
  timestamp : Timestamp
  value : Option Bytes
  deriving DecidableEq

/-- The newest version of a key with the versions it replaced, newest first. -/
structure VersionedValue where
  timestamp : Timestamp
  value : Option Bytes
  prev : List Version
  deriving DecidableEq

namespace VersionedValue

def versions (v : VersionedValue) : List Version :=
  ⟨v.timestamp, v.value⟩ :: v.prev

def getAtWithTs (v : VersionedValue) (readTs : Timestamp) : Option (Option Bytes × Timestamp) :=
  (v.versions.find? (fun w => w.timestamp ≤ readTs)).map (fun w => (w.value, w.timestamp))

def getAt (v : VersionedValue) (readTs : Timestamp) : Option (Option Bytes) :=
  (v.getAtWithTs readTs).map Prod.fst

/-- The versions are in descending order of their timestamps. -/
def Chained (v : VersionedValue) : Prop :=
  v.versions.Pairwise fun a b => b.timestamp < a.timestamp

instance (v : VersionedValue) : Decidable v.Chained :=
  inferInstanceAs (Decidable (v.versions.Pairwise fun a b => b.timestamp < a.timestamp))

variable {v : VersionedValue} {readTs : Timestamp}

theorem Chained.eq_of_timestamp (chained : v.Chained) {a b : Version} (ha : a ∈ v.versions)
    (hb : b ∈ v.versions) (h : a.timestamp = b.timestamp) : a = b := by
  unfold Chained at chained
  generalize v.versions = versions at *
  induction versions with
  | nil => cases ha
  | cons w rest ih =>
    obtain ⟨newer, tail⟩ := List.pairwise_cons.mp chained
    rcases List.mem_cons.mp ha with rfl | ina <;> rcases List.mem_cons.mp hb with rfl | inb
    · rfl
    · exact absurd h.symm (newer b inb).ne
    · exact absurd h (newer a ina).ne
    · exact ih tail ina inb

/-- The version found is one of the chain, and no other one that is visible is newer. -/
theorem getAtWithTs_spec (chained : v.Chained) {value : Option Bytes} {ts : Timestamp}
    (h : v.getAtWithTs readTs = some (value, ts)) :
    ⟨ts, value⟩ ∈ v.versions ∧ ts ≤ readTs ∧
      ∀ w ∈ v.versions, w.timestamp ≤ readTs → w.timestamp ≤ ts := by
  obtain ⟨w, found, eq⟩ := Option.map_eq_some_iff.mp h
  obtain ⟨visible, before, after, split, newer⟩ := List.find?_eq_some_iff_append.mp found
  cases eq
  rw [Chained, split] at chained
  refine ⟨List.mem_of_find?_eq_some found, by simpa using visible, ?_⟩
  intro x hx hxr
  rw [split] at hx
  rcases List.mem_append.mp hx with hx | hx
  · have hidden := newer x hx
    simp only [Bool.not_eq_eq_eq_not, Bool.not_true, decide_eq_false_iff_not] at hidden
    exact absurd hxr hidden
  · rcases List.mem_cons.mp hx with rfl | hx
    · exact le_rfl
    · exact ((List.pairwise_cons.mp (List.pairwise_append.mp chained).2.1).1 x hx).le

theorem exists_getAtWithTs {w : Version} (hw : w ∈ v.versions) (visible : w.timestamp ≤ readTs) :
    ∃ value ts, v.getAtWithTs readTs = some (value, ts) := by
  have found : (v.versions.find? fun w => w.timestamp ≤ readTs).isSome = true :=
    List.find?_isSome.mpr ⟨w, hw, by simpa using visible⟩
  obtain ⟨x, hx⟩ := Option.isSome_iff_exists.mp found
  exact ⟨x.value, x.timestamp, by rw [getAtWithTs, hx]; rfl⟩

end VersionedValue

structure Memtable where
  map : Std.ExtTreeMap Bytes VersionedValue compare
  size : Nat
  isSealed : Bool
  sealThreshold : Nat

namespace Memtable

def new (sealThreshold : Nat) : Memtable :=
  ⟨∅, 0, false, sealThreshold⟩

/-- The value stored by `put`: the new version in front of the chain already there. -/
def push (m : Memtable) (key : Bytes) (timestamp : Timestamp) (value : Option Bytes) :
    VersionedValue :=
  match m.map[key]? with
  | some existing => ⟨timestamp, value, existing.versions⟩
  | none => ⟨timestamp, value, []⟩

/-- A sealed memtable silently refuses the write. The flag tells the caller that the
size has crossed the seal threshold. -/
def put (m : Memtable) (key : Bytes) (timestamp : Timestamp) (value : Option Bytes) :
    Memtable × Bool :=
  if m.isSealed then (m, false)
  else
    let entrySize := key.length + (value.map List.length).getD 0 + 8 + 8
    let newSize := m.size + entrySize
    ({ m with map := m.map.insert key (m.push key timestamp value), size := newSize },
      decide (m.sealThreshold ≤ newSize))

def get (m : Memtable) (key : Bytes) : Option (Option Bytes) :=
  m.map[key]?.map VersionedValue.value

def getAt (m : Memtable) (key : Bytes) (readTs : Timestamp) : Option (Option Bytes) :=
  m.map[key]?.bind (fun v => v.getAt readTs)

def sealTable (m : Memtable) : Memtable := { m with isSealed := true }

def iterAll (m : Memtable) : List (Bytes × VersionedValue) := m.map.toList

/-- A range scan from the prefix on, cut at the first key that does not extend it. -/
def iterPrefix (m : Memtable) (pfx : Bytes) : List (Bytes × VersionedValue) :=
  (m.map.toList.dropWhile (fun e => compare e.1 pfx == .lt)).takeWhile (fun e => pfx.isPrefixOf e.1)

/-- Every version the memtable holds, as rows. -/
def rows (m : Memtable) : List (Row Bytes Bytes) :=
  m.iterAll.flatMap (fun e => e.2.versions.map (fun w => ⟨e.1, w.timestamp, w.value⟩))

def Chained (m : Memtable) : Prop := ∀ e ∈ m.iterAll, e.2.Chained

instance (m : Memtable) : Decidable m.Chained :=
  inferInstanceAs (Decidable (∀ e ∈ m.iterAll, e.2.Chained))

variable {m : Memtable}

theorem mem_iterAll {k : Bytes} {v : VersionedValue} : (k, v) ∈ m.iterAll ↔ m.map[k]? = some v := by
  simp [iterAll]

theorem mem_rows {r : Row Bytes Bytes} :
    r ∈ m.rows ↔ ∃ v, m.map[r.key]? = some v ∧ ⟨r.ts, r.val⟩ ∈ v.versions := by
  constructor
  · intro h
    obtain ⟨⟨k, v⟩, hv, hr⟩ := List.mem_flatMap.mp h
    obtain ⟨w, hw, rfl⟩ := List.mem_map.mp hr
    exact ⟨v, mem_iterAll.mp hv, hw⟩
  · rintro ⟨v, hv, hw⟩
    exact List.mem_flatMap.mpr ⟨(r.key, v), mem_iterAll.mpr hv, List.mem_map.mpr ⟨_, hw, rfl⟩⟩

@[simp] theorem push_timestamp (m : Memtable) (key : Bytes) (ts : Timestamp)
    (value : Option Bytes) : (m.push key ts value).timestamp = ts := by
  unfold push
  split <;> rfl

@[simp] theorem push_value (m : Memtable) (key : Bytes) (ts : Timestamp)
    (value : Option Bytes) : (m.push key ts value).value = value := by
  unfold push
  split <;> rfl

theorem getElem?_put (unsealed : m.isSealed = false) (key : Bytes) (ts : Timestamp)
    (value : Option Bytes) (k : Bytes) :
    (m.put key ts value).1.map[k]? = if key = k then some (m.push key ts value) else m.map[k]? := by
  simp [put, unsealed, Std.ExtTreeMap.getElem?_insert]

theorem isSealed_put (m : Memtable) (key : Bytes) (ts : Timestamp) (value : Option Bytes) :
    (m.put key ts value).1.isSealed = m.isSealed := by
  unfold put
  split <;> rfl

/-- The prefix range scan misses no key of the prefix and returns no other. -/
theorem iterPrefix_eq_filter (m : Memtable) (pfx : Bytes) :
    m.iterPrefix pfx = m.iterAll.filter (fun e => pfx.isPrefixOf e.1) :=
  Bytes.prefix_range_eq_filter Prod.fst pfx m.map.toList m.map.ordered_keys_toList

end Memtable

/-- The active memtable and the sealed ones awaiting flush in seal order. The semaphore, which
the engine's own writes do not ask, is added in `BackPressure`. -/
structure MemtableManager where
  active : Memtable
  sealedQueue : List Memtable
  sealThreshold : Nat

namespace MemtableManager

def new (sealThreshold : Nat) : MemtableManager := ⟨Memtable.new sealThreshold, [], sealThreshold⟩

def get (m : MemtableManager) (key : Bytes) : Option (Option Bytes) :=
  match m.active.get key with
  | some result => some result
  | none => m.sealedQueue.reverse.findSome? (fun t => t.get key)

def sealActive (m : MemtableManager) : MemtableManager :=
  if m.active.isSealed then m
  else
    { m with
      active := Memtable.new m.sealThreshold
      sealedQueue := m.sealedQueue ++ [m.active.sealTable] }

/-- The oldest sealed memtable is dropped, whichever one was flushed. -/
def onFlushComplete (m : MemtableManager) (_flushedSize : Nat) : MemtableManager :=
  { m with sealedQueue := m.sealedQueue.tail }

end MemtableManager

end GalaxDb
