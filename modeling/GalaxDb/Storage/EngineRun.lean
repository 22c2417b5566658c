import GalaxDb.Lib.Run
import GalaxDb.Storage.Maintenance
import GalaxDb.Storage.WalRecovery

/-!
# Runs of the engine as a key-value map

An engine that has run some operations holds the contents that the writes among them
leave behind. The relation between engine and contents is kept by every operation that
does not send clashing keys into the index.
-/

namespace GalaxDb

open Row Compaction List

namespace Engine

/-- One call on the engine. The registry's iteration order is part of the call, since the
hash map may hand the files to every pass in another order. -/
inductive Op where
  | put (key value : Bytes)
  | putBatch (rows : List (Bytes × Bytes))
  | delete (key : Bytes)
  | flush (order : IterOrder)
  | compact (order : IterOrder)
  | forceCompact (order : IterOrder)
  | configure (pins : List Timestamp) (bgWorkerActive : Bool) (columnar : List ColumnarRegistration)

def step (env : Platform) (e : Engine) : Op → Option Engine
  | .put key value => (e.putSync env key value).map Prod.fst
  | .putBatch rows => (e.putBatchSync env rows).map Prod.fst
  | .delete key => some (e.deleteSync env key).1
  | .flush order => (e.flushMemtable env order).map Prod.fst
  | .compact order => e.compact env order
  | .forceCompact order => e.forceCompact env order
  | .configure pins bg columnar =>
    some { e with pinSource := pins, bgWorkerActive := bg, columnar := columnar }

/-- What `new` makes of an empty directory. -/
def fresh (env : Platform) (config : EngineConfig) : Engine where
  config := config
  memtableMgr := MemtableManager.new config.memtableSizeBytes
  art := ArtIndex.new
  wal := (WalWriter.new env.toWalCodec []).toOption.getD ⟨[], 0, 0, 1⟩
  sstRegistry := ∅
  nextTimestamp := 1
  nextSstId := 1
  rowCount := 0
  pinSource := []
  bgWorkerActive := false
  columnar := []
  files := ∅
  nextBlockId := 1

theorem new_empty (env : Platform) (config : EngineConfig) :
    Engine.new env config ⟨[], ∅⟩ = some (fresh env config) := by
  obtain ⟨w, eq, holds⟩ : ∃ w, WalWriter.new env.toWalCodec [] = .ok w ∧
      Wal.Holds env.toWalCodec w [] := Wal.holds_new
  obtain ⟨begins, _, n, start⟩ := holds.reads
  have recovered : Wal.recoverWal env.toWalCodec w.file = .ok [] := by
    simp only [Wal.recoverWal, begins, start, Wal.serializeAll, flatMap_nil, nil_append,
      Wal.readRecords_zeros]
    rfl
  have registry : discover (∅ : Std.ExtTreeMap Nat SstFile compare) = ∅ := by
    rw [discover, Std.ExtTreeMap.eq_empty_iff_forall_not_mem]
    simp
  have none_found : (∅ : Std.ExtTreeMap Nat SstFile compare).toList = [] := rfl
  simp [Engine.new, fresh, eq, recovered, Except.toOption, registry, none_found]

def Op.writes : Op → List (Bytes × Option Bytes)
  | .put key value => [(key, some value)]
  | .putBatch rows => rows.map fun r => (r.1, some r.2)
  | .delete key => [(key, none)]
  | _ => []

/-- The last write to a key among the operations of a run. -/
def lastWrite (ops : List Op) (k : Bytes) : Option (Option Bytes) :=
  WriteLog.lastWrite (ops.flatMap Op.writes) k

/-- No put carries an empty value. -/
def Op.NonemptyValues (op : Op) : Prop := ∀ w ∈ op.writes, w.2 ≠ some []

/-- The keys that an operation puts into the index. A flush re-inserts every key of the
memtable, deleted ones too. -/
def indexedKeys (e : Engine) : Op → List Bytes
  | .put key _ => [key]
  | .putBatch rows => rows.map Prod.fst
  | .flush _ => e.memtableMgr.active.iterAll.map Prod.fst
  | _ => []

/-- The operation sends no key into the index that clashes with one already there. -/
def NoClash (e : Engine) (op : Op) : Prop := InsertsApart e.art (e.indexedKeys op)

/-- Memtable and files hold these contents. Rows of a key in the memtable are newer than
its rows in files, and whatever a scan finds first has the value of the contents. -/
structure Stores (e : Engine) (m : Bytes → Option Bytes) : Prop where
  unsealed : e.memtableMgr.active.isSealed = false
  sst : e.SstInv
  wf : e.art.WF
  distinct : Distinct e.storedRows
  zoned : ∀ id f, e.fileOf id = some f → ∀ b ∈ f, Zoned b
  stored_lt : ∀ r ∈ e.storedRows, r.ts < e.nextTimestamp
  mem_lt : ∀ (k : Bytes) (v : VersionedValue), e.memtableMgr.active.map[k]? = some v →
    v.timestamp < e.nextTimestamp
  newer : ∀ (k : Bytes) (v : VersionedValue), e.memtableMgr.active.map[k]? = some v →
    ∀ r ∈ e.storedRows, r.key = k → r.ts < v.timestamp
  mem_value : ∀ (k : Bytes) (v : VersionedValue), e.memtableMgr.active.map[k]? = some v →
    v.value = m k
  stored_value : ∀ k : Bytes, e.memtableMgr.active.map[k]? = none →
    ∀ n, Newest e.storedRows k n → n.val = m k
  absent : ∀ k : Bytes, e.memtableMgr.active.map[k]? = none →
    (∀ r ∈ e.storedRows, r.key ≠ k) → m k = none
  nonempty : ∀ k, m k ≠ some []

/-- The engine between two calls: no flush is under way and every live key is indexed. -/
structure Contains (e : Engine) (m : Bytes → Option Bytes) : Prop extends Stores e m where
  queue : e.memtableMgr.sealedQueue = []
  indexed : ∀ k, m k ≠ none → e.art.lookup k ≠ none

variable {m : Bytes → Option Bytes} {e e' : Engine}

theorem storedRows_eq_nil (h : e.sstRegistry = ∅) : e.storedRows = [] := by
  refine eq_nil_iff_forall_not_mem.mpr fun x hx => ?_
  obtain ⟨r, hr, _⟩ := mem_map.mp hx
  obtain ⟨id, entry, he, _⟩ := mem_sstRows.mp hr
  simp [h] at he

theorem contains_fresh (env : Platform) (config : EngineConfig) :
    (fresh env config).Contains fun _ => none := by
  have rows : (fresh env config).storedRows = [] := storedRows_eq_nil rfl
  have noFile : ∀ id, (fresh env config).fileOf id = none := fun id => by simp [fileOf, fresh]
  have noEntry : ∀ k : Bytes, (fresh env config).memtableMgr.active.map[k]? = none :=
    fun k => by simp [fresh, MemtableManager.new, Memtable.new]
  refine ⟨?_, rfl, by simp⟩
  constructor
  case unsealed => rfl
  case sst => refine ⟨?_, ?_, ?_, ?_, ?_⟩ <;> simp [fresh]
  case wf => exact ArtIndex.wf_new
  case distinct => simp [rows, Distinct]
  case zoned => simp [noFile]
  case stored_lt => simp [rows]
  case mem_lt => simp [noEntry]
  case newer => simp [noEntry]
  case mem_value => simp [noEntry]
  case stored_value => simp [rows, Newest]
  case absent => simp
  case nonempty => simp

theorem Stores.readable (h : e.Stores m) : e.Readable := readable_of h.distinct h.zoned

theorem Stores.current_iff (h : e.Stores m) {k v : Bytes} : e.Current k v ↔ m k = some v := by
  unfold Current
  cases hm : e.memtableMgr.active.map[k]? with
  | some versioned => simp only [h.mem_value k versioned hm]
  | none =>
    constructor
    · rintro ⟨t, newest⟩
      exact (h.stored_value k hm _ newest).symm
    · intro hv
      by_cases written : ∃ r ∈ e.storedRows, r.key = k
      · obtain ⟨⟨key, ts, val⟩, newest⟩ := exists_newest written
        obtain rfl : key = k := newest.2.1
        have val_eq : val = m key := h.stored_value key hm _ newest
        exact ⟨ts, by rwa [val_eq, hv] at newest⟩
      · have gone := h.absent k hm fun r hr hk => written ⟨r, hr, hk⟩
        rw [gone] at hv
        cases hv

theorem fileOf_congr (registry : e'.sstRegistry = e.sstRegistry) (files : e'.files = e.files)
    (id : Nat) : e'.fileOf id = e.fileOf id := by
  rw [fileOf, fileOf, registry, files]

theorem storedRows_congr (registry : e'.sstRegistry = e.sstRegistry) (files : e'.files = e.files) :
    e'.storedRows = e.storedRows := by
  have blocks : e'.blocksOf = e.blocksOf := by
    funext entry
    rw [blocksOf, blocksOf, files]
  simp only [storedRows, sstRows, scanBlocks, registry, blocks]

/-- Only these components matter. -/
theorem Stores.of_eq (h : e.Stores m) (active : e'.memtableMgr.active = e.memtableMgr.active)
    (wf : e'.art.WF) (registry : e'.sstRegistry = e.sstRegistry) (files : e'.files = e.files)
    (timestamp : e.nextTimestamp ≤ e'.nextTimestamp) (sstId : e'.nextSstId = e.nextSstId)
    (blockId : e'.nextBlockId = e.nextBlockId) : e'.Stores m := by
  have rows : e'.storedRows = e.storedRows := storedRows_congr registry files
  have buffered : e'.memtableMgr.active.map = e.memtableMgr.active.map := by rw [active]
  constructor
  case unsealed => exact active ▸ h.unsealed
  case sst =>
    refine ⟨?_, ?_, ?_, ?_, ?_⟩ <;> simp only [registry, files, sstId, blockId]
    · exact h.sst.id_lt
    · exact h.sst.path_lt
    · exact h.sst.present
    · exact h.sst.inj
    · exact h.sst.registered
  case wf => exact wf
  case distinct => exact rows ▸ h.distinct
  case zoned =>
    intro id f hf
    rw [fileOf_congr registry files] at hf
    exact h.zoned id f hf
  case stored_lt =>
    rw [rows]
    exact fun r hr => (h.stored_lt r hr).trans_le timestamp
  case mem_lt =>
    rw [buffered]
    exact fun k v hv => (h.mem_lt k v hv).trans_le timestamp
  case newer =>
    rw [buffered, rows]
    exact h.newer
  case mem_value =>
    rw [buffered]
    exact h.mem_value
  case stored_value =>
    rw [buffered, rows]
    exact h.stored_value
  case absent =>
    rw [buffered, rows]
    exact h.absent
  case nonempty => exact h.nonempty

theorem Contains.of_eq (h : e.Contains m) (memtableMgr : e'.memtableMgr = e.memtableMgr)
    (art : e'.art = e.art) (registry : e'.sstRegistry = e.sstRegistry) (files : e'.files = e.files)
    (timestamp : e.nextTimestamp ≤ e'.nextTimestamp) (sstId : e'.nextSstId = e.nextSstId)
    (blockId : e'.nextBlockId = e.nextBlockId) : e'.Contains m :=
  ⟨h.toStores.of_eq (by rw [memtableMgr]) (art ▸ h.wf) registry files timestamp sstId blockId,
    memtableMgr ▸ h.queue, art ▸ h.indexed⟩

section Write

variable {env : Platform} {e e' : Engine} {m : Bytes → Option Bytes}

/-- One version pushed into the memtable under a timestamp that has been drawn. -/
structure Pushed (e e' : Engine) (key : Bytes) (ts : Timestamp) (value : Option Bytes) :
    Prop where
  memtableMgr : e'.memtableMgr = { e.memtableMgr with
    active := (e.memtableMgr.active.put key ts value).1 }
  registry : e'.sstRegistry = e.sstRegistry
  files : e'.files = e.files
  timestamp : e.nextTimestamp ≤ e'.nextTimestamp
  drawn : ts < e'.nextTimestamp
  sstId : e'.nextSstId = e.nextSstId
  blockId : e'.nextBlockId = e.nextBlockId
  config : e'.config = e.config
  pinSource : e'.pinSource = e.pinSource
  bgWorkerActive : e'.bgWorkerActive = e.bgWorkerActive
  columnar : e'.columnar = e.columnar

variable {value : Option Bytes} {key : Bytes}

variable {ts : Timestamp}

theorem Pushed.buffered (p : Pushed e e' key ts value)
    (unsealed : e.memtableMgr.active.isSealed = false) (k : Bytes) :
    e'.memtableMgr.active.map[k]? = if key = k then some (e.memtableMgr.active.push key ts value)
      else e.memtableMgr.active.map[k]? := by
  rw [p.memtableMgr]
  exact Memtable.getElem?_put unsealed key _ value k

/-- A new row writes its key in the stored map. -/
theorem Stores.pushed (h : e.Stores m) (p : Pushed e e' key ts value) (nonempty : value ≠ some [])
    (wf : e'.art.WF) (fresh : ∀ r ∈ e.storedRows, r.key = key → r.ts < ts) :
    e'.Stores (WriteLog.write m (key, value)) := by
  have rows : e'.storedRows = e.storedRows := storedRows_congr p.registry p.files
  have files := fileOf_congr p.registry p.files
  have buffered := p.buffered h.unsealed
  constructor
  case unsealed =>
    rw [p.memtableMgr]
    exact (Memtable.isSealed_put _ _ _ _).trans h.unsealed
  case sst =>
    refine ⟨?_, ?_, ?_, ?_, ?_⟩ <;> simp only [p.registry, p.files, p.sstId, p.blockId]
    · exact h.sst.id_lt
    · exact h.sst.path_lt
    · exact h.sst.present
    · exact h.sst.inj
    · exact h.sst.registered
  case wf => exact wf
  case distinct => exact rows ▸ h.distinct
  case zoned =>
    intro id f hf
    rw [files] at hf
    exact h.zoned id f hf
  case stored_lt =>
    rw [rows]
    exact fun r hr => (h.stored_lt r hr).trans_le p.timestamp
  case mem_lt =>
    intro k v hv
    rw [buffered] at hv
    split at hv
    · cases hv
      rw [Memtable.push_timestamp]
      exact p.drawn
    · exact (h.mem_lt k v hv).trans_le p.timestamp
  case newer =>
    intro k v hv
    rw [buffered] at hv
    rw [rows]
    split at hv
    · rename_i same
      cases hv
      rw [Memtable.push_timestamp]
      exact fun r hr hk => fresh r hr (hk.trans same.symm)
    · exact h.newer k v hv
  case mem_value =>
    intro k v hv
    rw [buffered] at hv
    split at hv
    · rename_i same
      cases hv
      rw [Memtable.push_value, ← same, WriteLog.write_self]
    · rename_i other
      rw [WriteLog.write_other m value (Ne.symm other)]
      exact h.mem_value k v hv
  case stored_value =>
    intro k hk n hn
    rw [buffered] at hk
    rw [rows] at hn
    split at hk
    · cases hk
    · rename_i other
      rw [WriteLog.write_other m value (Ne.symm other)]
      exact h.stored_value k hk n hn
  case absent =>
    intro k hk none_stored
    rw [buffered] at hk
    rw [rows] at none_stored
    split at hk
    · cases hk
    · rename_i other
      rw [WriteLog.write_other m value (Ne.symm other)]
      exact h.absent k hk none_stored
  case nonempty =>
    intro k
    by_cases same : k = key
    · rw [same, WriteLog.write_self]
      exact nonempty
    · rw [WriteLog.write_other m value same]
      exact h.nonempty k

theorem Contains.pushed (h : e.Contains m) (p : Pushed e e' key e.nextTimestamp value)
    (nonempty : value ≠ some []) (wf : e'.art.WF)
    (others : ∀ k, k ≠ key → e'.art.lookup k = e.art.lookup k)
    (self : value ≠ none → e'.art.lookup key ≠ none) :
    e'.Contains (WriteLog.write m (key, value)) := by
  refine ⟨h.toStores.pushed p nonempty wf fun r hr _ => h.stored_lt r hr, ?_, ?_⟩
  · rw [p.memtableMgr]
    exact h.queue
  · intro k hk
    by_cases same : k = key
    · rw [same, WriteLog.write_self] at hk
      rw [same]
      exact self hk
    · rw [WriteLog.write_other m value same] at hk
      rw [others k same]
      exact h.indexed k hk

/-- What putting one row does. -/
structure PutRow (env : Platform) (e e' : Engine) (key value : Bytes) : Prop
    extends Pushed e e' key e.nextTimestamp (some value) where
  wf : e'.art.WF
  lookup : ∀ k, e'.art.lookup k =
    if k = key then some (memtableLocation env key) else e.art.lookup k

/-- What deleting a row does. -/
structure DeletedRow (e e' : Engine) (key : Bytes) : Prop
    extends Pushed e e' key e.nextTimestamp none where
  wf : e'.art.WF
  lookup : ∀ k, e'.art.lookup k = if k = key then none else e.art.lookup k

/-- The stored data is the same; log, settings and counters of rows may differ. -/
structure SameStore (e e' : Engine) : Prop where
  memtableMgr : e'.memtableMgr = e.memtableMgr
  art : e'.art = e.art
  registry : e'.sstRegistry = e.sstRegistry
  files : e'.files = e.files
  timestamp : e'.nextTimestamp = e.nextTimestamp
  sstId : e'.nextSstId = e.nextSstId
  blockId : e'.nextBlockId = e.nextBlockId

theorem pushRow_spec (env : Platform) (wf : e.art.WF) (value : Bytes)
    (apart : ∀ k, e.art.lookup k ≠ none → ¬ Clash key k) :
    ∃ e', applyPut env { e with nextTimestamp := e.nextTimestamp + 1 } key value e.nextTimestamp =
        some e' ∧ PutRow env e e' key value ∧ e'.wal = e.wal := by
  obtain ⟨art', eq, wf', look⟩ :=
    ArtIndex.lookup_insert wf (memtableLocation env key) apart
  refine ⟨{ e with
    nextTimestamp := e.nextTimestamp + 1
    memtableMgr := { e.memtableMgr with
      active := (e.memtableMgr.active.put key e.nextTimestamp (some value)).1 }
    art := art' }, ?_, ⟨?_, wf', look⟩, rfl⟩
  · simp only [applyPut, eq, Option.map_some]
  · exact ⟨rfl, rfl, rfl, Nat.le_succ _, Nat.lt_succ_self _, rfl, rfl, rfl, rfl, rfl, rfl⟩

theorem putSync_spec (env : Platform) (wf : e.art.WF) (value : Bytes)
    (apart : ∀ k, e.art.lookup k ≠ none → ¬ Clash key k) :
    ∃ e', e.putSync env key value = some (e', e.nextTimestamp) ∧ PutRow env e e' key value ∧
      e'.wal = e.wal.append env.toWalCodec .rowPut (encodeKv key value) := by
  obtain ⟨e', eq, put, wal⟩ := pushRow_spec env
    (e := { e with wal := e.wal.append env.toWalCodec .rowPut (encodeKv key value) })
    wf value apart
  refine ⟨{ e' with rowCount := e'.rowCount + 1 }, ?_, ?_, wal⟩
  · exact congrArg (Option.map fun e : Engine =>
      ({ e with rowCount := e.rowCount + 1 }, _)) eq
  · exact ⟨⟨put.memtableMgr, put.registry, put.files, put.timestamp, put.drawn, put.sstId,
      put.blockId, put.config, put.pinSource, put.bgWorkerActive, put.columnar⟩, put.wf, put.lookup⟩

theorem deleteSync_spec (env : Platform) (wf : e.art.WF) (key : Bytes) :
    (e.art.lookup key = none ∧ e.deleteSync env key = (e, false)) ∨
      (e.art.lookup key ≠ none ∧ ∃ e', e.deleteSync env key = (e', true) ∧ DeletedRow e e' key ∧
        e'.wal = e.wal.append env.toWalCodec .rowDelete key) := by
  by_cases missing : e.art.lookup key = none
  · exact .inl ⟨missing, by simp [deleteSync, missing]⟩
  · obtain ⟨wf', look⟩ := ArtIndex.lookup_delete wf key
    refine .inr ⟨missing, _, by rw [deleteSync, if_neg missing], ⟨?_, wf', look⟩, rfl⟩
    exact ⟨rfl, rfl, rfl, Nat.le_succ _, Nat.lt_succ_self _, rfl, rfl, rfl, rfl, rfl, rfl⟩

end Write

section Maintain

variable {env : Platform} {e e' : Engine} {m : Bytes → Option Bytes}

variable {order : IterOrder} {v : VersionedValue} {k : Bytes}

theorem toRow_entryToRow (nonempty : v.value ≠ some []) :
    (Flush.entryToRow (k, v)).toRow = ⟨k, v.timestamp, v.value⟩ := by
  obtain ⟨ts, value, prev⟩ := v
  cases value with
  | none => rfl
  | some w =>
    have : w ≠ [] := fun h => nonempty (by rw [h])
    simp [Flush.entryToRow, SstRow.toRow, this]

theorem Stores.value_ne (h : e.Stores m) (hv : e.memtableMgr.active.map[k]? = some v) :
    v.value ≠ some [] :=
  h.mem_value k v hv ▸ h.nonempty k

/-- A flush adds the newest version of every key of the memtable to the files. -/
theorem Stores.mem_flushed (h : e.Stores m) (f : Flushed e e') (x : Row Bytes Bytes) :
    x ∈ e'.storedRows ↔ x ∈ e.storedRows ∨
      ∃ v, e.memtableMgr.active.map[x.key]? = some v ∧ x = ⟨x.key, v.timestamp, v.value⟩ := by
  simp only [storedRows, mem_map, f.mem_rows]
  constructor
  · rintro ⟨r, hr | ⟨⟨k, v⟩, hv, rfl⟩, rfl⟩
    · exact .inl ⟨r, hr, rfl⟩
    · have hv' := Memtable.mem_iterAll.mp hv
      rw [toRow_entryToRow (h.value_ne hv')]
      exact .inr ⟨v, hv', rfl⟩
  · rintro (⟨r, hr, rfl⟩ | ⟨v, hv, hx⟩)
    · exact ⟨r, .inl hr, rfl⟩
    · refine ⟨_, .inr ⟨(x.key, v), Memtable.mem_iterAll.mpr hv, rfl⟩, ?_⟩
      rw [toRow_entryToRow (h.value_ne hv), ← hx]

/-- The flushed version of a key is its newest row afterwards. -/
theorem Stores.newest_flushed (h : e.Stores m) (f : Flushed e e')
    (hv : e.memtableMgr.active.map[k]? = some v) :
    Newest e'.storedRows k ⟨k, v.timestamp, v.value⟩ := by
  refine ⟨(h.mem_flushed f _).mpr (.inr ⟨v, hv, rfl⟩), rfl, ?_⟩
  intro x hx hk
  rcases (h.mem_flushed f x).mp hx with old | ⟨w, hw, hx⟩
  · exact (h.newer k v hv x old hk).le
  · rw [hk, hv] at hw
    rw [hx]
    exact (congrArg VersionedValue.timestamp (Option.some.inj hw).symm).le

variable {n : Row Bytes Bytes}

theorem Stores.newest_flushed_other (h : e.Stores m) (f : Flushed e e')
    (hk : e.memtableMgr.active.map[k]? = none) :
    Newest e'.storedRows k n ↔ Newest e.storedRows k n := by
  have same : ∀ x : Row Bytes Bytes, x.key = k → (x ∈ e'.storedRows ↔ x ∈ e.storedRows) := by
    intro x hx
    rw [h.mem_flushed f, hx, hk]
    simp
  constructor
  · rintro ⟨hn, key, newest⟩
    exact ⟨(same n key).mp hn, key, fun x hx hxk => newest x ((same x hxk).mpr hx) hxk⟩
  · rintro ⟨hn, key, newest⟩
    exact ⟨(same n key).mpr hn, key, fun x hx hxk => newest x ((same x hxk).mp hx) hxk⟩

theorem Stores.distinct_flushed (h : e.Stores m) (f : Flushed e e') : Distinct e'.storedRows := by
  intro x hx y hy key ts
  rcases (h.mem_flushed f x).mp hx with oldx | ⟨v, hv, hxv⟩ <;>
    rcases (h.mem_flushed f y).mp hy with oldy | ⟨w, hw, hyw⟩
  · exact h.distinct x oldx y oldy key ts
  · have lt := h.newer y.key w hw x oldx key
    rw [ts, hyw] at lt
    exact absurd lt (lt_irrefl _)
  · have lt := h.newer x.key v hv y oldy key.symm
    rw [← ts, hxv] at lt
    exact absurd lt (lt_irrefl _)
  · rw [key, hw] at hv
    obtain rfl := Option.some.inj hv
    rw [hxv, hyw, key]

theorem Stores.flushed (h : e.Stores m) (f : Flushed e e') : e'.Stores m := by
  have empty : ∀ k : Bytes, e'.memtableMgr.active.map[k]? = none := by
    rw [f.active]
    simp [Memtable.new]
  constructor
  case unsealed => rw [f.active]; rfl
  case sst => exact f.sst
  case wf => exact f.wf
  case distinct => exact h.distinct_flushed f
  case zoned => exact f.zoned h.zoned
  case stored_lt =>
    intro x hx
    rw [f.settings.nextTimestamp]
    rcases (h.mem_flushed f x).mp hx with old | ⟨v, hv, hxv⟩
    · exact h.stored_lt x old
    · rw [hxv]
      exact h.mem_lt x.key v hv
  case mem_lt => simp [empty]
  case newer => simp [empty]
  case mem_value => simp [empty]
  case stored_value =>
    intro k _ n hn
    cases hk : e.memtableMgr.active.map[k]? with
    | some v =>
      rw [newest_unique (h.distinct_flushed f) hn (h.newest_flushed f hk)]
      exact h.mem_value k v hk
    | none => exact h.stored_value k hk n ((h.newest_flushed_other f hk).mp hn)
  case absent =>
    intro k _ none_stored
    cases hk : e.memtableMgr.active.map[k]? with
    | some v => exact absurd rfl (none_stored _ (h.newest_flushed f hk).1)
    | none =>
      refine h.absent k hk fun x hx => ?_
      exact none_stored x ((h.mem_flushed f x).mpr (.inl hx))
  case nonempty => exact h.nonempty

theorem Contains.flushed (h : e.Contains m) (f : Flushed e e') : e'.Contains m := by
  refine ⟨h.toStores.flushed f, f.drained, ?_⟩
  intro k hk
  cases hm : e.memtableMgr.active.map[k]? with
  | some v =>
    obtain ⟨id, b, r, found, _⟩ := f.moved (k, v) (Memtable.mem_iterAll.mpr hm)
    rw [found]
    simp
  | none => rw [f.others k hm]; exact h.indexed k hk

theorem mem_compacted (c : Compacted e e' order) (x : Row Bytes Bytes) :
    x ∈ e'.storedRows ↔ x ∈ ((collect e.pinSource (e.inputRows order)).map
      SurvivorRow.toSstRow).map SstRow.toRow := by
  simp only [storedRows, mem_map, c.mem_rows]

theorem distinct_inputRows (distinct : Distinct e.storedRows) (order : IterOrder) :
    Distinct ((e.inputRows order).map SstRow.toRow) :=
  distinct.sublist fun x => (mem_inputRows_toRow order x).mp

theorem compacted_subset (c : Compacted e e' order) {x : Row Bytes Bytes} (hx : x ∈ e'.storedRows) :
    x ∈ e.storedRows :=
  (mem_inputRows_toRow order x).mp (collect_subset ((mem_compacted c x).mp hx))

/-- The newest row of a key stays the newest one, or the key is deleted and gone. -/
theorem newest_compacted (distinct : Distinct e.storedRows) (c : Compacted e e' order)
    (hn : Newest e.storedRows k n) :
    Newest e'.storedRows k n ∨ (n.val = none ∧ ∀ x ∈ e'.storedRows, x.key ≠ k) := by
  have hn' : Newest ((e.inputRows order).map SstRow.toRow) k n :=
    (newest_congr (mem_inputRows_toRow order)).mpr hn
  rcases newest_collect e.pinSource (distinct_inputRows distinct order) hn' with survives | dead
  · refine .inl ⟨(mem_compacted c n).mpr survives, hn.2.1, ?_⟩
    exact fun x hx => hn.2.2 x (compacted_subset c hx)
  · exact .inr ⟨dead.1, fun x hx => dead.2 x ((mem_compacted c x).mp hx)⟩

theorem Stores.compacted (h : e.Stores m) (c : Compacted e e' order) : e'.Stores m := by
  have mgr := c.same.memtableMgr
  have sub := fun x => compacted_subset (x := x) c
  constructor
  case unsealed => rw [mgr]; exact h.unsealed
  case sst => exact c.sst
  case wf => exact c.wf
  case distinct => exact h.distinct.sublist sub
  case zoned => exact c.zoned
  case stored_lt =>
    rw [c.same.nextTimestamp]
    exact fun x hx => h.stored_lt x (sub x hx)
  case mem_lt => rw [mgr, c.same.nextTimestamp]; exact h.mem_lt
  case newer =>
    rw [mgr]
    exact fun k v hv x hx => h.newer k v hv x (sub x hx)
  case mem_value => rw [mgr]; exact h.mem_value
  case stored_value =>
    rw [mgr]
    intro k hk n hn
    obtain ⟨n0, hn0⟩ := exists_newest ⟨n, sub n hn.1, hn.2.1⟩
    rcases newest_compacted h.distinct c hn0 with stays | ⟨_, gone⟩
    · rw [newest_unique (h.distinct.sublist sub) hn stays]
      exact h.stored_value k hk n0 hn0
    · exact absurd hn.2.1 (gone n hn.1)
  case absent =>
    rw [mgr]
    intro k hk none_left
    by_cases stored : ∃ r ∈ e.storedRows, r.key = k
    · obtain ⟨n, hn⟩ := exists_newest stored
      rw [← h.stored_value k hk n hn]
      rcases newest_compacted h.distinct c hn with stays | ⟨dead, _⟩
      · exact absurd hn.2.1 (none_left n stays.1)
      · exact dead
    · exact h.absent k hk fun r hr hrk => stored ⟨r, hr, hrk⟩
  case nonempty => exact h.nonempty

theorem Contains.compacted (h : e.Contains m) (c : Compacted e e' order) : e'.Contains m :=
  ⟨h.toStores.compacted c, c.same.memtableMgr ▸ h.queue,
    fun k hk none_found => h.indexed k hk ((c.keys k).mp none_found)⟩

end Maintain

section Steps

variable {env : Platform} {e e' : Engine} {m : Bytes → Option Bytes}

/-- A flush in this state is followed by a compaction of its own: there is no background
worker and the files reach the trigger. -/
def CompactsInline (env : Platform) (e : Engine) : Prop :=
  e.bgWorkerActive = false ∧
    e.config.l0CompactionTrigger ≤ e.sstRegistry.size + (flushResult env e).files.length

instance (env : Platform) (e : Engine) : Decidable (CompactsInline env e) :=
  inferInstanceAs (Decidable (_ ∧ _))

theorem flushMemtable_spec (env : Platform) (h : e.Contains m) (order : IterOrder)
    (apart : InsertsApart e.art (e.memtableMgr.active.iterAll.map Prod.fst)) :
    ∃ e' n, e.flushMemtable env order = some (e', n) ∧ (e' = e ∨ ∃ e1, Flushed e e1 ∧
      (e' = e1 ∨ CompactsInline env e ∧ Compacted e1 e' order)) := by
  by_cases empty : e.memtableMgr.active.iterAll = []
  · exact ⟨e, 0, by simp [flushMemtable, empty], .inl rfl⟩
  · obtain ⟨e1, flush, flushed, size⟩ :=
      flushActive_spec env h.sst h.wf h.unsealed h.queue empty apart
    have after := h.flushed flushed
    obtain ⟨e2, compact, what⟩ :=
      compactInner_spec env after.sst after.wf after.distinct order false
    have eq : e.flushMemtable env order =
        (if e1.bgWorkerActive then some e1 else e1.maybeCompact env order).map
          (fun e' => (e', e.memtableMgr.active.iterAll.length)) := by
      simp only [flushMemtable, empty, if_false, flush, Option.bind_some]
    rw [eq]
    by_cases worker : e1.bgWorkerActive = true
    · refine ⟨e1, e.memtableMgr.active.iterAll.length, ?_, .inr ⟨e1, flushed, .inl rfl⟩⟩
      simp only [worker, if_true, Option.map_some]
    by_cases few : e1.sstRegistry.size < e1.config.l0CompactionTrigger
    · refine ⟨e1, e.memtableMgr.active.iterAll.length, ?_, .inr ⟨e1, flushed, .inl rfl⟩⟩
      simp only [worker, Bool.false_eq_true, if_false, maybeCompact, few, if_true, Option.map_some]
    · refine ⟨e2, e.memtableMgr.active.iterAll.length, ?_, .inr ⟨e1, flushed, ?_⟩⟩
      · simp only [worker, Bool.false_eq_true, if_false, maybeCompact, few, compact,
          Option.map_some]
      rcases what with rfl | compacted
      · exact .inl rfl
      · refine .inr ⟨⟨?_, ?_⟩, compacted⟩
        · rw [← flushed.settings.bgWorkerActive]
          exact Bool.eq_false_iff.mpr worker
        · rw [← size, ← flushed.settings.config]
          exact not_lt.mp few

/-- A relation between an engine and the writes of its run that every effect of an
operation keeps, where the guard is met. -/
structure Preserved (env : Platform) (guard : Engine → Op → Prop)
    (Rel : Engine → List (Bytes × Option Bytes) → Prop) : Prop where
  contains : ∀ {e log}, Rel e log → e.Contains (WriteLog.contents log)
  store : ∀ {e e' log}, Rel e log → SameStore e e' → Rel e' log
  put : ∀ {e e' log key value}, Rel e log → value ≠ [] → PutRow env e e' key value →
    Rel e' (log ++ [(key, some value)])
  delete : ∀ {e e' log key}, Rel e log → DeletedRow e e' key → Rel e' (log ++ [(key, none)])
  skip : ∀ {e log key}, Rel e log → e.art.lookup key = none → Rel e (log ++ [(key, none)])
  flush : ∀ {e e' log order}, Rel e log → guard e (.flush order) → Flushed e e' → Rel e' log
  flushCompact : ∀ {e e1 e' log order}, Rel e log → guard e (.flush order) →
    CompactsInline env e → Flushed e e1 → Compacted e1 e' order → Rel e' log
  compact : ∀ {e e' log order}, Rel e log → guard e (.compact order) ∨
    guard e (.forceCompact order) →
    Compacted e e' order → Rel e' log

/-- A condition on the states in which a flush is called. -/
def AtFlush (guard : Engine → Prop) (e : Engine) : Op → Prop
  | .flush _ => guard e
  | _ => True

instance {guard : Engine → Prop} [DecidablePred guard] (e : Engine) (op : Op) :
    Decidable (AtFlush guard e op) := by
  cases op <;> unfold AtFlush <;> infer_instance

variable {guard : Engine → Op → Prop} {Rel : Engine → List (Bytes × Option Bytes) → Prop}
  {log : List (Bytes × Option Bytes)}

theorem Preserved.applyBatch (p : Preserved env guard Rel) (rel : Rel e log)
    (rows : List (Bytes × Bytes)) (values : ∀ r ∈ rows, r.2 ≠ [])
    (apart : InsertsApart e.art (rows.map Prod.fst)) :
    ∃ e', e.applyBatch env rows = some e' ∧ e'.wal = e.wal ∧
      Rel e' (log ++ rows.map fun r => (r.1, some r.2)) := by
  induction rows generalizing e log with
  | nil => exact ⟨e, rfl, rfl, by simpa using rel⟩
  | cons row rest ih =>
    obtain ⟨key, value⟩ := row
    obtain ⟨e1, eq, put, wal⟩ := pushRow_spec env (p.contains rel).wf value
      (apart.index key mem_cons_self)
    have rel1 := p.put rel (values _ mem_cons_self) put
    have apart1 : InsertsApart e1.art (rest.map Prod.fst) := by
      refine ⟨?_, fun k hk k' hk' => apart.pairwise k (mem_cons_of_mem _ hk) k'
        (mem_cons_of_mem _ hk')⟩
      intro k hk k' hk'
      rw [put.lookup] at hk'
      by_cases same : k' = key
      · subst same
        exact apart.pairwise k (mem_cons_of_mem _ hk) k' mem_cons_self
      · rw [if_neg same] at hk'
        exact apart.index k (mem_cons_of_mem _ hk) k' hk'
    obtain ⟨e2, eq2, wal2, rel2⟩ :=
      ih rel1 (fun r hr => values r (mem_cons_of_mem _ hr)) apart1
    refine ⟨e2, ?_, wal2.trans wal, by simpa using rel2⟩
    rw [Engine.applyBatch, eq, Option.bind_some, eq2]

theorem Preserved.step (p : Preserved env guard Rel) (rel : Rel e log) {op : Op}
    (values : op.NonemptyValues) (apart : e.NoClash op) (guarded : guard e op) :
    ∃ e', step env e op = some e' ∧ Rel e' (log ++ op.writes) := by
  have h := p.contains rel
  have compaction : ∀ order force, guard e (.compact order) ∨ guard e (.forceCompact order) →
      ∃ e', e.compactInner env order force = some e' ∧ Rel e' (log ++ []) := by
    intro order force guarded
    rw [append_nil]
    obtain ⟨e', eq, rfl | compacted⟩ := compactInner_spec env h.sst h.wf h.distinct order force
    · exact ⟨e', eq, rel⟩
    · exact ⟨e', eq, p.compact rel guarded compacted⟩
  cases op with
  | put key value =>
    obtain ⟨e', eq, put, _⟩ := putSync_spec env h.wf value (apart.index key mem_cons_self)
    refine ⟨e', by simp [Engine.step, eq], p.put rel ?_ put⟩
    exact fun empty => values (key, some value) mem_cons_self (by rw [empty])
  | putBatch rows =>
    by_cases empty : rows = []
    · exact ⟨e, by simp [Engine.step, putBatchSync, empty], by simpa [Op.writes, empty] using rel⟩
    · have logged : Rel { e with
          wal := e.wal.append env.toWalCodec .rowPut (encodeBatch rows) } log :=
        p.store rel ⟨rfl, rfl, rfl, rfl, rfl, rfl, rfl⟩
      have nonempty : ∀ r ∈ rows, r.2 ≠ [] := by
        intro r hr hempty
        exact values (r.1, some r.2) (mem_map.mpr ⟨r, hr, rfl⟩) (by rw [hempty])
      obtain ⟨e', eq, _, rel'⟩ := p.applyBatch logged rows nonempty apart
      refine ⟨{ e' with rowCount := e'.rowCount + rows.length }, ?_,
        p.store rel' ⟨rfl, rfl, rfl, rfl, rfl, rfl, rfl⟩⟩
      simp only [Engine.step, putBatchSync, empty, if_false, eq, Option.map_some]
  | delete key =>
    rcases deleteSync_spec env h.wf key with ⟨missing, eq⟩ | ⟨_, e', eq, deleted, _⟩
    · exact ⟨e, by simp [Engine.step, eq], p.skip rel missing⟩
    · exact ⟨e', by simp [Engine.step, eq], p.delete rel deleted⟩
  | flush order =>
    obtain ⟨e', n, eq, what⟩ := flushMemtable_spec env h order apart
    refine ⟨e', by simp [Engine.step, eq], ?_⟩
    change Rel e' (log ++ [])
    rw [append_nil]
    rcases what with rfl | ⟨e1, flushed, rfl | ⟨inline, compacted⟩⟩
    · exact rel
    · exact p.flush rel guarded flushed
    · exact p.flushCompact rel guarded inline flushed compacted
  | compact order => exact compaction order false (.inl guarded)
  | forceCompact order => exact compaction order true (.inr guarded)
  | configure pins bg columnar =>
    refine ⟨_, rfl, ?_⟩
    change Rel _ (log ++ [])
    rw [append_nil]
    exact p.store rel ⟨rfl, rfl, rfl, rfl, rfl, rfl, rfl⟩

/-- A step of a run: values are not empty, no keys clash, and the guard is met. -/
structure StepOk (guard : Engine → Op → Prop) (e : Engine) (op : Op) : Prop where
  values : op.NonemptyValues
  apart : e.NoClash op
  guarded : guard e op

variable {ops : List Op}

theorem along_stepOk (values : ∀ op ∈ ops, op.NonemptyValues)
    (apart : Run.Along (Engine.step env) NoClash e ops)
    (guarded : Run.Along (Engine.step env) guard e ops) :
    Run.Along (Engine.step env) (StepOk guard) e ops :=
  (((Run.along_of_forall e values).and apart).and guarded).mono fun _ _ h => ⟨h.1.1, h.1.2, h.2⟩

theorem Preserved.run_from (p : Preserved env guard Rel) (rel : Rel e log)
    (ok : Run.Along (Engine.step env) (StepOk guard) e ops) :
    ∃ e', Run.run (Engine.step env) e ops = some e' ∧ Rel e' (log ++ ops.flatMap Op.writes) := by
  have next : ∀ e log op, Rel e log → StepOk guard e op →
      ∃ e', Engine.step env e op = some e' ∧ Rel e' (log ++ op.writes) :=
    fun e log op rel ok => p.step rel ok.values ok.apart ok.guarded
  obtain ⟨e', eq, rel'⟩ := Run.simulation _ next rel ok
  refine ⟨e', eq, ?_⟩
  rwa [foldl_append_eq_append] at rel'

theorem Preserved.run (p : Preserved env guard Rel) (rel : Rel e [])
    (ok : Run.Along (Engine.step env) (StepOk guard) e ops) :
    ∃ e', Run.run (Engine.step env) e ops = some e' ∧ Rel e' (ops.flatMap Op.writes) :=
  p.run_from rel ok

end Steps

end Engine

end GalaxDb
