import GalaxDb.Storage.EngineRun

/-!
# Scans and point reads of a run

Along every run without clashing keys a scan shows the last put of each key. Point reads
go through the index instead, and the index sends a key to the row of its last put as
long as no tombstone is flushed.
-/

namespace GalaxDb

open Row Compaction List

/-- A codec that stores payloads as they are, for runs on concrete data. -/
def Platform.plain : Platform where
  xxh3 := fun _ => 0
  lz4Compress := id
  lz4Decompress := some
  blockLen := fun b => 64 + (b.rows.map fun r => r.key.length + r.value.length + 8).sum

namespace Engine

/-- The engine holds what the writes of its run leave behind. -/
def Holds (e : Engine) (log : List (Bytes × Option Bytes)) : Prop :=
  e.Contains (WriteLog.contents log)

theorem Holds.contains {e : Engine} {log : List (Bytes × Option Bytes)} (h : e.Holds log) :
    e.Contains (WriteLog.contents log) := h

theorem holds_fresh (env : Platform) (config : EngineConfig) : (fresh env config).Holds [] :=
  contains_fresh env config

theorem preserved_holds (env : Platform) (guard : Engine → Op → Prop) :
    Preserved env guard Holds where
  contains h := h
  store h s := h.of_eq s.memtableMgr s.art s.registry s.files (Nat.le_of_eq s.timestamp.symm)
    s.sstId s.blockId
  put h nonempty p := by
    rw [Holds, WriteLog.contents_snoc]
    refine Contains.pushed h p.toPushed (by simpa using nonempty) p.wf ?_ ?_
    · intro k hk
      rw [p.lookup, if_neg hk]
    · rw [p.lookup, if_pos rfl]
      simp
  delete h d := by
    rw [Holds, WriteLog.contents_snoc]
    refine Contains.pushed h d.toPushed (by simp) d.wf ?_ (fun h => absurd rfl h)
    intro k hk
    rw [d.lookup, if_neg hk]
  skip {e log key} h missing := by
    have absent : WriteLog.contents log key = none := by
      by_contra present
      exact h.contains.indexed key present missing
    rw [Holds, WriteLog.contents_snoc, WriteLog.write_of_eq absent]
    exact h
  flush h _ f := Contains.flushed h f
  flushCompact h _ _ f c := (Contains.flushed h f).compacted c
  compact h _ c := Contains.compacted h c

section Keys

/-- The index and the memtable know no key that was never written. -/
structure Written (e : Engine) (log : List (Bytes × Option Bytes)) : Prop where
  holds : e.Holds log
  index : ∀ k, e.art.lookup k ≠ none → k ∈ log.map Prod.fst
  memtable : ∀ k : Bytes, e.memtableMgr.active.map[k]? ≠ none → k ∈ log.map Prod.fst

theorem written_fresh (env : Platform) (config : EngineConfig) : (fresh env config).Written [] where
  holds := holds_fresh env config
  index k h := absurd rfl h
  memtable k h := absurd (by simp [fresh, MemtableManager.new, Memtable.new]) h

variable {log : List (Bytes × Option Bytes)} {e e' : Engine}

theorem Written.pushed {key : Bytes} {ts : Timestamp} {value : Option Bytes} (w : e.Written log)
    (p : Pushed e e' key ts value) :
    ∀ k : Bytes, e'.memtableMgr.active.map[k]? ≠ none →
      k ∈ (log ++ [(key, value)]).map Prod.fst := by
  intro k hk
  rw [p.buffered w.holds.contains.unsealed] at hk
  rw [map_append, mem_append]
  split at hk
  · rename_i same
    exact Or.inr (by simp [same])
  · exact Or.inl (w.memtable k hk)

theorem Written.flushed (w : e.Written log) (f : Flushed e e') : e'.Written log := by
  refine ⟨Contains.flushed w.holds f, ?_, ?_⟩
  · intro k hk
    by_cases buffered : e.memtableMgr.active.map[k]? = none
    · rw [f.others k buffered] at hk
      exact w.index k hk
    · exact w.memtable k buffered
  · intro k hk
    rw [f.active] at hk
    simp [Memtable.new] at hk

theorem Written.compacted {order : IterOrder} (w : e.Written log) (c : Compacted e e' order) :
    e'.Written log := by
  refine ⟨Contains.compacted w.holds c, ?_, ?_⟩
  · exact fun k hk => w.index k fun none_found => hk ((c.keys k).mpr none_found)
  · rw [c.same.memtableMgr]
    exact w.memtable

theorem preserved_written (env : Platform) : Preserved env (fun _ _ => True) Written where
  contains w := w.holds
  store w s := ⟨(preserved_holds env fun _ _ => True).store w.holds s, s.art ▸ w.index,
    s.memtableMgr ▸ w.memtable⟩
  put {e e' log key value} w nonempty p := by
    refine ⟨(preserved_holds env fun _ _ => True).put w.holds nonempty p, ?_, w.pushed p.toPushed⟩
    intro k hk
    rw [p.lookup] at hk
    rw [map_append, mem_append]
    by_cases same : k = key
    · exact Or.inr (by simp [same])
    · rw [if_neg same] at hk
      exact Or.inl (w.index k hk)
  delete {e e' log key} w d := by
    refine ⟨(preserved_holds env fun _ _ => True).delete w.holds d, ?_, w.pushed d.toPushed⟩
    intro k hk
    rw [d.lookup] at hk
    rw [map_append, mem_append]
    by_cases same : k = key
    · exact Or.inr (by simp [same])
    · rw [if_neg same] at hk
      exact Or.inl (w.index k hk)
  skip {e log key} w missing := by
    refine ⟨(preserved_holds env fun _ _ => True).skip w.holds missing, ?_, ?_⟩
    · intro k hk
      simp [w.index k hk, map_append]
    · intro k hk
      simp [w.memtable k hk, map_append]
  flush w _ f := w.flushed f
  flushCompact w _ _ f c := (w.flushed f).compacted c
  compact w _ c := w.compacted c

/-- Keys that do not clash with each other do not clash in the index. -/
theorem Written.noClash (w : e.Written log) {op : Op}
    (apart : ∀ k ∈ (log ++ op.writes).map Prod.fst,
      ∀ k' ∈ (log ++ op.writes).map Prod.fst, ¬ Clash k k') : e.NoClash op := by
  have old : ∀ k ∈ log.map Prod.fst, k ∈ (log ++ op.writes).map Prod.fst := by
    intro k hk
    rw [map_append]
    exact mem_append_left _ hk
  have sent : ∀ k ∈ e.indexedKeys op, k ∈ (log ++ op.writes).map Prod.fst := by
    intro k hk
    cases op with
    | put key value =>
      obtain rfl := mem_singleton.mp hk
      exact mem_map.mpr ⟨(k, some value), mem_append_right _ mem_cons_self, rfl⟩
    | putBatch rows =>
      obtain ⟨r, hr, rfl⟩ := mem_map.mp hk
      refine mem_map.mpr ⟨(r.1, some r.2), mem_append_right _ ?_, rfl⟩
      exact mem_map.mpr ⟨r, hr, rfl⟩
    | flush order =>
      obtain ⟨⟨key, v⟩, hv, rfl⟩ := mem_map.mp hk
      refine old key (w.memtable key ?_)
      rw [Memtable.mem_iterAll.mp hv]
      simp
    | delete _ => cases hk
    | compact _ => cases hk
    | forceCompact _ => cases hk
    | configure _ _ _ => cases hk
  exact ⟨fun k hk k' hk' => apart k (sent k hk) k' (old k' (w.index k' hk')),
    fun k hk k' hk' => apart k (sent k hk) k' (sent k' hk')⟩

theorem along_noClash {env : Platform} {ops : List Op} (w : e.Written log)
    (values : ∀ op ∈ ops, op.NonemptyValues)
    (apart : ∀ k ∈ (log ++ ops.flatMap Op.writes).map Prod.fst,
      ∀ k' ∈ (log ++ ops.flatMap Op.writes).map Prod.fst, ¬ Clash k k') :
    Run.Along (step env) NoClash e ops := by
  induction ops generalizing e log with
  | nil => trivial
  | cons op rest ih =>
    rw [flatMap_cons, ← append_assoc] at apart
    have first : ∀ k ∈ (log ++ op.writes).map Prod.fst,
        k ∈ ((log ++ op.writes) ++ rest.flatMap Op.writes).map Prod.fst := by
      intro k hk
      rw [map_append]
      exact mem_append_left _ hk
    have here : e.NoClash op :=
      w.noClash fun k hk k' hk' => apart k (first k hk) k' (first k' hk')
    obtain ⟨e', eq, w'⟩ := (preserved_written env).step w (values op mem_cons_self) here
      trivial
    refine ⟨here, fun e'' heq => ?_⟩
    obtain rfl : e' = e'' := Option.some.inj (eq.symm.trans heq)
    exact ih w' (fun op hop => values op (mem_cons_of_mem _ hop)) apart

end Keys

section Point

/-- No key of the memtable has a tombstone as its newest version. -/
def NoTombstones (e : Engine) : Prop :=
  ∀ entry ∈ e.memtableMgr.active.iterAll, entry.2.value ≠ none

instance : DecidablePred NoTombstones := fun e =>
  inferInstanceAs (Decidable (∀ entry ∈ e.memtableMgr.active.iterAll, entry.2.value ≠ none))

/-- Outside the keys whose index entry is still to be updated, the index sends every live
key to its newest version: to the memtable if the key is there, else to its newest row in
the files. -/
structure Indexed (e : Engine) (m : Bytes → Option Bytes) (pending : Bytes → Prop) : Prop where
  missing : ∀ k, ¬ pending k → e.art.lookup k = none → m k = none
  memtable : ∀ k shard key, e.art.lookup k = some (.memtable shard key) →
    e.memtableMgr.active.map[k]? ≠ none
  sst : ∀ k id b r, ¬ pending k → e.art.lookup k = some (.sst id b r) →
    e.memtableMgr.active.map[k]? = none ∧ m k ≠ none ∧
      ∃ row, e.rowAt id b r = some row ∧ Newest e.storedRows k row.toRow

section Indexed

variable {e e' : Engine} {m : Bytes → Option Bytes} {pending : Bytes → Prop}

theorem rowAt_congr (registry : e'.sstRegistry = e.sstRegistry) (files : e'.files = e.files)
    (id b r : Nat) : e'.rowAt id b r = e.rowAt id b r := by
  rw [rowAt, rowAt, fileOf_congr registry files]

theorem Indexed.mono {pending' : Bytes → Prop} (h : e.Indexed m pending)
    (weaker : ∀ k, pending k → pending' k) : e.Indexed m pending' where
  missing k settled := h.missing k fun hk => settled (weaker k hk)
  memtable := h.memtable
  sst k id b r settled := h.sst k id b r fun hk => settled (weaker k hk)

theorem Indexed.of_eq (h : e.Indexed m pending)
    (active : e'.memtableMgr.active = e.memtableMgr.active) (art : e'.art = e.art)
    (registry : e'.sstRegistry = e.sstRegistry) (files : e'.files = e.files) :
    e'.Indexed m pending := by
  refine ⟨art ▸ h.missing, ?_, ?_⟩
  · rw [art, active]
    exact h.memtable
  · intro k id b r settled found
    rw [art] at found
    rw [active, rowAt_congr registry files, storedRows_congr registry files]
    exact h.sst k id b r settled found

/-- A version that reaches the memtable ahead of the index. -/
theorem Indexed.pushed {key : Bytes} {ts : Timestamp} {value : Option Bytes}
    (h : e.Indexed m pending) (unsealed : e.memtableMgr.active.isSealed = false)
    (p : Pushed e e' key ts value) (art : e'.art = e.art) :
    e'.Indexed (WriteLog.write m (key, value)) (fun k => k = key ∨ pending k) := by
  have buffered := p.buffered unsealed
  have rows := storedRows_congr p.registry p.files
  refine ⟨?_, ?_, ?_⟩
  · intro k settled found
    rw [not_or] at settled
    rw [art] at found
    rw [WriteLog.write_other _ _ settled.1]
    exact h.missing k settled.2 found
  · intro k shard k' found
    rw [art] at found
    rw [buffered]
    split
    · simp
    · exact h.memtable k shard k' found
  · intro k id b r settled found
    rw [not_or] at settled
    rw [art] at found
    rw [buffered, if_neg (Ne.symm settled.1), rowAt_congr p.registry p.files, rows,
      WriteLog.write_other _ _ settled.1]
    exact h.sst k id b r settled.2 found

/-- The index entry of one key follows its newest version. -/
theorem Indexed.settled {key : Bytes} (h : e.Indexed m pending)
    (active : e'.memtableMgr.active = e.memtableMgr.active)
    (registry : e'.sstRegistry = e.sstRegistry) (files : e'.files = e.files)
    (others : ∀ k, k ≠ key → e'.art.lookup k = e.art.lookup k)
    (self : (m key = none ∧ e'.art.lookup key = none) ∨ (e.memtableMgr.active.map[key]? ≠ none ∧
        ∃ shard k, e'.art.lookup key = some (.memtable shard k))) :
    e'.Indexed m (fun k => k ≠ key ∧ pending k) := by
  refine ⟨?_, ?_, ?_⟩
  · intro k settled found
    by_cases same : k = key
    · subst same
      rcases self with ⟨dead, _⟩ | ⟨_, shard, k', inMemtable⟩
      · exact dead
      · rw [inMemtable] at found
        cases found
    · rw [others k same] at found
      exact h.missing k (fun hk => settled ⟨same, hk⟩) found
  · intro k shard k' found
    rw [active]
    by_cases same : k = key
    · subst same
      rcases self with ⟨_, gone⟩ | ⟨buffered, _⟩
      · rw [gone] at found
        cases found
      · exact buffered
    · rw [others k same] at found
      exact h.memtable k shard k' found
  · intro k id b r settled found
    by_cases same : k = key
    · subst same
      rcases self with ⟨_, gone⟩ | ⟨_, shard, k', inMemtable⟩
      · rw [gone] at found
        cases found
      · rw [inMemtable] at found
        cases found
    · rw [others k same] at found
      rw [active, rowAt_congr registry files, storedRows_congr registry files]
      exact h.sst k id b r (fun hk => settled ⟨same, hk⟩) found

/-- A flush updates the index for every key of the memtable. -/
theorem Indexed.flushed (h : e.Indexed m pending) (stores : e.Stores m) (live : e.NoTombstones)
    (f : Flushed e e') :
    e'.Indexed m (fun k => e.memtableMgr.active.map[k]? = none ∧ pending k) := by
  have empty : ∀ k : Bytes, e'.memtableMgr.active.map[k]? = none := by
    rw [f.active]
    simp [Memtable.new]
  have moved : ∀ (k : Bytes) (v : VersionedValue), e.memtableMgr.active.map[k]? = some v →
      ∃ id b r, e'.art.lookup k = some (.sst id b r) ∧ ∃ row, e'.rowAt id b r = some row ∧
        Newest e'.storedRows k row.toRow := by
    intro k v hv
    obtain ⟨id, b, r, found, place⟩ := f.moved (k, v) (Memtable.mem_iterAll.mpr hv)
    refine ⟨id, b, r, found, _, place, ?_⟩
    rw [toRow_entryToRow (stores.value_ne hv)]
    exact stores.newest_flushed f hv
  refine ⟨?_, ?_, ?_⟩
  · intro k settled found
    cases hk : e.memtableMgr.active.map[k]? with
    | none =>
      rw [f.others k hk] at found
      exact h.missing k (fun wait => settled ⟨hk, wait⟩) found
    | some v =>
      obtain ⟨id, b, r, found', _⟩ := moved k v hk
      rw [found'] at found
      cases found
  · intro k shard key found
    cases hk : e.memtableMgr.active.map[k]? with
    | none =>
      rw [f.others k hk] at found
      exact absurd hk (h.memtable k shard key found)
    | some v =>
      obtain ⟨id, b, r, found', _⟩ := moved k v hk
      rw [found'] at found
      cases found
  · intro k id b r settled found
    refine ⟨empty k, ?_⟩
    cases hk : e.memtableMgr.active.map[k]? with
    | none =>
      rw [f.others k hk] at found
      obtain ⟨_, alive, row, place, newest⟩ :=
        h.sst k id b r (fun wait => settled ⟨hk, wait⟩) found
      refine ⟨alive, row, ?_, (stores.newest_flushed_other f hk).mpr newest⟩
      obtain ⟨file, hfile, hrow⟩ := Option.bind_eq_some_iff.mp place
      exact Option.bind_eq_some_iff.mpr ⟨file, f.kept id file hfile, hrow⟩
    | some v =>
      obtain ⟨id', b', r', found', row, place, newest⟩ := moved k v hk
      rw [found'] at found
      cases found
      refine ⟨?_, row, place, newest⟩
      exact stores.mem_value k v hk ▸ live (k, v) (Memtable.mem_iterAll.mpr hk)

theorem Indexed.compacted (h : e.Indexed m fun _ => False) (stores : e.Stores m)
    {order : IterOrder} (c : Compacted e e' order) : e'.Indexed m fun _ => False := by
  have moved : ∀ k id b r, e.art.lookup k = some (.sst id b r) →
      ∃ id' b' r' row', e'.art.lookup k = some (.sst id' b' r') ∧
        e'.rowAt id' b' r' = some row' ∧ Newest e'.storedRows k row'.toRow := by
    intro k id b r found
    obtain ⟨outside, live, row, place, newest⟩ := h.sst k id b r not_false found
    have alive : row.toRow.val ≠ none := stores.stored_value k outside _ newest ▸ live
    obtain ⟨id', b', r', row', found', place', same⟩ :=
      c.moved k id b r row row.toRow found place newest alive
    refine ⟨id', b', r', row', found', place', ?_⟩
    rw [same]
    rcases newest_compacted stores.distinct c newest with stays | ⟨dead, _⟩
    · exact stays
    · exact absurd dead alive
  refine ⟨?_, ?_, ?_⟩
  · exact fun k settled found => h.missing k settled ((c.keys k).mp found)
  · intro k shard key found
    rw [c.same.memtableMgr]
    cases before : e.art.lookup k with
    | none =>
      rw [(c.keys k).mpr before] at found
      cases found
    | some location =>
      cases location with
      | memtable shard' key' => exact h.memtable k shard' key' before
      | sst id b r =>
        obtain ⟨id', b', r', row', found', _⟩ := moved k id b r before
        rw [found'] at found
        cases found
  · intro k id b r settled found
    rw [c.same.memtableMgr]
    cases before : e.art.lookup k with
    | none =>
      rw [(c.keys k).mpr before] at found
      cases found
    | some location =>
      cases location with
      | memtable shard key =>
        rw [c.memtable k shard key before] at found
        cases found
      | sst id0 b0 r0 =>
        obtain ⟨id', b', r', row', found', place, newest⟩ := moved k id0 b0 r0 before
        rw [found'] at found
        cases found
        obtain ⟨outside, alive, _⟩ := h.sst k id0 b0 r0 settled before
        exact ⟨outside, alive, row', place, newest⟩

theorem Indexed.get_eq (h : e.Indexed m pending) (stores : e.Stores m) {k : Bytes}
    (settled : ¬ pending k) : e.get k = m k := by
  rw [Engine.get]
  cases found : e.art.lookup k with
  | none => exact (h.missing k settled found).symm
  | some location =>
    cases location with
    | memtable shard key =>
      cases hv : e.memtableMgr.active.map[k]? with
      | none => exact absurd hv (h.memtable k shard key found)
      | some v => simp [MemtableManager.get, Memtable.get, hv, stores.mem_value k v hv]
    | sst id b r =>
      obtain ⟨outside, alive, row, place, newest⟩ := h.sst k id b r settled found
      have val := stores.stored_value k outside _ newest
      simp only [readValue_eq, place, Option.map_some]
      rw [← val] at alive ⊢
      rw [SstRow.toRow] at alive ⊢
      split at alive
      · exact absurd rfl alive
      · rename_i nonempty
        simp [nonempty]

end Indexed

/-- The index knows exactly the live keys and sends each one to its newest version. -/
structure Located (e : Engine) (log : List (Bytes × Option Bytes)) : Prop where
  holds : e.Holds log
  indexed : e.Indexed (WriteLog.contents log) fun _ => False
  dead : ∀ k, WriteLog.contents log k = none → e.art.lookup k = none

variable {log : List (Bytes × Option Bytes)} {e e' : Engine}

theorem Located.live (h : e.Located log) (k : Bytes) :
    e.art.lookup k = none ↔ WriteLog.contents log k = none :=
  ⟨h.indexed.missing k not_false, h.dead k⟩

theorem indexed_fresh (env : Platform) (config : EngineConfig) :
    (fresh env config).Indexed (fun _ => none) fun _ => False := by
  refine ⟨fun _ _ _ => rfl, ?_, ?_⟩
  · intro k shard key found
    cases found
  · intro k id b r _ found
    cases found

theorem located_fresh (env : Platform) (config : EngineConfig) : (fresh env config).Located [] :=
  ⟨holds_fresh env config, indexed_fresh env config, fun _ _ => rfl⟩

/-- A write changes the place of its own key only. -/
theorem Located.pushed {key : Bytes} {ts : Timestamp} {value : Option Bytes} (h : e.Located log)
    (p : Pushed e e' key ts value) (holds : e'.Holds (log ++ [(key, value)]))
    (others : ∀ k, k ≠ key → e'.art.lookup k = e.art.lookup k)
    (self : (value = none ∧ e'.art.lookup key = none) ∨
      (value ≠ none ∧ ∃ shard k, e'.art.lookup key = some (.memtable shard k))) :
    e'.Located (log ++ [(key, value)]) := by
  have between : Pushed e { e' with art := e.art } key ts value :=
    ⟨p.memtableMgr, p.registry, p.files, p.timestamp, p.drawn, p.sstId, p.blockId, p.config,
      p.pinSource, p.bgWorkerActive, p.columnar⟩
  have pushed := h.indexed.pushed h.holds.contains.unsealed between rfl
  have buffered := between.buffered h.holds.contains.unsealed key
  refine ⟨holds, ?_, ?_⟩
  · rw [WriteLog.contents_snoc]
    refine (@Indexed.settled _ e' _ _ key pushed rfl rfl rfl others ?_).mono fun k hk => ?_
    · rcases self with ⟨dead, gone⟩ | ⟨_, found⟩
      · exact Or.inl ⟨by rw [WriteLog.write_self, dead], gone⟩
      · exact Or.inr ⟨by rw [buffered]; simp, found⟩
    · exact hk.2.elim hk.1 id
  · intro k dead
    rw [WriteLog.contents_snoc] at dead
    by_cases same : k = key
    · subst same
      rw [WriteLog.write_self] at dead
      rcases self with ⟨_, gone⟩ | ⟨alive, _⟩
      · exact gone
      · exact absurd dead alive
    · rw [WriteLog.write_other _ _ same] at dead
      rw [others k same]
      exact h.dead k dead

theorem Located.flushed (h : e.Located log) (live : e.NoTombstones) (f : Flushed e e') :
    e'.Located log := by
  have contains := h.holds.contains
  refine ⟨contains.flushed f,
    (h.indexed.flushed contains.toStores live f).mono fun _ hk => hk.2, ?_⟩
  intro k dead
  cases hk : e.memtableMgr.active.map[k]? with
  | none => rw [f.others k hk]; exact h.dead k dead
  | some v =>
    rw [← contains.mem_value k v hk] at dead
    exact absurd dead (live (k, v) (Memtable.mem_iterAll.mpr hk))

theorem Located.compacted {order : IterOrder} (h : e.Located log) (c : Compacted e e' order) :
    e'.Located log :=
  ⟨h.holds.contains.compacted c, h.indexed.compacted h.holds.contains.toStores c,
    fun k dead => (c.keys k).mpr (h.dead k dead)⟩

theorem preserved_located (env : Platform) : Preserved env (AtFlush NoTombstones) Located where
  contains h := h.holds
  store h s := ⟨(preserved_holds env (AtFlush NoTombstones)).store h.holds s,
    h.indexed.of_eq (by rw [s.memtableMgr]) s.art s.registry s.files, s.art ▸ h.dead⟩
  put {e e' log key value} h nonempty p := by
    refine h.pushed p.toPushed
      ((preserved_holds env (AtFlush NoTombstones)).put h.holds nonempty p) ?_ ?_
    · intro k hk
      rw [p.lookup, if_neg hk]
    · exact Or.inr ⟨by simp, _, _, by rw [p.lookup, if_pos rfl]; rfl⟩
  delete {e e' log key} h d := by
    refine h.pushed d.toPushed ((preserved_holds env (AtFlush NoTombstones)).delete h.holds d) ?_ ?_
    · intro k hk
      rw [d.lookup, if_neg hk]
    · exact Or.inl ⟨rfl, by rw [d.lookup, if_pos rfl]⟩
  skip {e log key} h missing := by
    have absent := (h.live key).mp missing
    refine ⟨(preserved_holds env (AtFlush NoTombstones)).skip h.holds missing, ?_, ?_⟩
    · rw [WriteLog.contents_snoc, WriteLog.write_of_eq absent]
      exact h.indexed
    · rw [WriteLog.contents_snoc, WriteLog.write_of_eq absent]
      exact h.dead
  flush h live f := h.flushed live f
  flushCompact h live _ f c := (h.flushed live f).compacted c
  compact h _ c := h.compacted c

theorem Located.get_eq (h : e.Located log) (k : Bytes) : e.get k = WriteLog.contents log k :=
  h.indexed.get_eq h.holds.contains.toStores not_false

end Point

end Engine

end GalaxDb
