import GalaxDb.Storage.Concurrent

/-!
# No update is lost in a run without disturbed steps

A run of interleaved calls is followed by a sequential engine that takes a write when it
reaches the memtable and a flush when its files are registered. The index may lag behind
for keys whose writer has not updated it yet.
-/

namespace GalaxDb

open Row Engine WriteLog List Option

namespace Concurrent

/-- A flush that has taken its snapshot and not yet swapped the memtable. -/
def Pc.midFlush : Pc → Bool
  | .snapshot _ _ _ => true
  | .written _ _ _ _ => true
  | .registered _ => true
  | _ => false

def Pc.isRegistered : Pc → Bool
  | .registered _ => true
  | _ => false

namespace State

def NoFlush (s : State) : Prop := ∀ pc ∈ s.calls, pc.midFlush = false

/-- Neither the active memtable nor a file has a version of the key that is as new. -/
def Newer (s : State) (row : Row Bytes Bytes) : Prop :=
  (∀ head ∈ (s.tables s.active).map[row.key]?, head.timestamp < row.ts) ∧
    ∀ r ∈ s.engine.storedRows, r.key = row.key → r.ts < row.ts

/-- The index update of a write agrees with the active memtable, and the memtable has not
been registered as files. -/
def Settles (s : State) (row : Row Bytes Bytes) : Prop :=
  (∀ pc ∈ s.calls, pc.isRegistered = false) ∧ match row.val with
    | some _ => (s.tables s.active).map[row.key]? ≠ none
    | none => (s.tables s.active).get row.key = some none

/-- The step is taken where nothing can go wrong: a version enters the active memtable
while no flush works on it and in the order of the timestamps, an index update is not
overtaken, and a flush finds no other flush and no tombstone. -/
def Undisturbed (s : State) : Act → Prop
  | .call (.put _ value) => value ≠ []
  | .call _ => True
  | .advance i =>
    match s.calls[i]? with
    | some (.holding row table) => table = s.active ∧ s.NoFlush ∧ s.Newer row
    | some (.inserted row) => s.Settles row
    | some .flushing => s.NoFlush ∧ s.view.NoTombstones
    | _ => True

instance (s : State) : Decidable s.NoFlush :=
  inferInstanceAs (Decidable (∀ pc ∈ s.calls, pc.midFlush = false))

instance (s : State) (row : Row Bytes Bytes) : Decidable (s.Newer row) :=
  inferInstanceAs (Decidable ((∀ head ∈ (s.tables s.active).map[row.key]?, _) ∧ _))

instance (s : State) (row : Row Bytes Bytes) : Decidable (s.Settles row) := by
  unfold Settles
  cases row.val <;> infer_instance

instance (s : State) (a : Act) : Decidable (s.Undisturbed a) := by
  unfold Undisturbed
  split
  · infer_instance
  · infer_instance
  · split <;> infer_instance

end State

/-- The keys that the puts of a run write. -/
def putKeys (acts : List Act) : List Bytes :=
  acts.filterMap fun
    | .call (.put key _) => some key
    | _ => none

/-- The write of a call that has drawn a timestamp and not yet reached a memtable. -/
def Pc.row : Pc → Option (Row Bytes Bytes)
  | .drawn row => some row
  | .logged row => some row
  | .holding row _ => some row
  | _ => none

def Pc.Ok (keys : List Bytes) : Pc → Prop
  | .putting key value => value ≠ [] ∧ key ∈ keys
  | .found key => key ∈ keys
  | .inserted row => row.key ∈ keys
  | _ => True

/-- The sequential engine has everything but the memtable and the counters of files in
common with the interleaved one. -/
structure Matches (s : State) (r : Engine) : Prop where
  art : r.art = s.engine.art
  registry : r.sstRegistry = s.engine.sstRegistry
  files : r.files = s.engine.files
  timestamp : r.nextTimestamp = s.engine.nextTimestamp
  config : r.config = s.engine.config
  columnar : r.columnar = s.engine.columnar
  threshold : r.memtableMgr.sealThreshold = s.engine.memtableMgr.sealThreshold
  queue : r.memtableMgr.sealedQueue = []
  unsealed : (s.tables s.active).isSealed = false

def OnlyFlush (s : State) (i : Nat) : Prop :=
  ∀ j pc, s.calls[j]? = some pc → pc.midFlush = true → j = i

/-- How the flush under way, if there is one, has got ahead of the sequential engine. -/
inductive Phase (env : Platform) (s : State) (r : Engine) : Prop
  | quiet (noFlush : s.NoFlush) (active : r.memtableMgr.active = s.tables s.active)
      (sstId : s.engine.nextSstId = r.nextSstId) (blockId : s.engine.nextBlockId = r.nextBlockId)
  | snapshot {i : Nat} (here : s.calls[i]? =
        some (.snapshot s.active r.memtableMgr.active.iterAll r.nextSstId))
      (only : OnlyFlush s i) (active : r.memtableMgr.active = s.tables s.active)
      (nonempty : r.memtableMgr.active.iterAll ≠ []) (live : r.NoTombstones)
      (sstId : s.engine.nextSstId = r.nextSstId + 1)
      (blockId : s.engine.nextBlockId = r.nextBlockId)
  | written {i : Nat}
      (here : s.calls[i]? = some (.written s.active r.memtableMgr.active.iterAll r.nextSstId
        (flushResult env r)))
      (only : OnlyFlush s i) (active : r.memtableMgr.active = s.tables s.active)
      (nonempty : r.memtableMgr.active.iterAll ≠ []) (live : r.NoTombstones)
      (sstId : s.engine.nextSstId = r.nextSstId + 1)
      (blockId : s.engine.nextBlockId = (flushResult env r).nextBlockId)
  | registered {i : Nat} (here : s.calls[i]? = some (.registered s.active)) (only : OnlyFlush s i)
      (active : r.memtableMgr.active = Memtable.new r.memtableMgr.sealThreshold)
      (sstId : s.engine.nextSstId = r.nextSstId) (blockId : s.engine.nextBlockId = r.nextBlockId)

/-- The rows that have reached the memtable, in the order in which they did. -/
structure Follows (s : State) (r : Engine) (log : List (Row Bytes Bytes)) : Prop where
  ascending : WriteLog.Ascending log
  kept : ∀ x ∈ log, (∃ v, r.memtableMgr.active.map[x.key]? = some v ∧ x.ts ≤ v.timestamp) ∨
      ∃ y ∈ r.storedRows, y.key = x.key ∧ x.ts ≤ y.ts
  writes : ∀ x, x ∈ s.writes ↔ x ∈ log ∨ ∃ pc ∈ s.calls, pc.row = some x

structure Inv (env : Platform) (keys : List Bytes) (s : State) (r : Engine)
    (log : List (Row Bytes Bytes)) (pending : Bytes → Prop) : Prop where
  same : Matches s r
  stores : r.Stores (contents (ofRows log))
  indexed : r.Indexed (contents (ofRows log)) pending
  phase : Phase env s r
  follows : Follows s r log
  rows : ∀ x ∈ s.writes, x.ts < s.engine.nextTimestamp ∧ x.val ≠ some [] ∧ x.key ∈ keys
  calls : ∀ pc ∈ s.calls, pc.Ok keys
  waiting : ∀ k, pending k → ∃ row, .inserted row ∈ s.calls ∧ row.key = k
  indexKeys : ∀ k, s.engine.art.lookup k ≠ none → k ∈ keys
  tableKeys : ∀ k : Bytes, r.memtableMgr.active.map[k]? ≠ none → k ∈ keys

section Frame

variable {env : Platform} {keys : List Bytes} {s s' : State} {r r' : Engine}
  {log : List (Row Bytes Bytes)} {pending : Bytes → Prop}

variable {i : Nat} {pc pc' : Pc}

theorem mem_set_or {α : Type*} {l : List α} {a x : α} (b : α) (here : l[i]? = some a) (hx : x ∈ l) :
    x ∈ l.set i b ∨ x = a := by
  obtain ⟨j, hj⟩ := getElem?_of_mem hx
  by_cases same : j = i
  · subst same
    rw [here] at hj
    exact .inr (some.inj hj).symm
  · refine .inl (mem_of_getElem? (i := j) ?_)
    rw [getElem?_set_ne (Ne.symm same)]
    exact hj

theorem mem_set_self {α : Type*} {l : List α} {a : α} (b : α) (here : l[i]? = some a) :
    b ∈ l.set i b := by
  apply mem_set
  obtain ⟨lt, _⟩ := List.getElem?_eq_some_iff.mp here
  exact lt

theorem flushResult_congr (config : r'.config = r.config) (columnar : r'.columnar = r.columnar)
    (sstId : r'.nextSstId = r.nextSstId) (blockId : r'.nextBlockId = r.nextBlockId)
    (active : r'.memtableMgr.active = r.memtableMgr.active) :
    flushResult env r' = flushResult env r := by
  simp only [flushResult, flushConfig, config, columnar, sstId, blockId, active]

/-- Calls that are not in the middle of a flush do not touch its phase. -/
theorem Phase.frame (h : Phase env s r) (tables : s'.tables = s.tables)
    (active : s'.active = s.active) (sstId : s'.engine.nextSstId = s.engine.nextSstId)
    (blockId : s'.engine.nextBlockId = s.engine.nextBlockId)
    (mgr : r'.memtableMgr = r.memtableMgr) (sstId' : r'.nextSstId = r.nextSstId)
    (blockId' : r'.nextBlockId = r.nextBlockId) (config : r'.config = r.config)
    (columnar : r'.columnar = r.columnar)
    (calls : ∀ (j : Nat) (pc : Pc), pc.midFlush = true →
      (s'.calls[j]? = some pc ↔ s.calls[j]? = some pc)) :
    Phase env s' r' := by
  have result : flushResult env r' = flushResult env r :=
    flushResult_congr config columnar sstId' blockId' (by rw [mgr])
  have only : ∀ i, OnlyFlush s i → OnlyFlush s' i :=
    fun i h j pc at_j mid => h j pc ((calls j pc mid).mp at_j) mid
  cases h with
  | quiet noFlush table ids blocks =>
    refine .quiet ?_ (by rw [mgr, tables, active, table]) (by rw [sstId, sstId', ids])
      (by rw [blockId, blockId', blocks])
    intro pc hpc
    by_contra mid
    rw [Bool.not_eq_false] at mid
    obtain ⟨j, hj⟩ := getElem?_of_mem hpc
    have old := mem_of_getElem? ((calls j pc mid).mp hj)
    rw [noFlush pc old] at mid
    cases mid
  | snapshot here alone table nonempty live ids blocks =>
    refine .snapshot ?_ (only _ alone) (by rw [mgr, tables, active, table])
      (by rw [mgr]; exact nonempty) ?_ (by rw [sstId, sstId', ids])
        (by rw [blockId, blockId', blocks])
    · rw [active, mgr, sstId']
      exact (calls _ _ rfl).mpr here
    · rw [NoTombstones, mgr]
      exact live
  | written here alone table nonempty live ids blocks =>
    refine .written ?_ (only _ alone) (by rw [mgr, tables, active, table])
      (by rw [mgr]; exact nonempty) ?_ (by rw [sstId, sstId', ids])
        (by rw [blockId, result, blocks])
    · rw [active, mgr, sstId', result]
      exact (calls _ _ rfl).mpr here
    · rw [NoTombstones, mgr]
      exact live
  | registered here alone table ids blocks =>
    refine .registered ?_ (only _ alone) (by rw [mgr, table]) (by rw [sstId, sstId', ids])
      (by rw [blockId, blockId', blocks])
    rw [active]
    exact (calls _ _ rfl).mpr here

/-- The calls in the middle of a flush stay where they are when another call moves. -/
theorem midFlush_set {calls : List Pc} (here : calls[i]? = some pc) (outside : pc.midFlush = false)
    (outside' : pc'.midFlush = false) (j : Nat) (x : Pc) (mid : x.midFlush = true) :
    (calls.set i pc')[j]? = some x ↔ calls[j]? = some x := by
  by_cases same : j = i
  · subst same
    rw [here]
    have lt := (List.getElem?_eq_some_iff.mp here).1
    rw [getElem?_set_self lt]
    constructor
    · rintro ⟨⟩
      rw [outside'] at mid
      cases mid
    · rintro ⟨⟩
      rw [outside] at mid
      cases mid
  · rw [getElem?_set_ne (Ne.symm same)]

/-- The step leaves the stored data and its counters alone. -/
structure SameData (s s' : State) : Prop where
  tables : s'.tables = s.tables
  active : s'.active = s.active
  writes : s'.writes = s.writes
  art : s'.engine.art = s.engine.art
  registry : s'.engine.sstRegistry = s.engine.sstRegistry
  files : s'.engine.files = s.engine.files
  timestamp : s'.engine.nextTimestamp = s.engine.nextTimestamp
  config : s'.engine.config = s.engine.config
  columnar : s'.engine.columnar = s.engine.columnar
  threshold : s'.engine.memtableMgr.sealThreshold = s.engine.memtableMgr.sealThreshold
  sstId : s'.engine.nextSstId = s.engine.nextSstId
  blockId : s'.engine.nextBlockId = s.engine.nextBlockId

/-- The calls differ in nothing that matters to drawn rows and index updates. -/
structure SameCalls (keys : List Bytes) (s s' : State) : Prop where
  rows : ∀ x, (∃ pc ∈ s'.calls, pc.row = some x) ↔ ∃ pc ∈ s.calls, pc.row = some x
  ok : (∀ pc ∈ s.calls, pc.Ok keys) → ∀ pc ∈ s'.calls, pc.Ok keys
  inserted : ∀ row, .inserted row ∈ s.calls → .inserted row ∈ s'.calls

theorem sameCalls_set (calls : s'.calls = s.calls.set i pc') (here : s.calls[i]? = some pc)
    (row : pc'.row = pc.row) (ok : pc.Ok keys → pc'.Ok keys)
    (uninserted : ∀ row, pc ≠ .inserted row) : SameCalls keys s s' := by
  constructor
  case rows =>
    intro x
    rw [calls]
    constructor
    · rintro ⟨y, hy, hx⟩
      rcases mem_or_eq_of_mem_set hy with hy | rfl
      · exact ⟨y, hy, hx⟩
      · exact ⟨pc, mem_of_getElem? here, row ▸ hx⟩
    · rintro ⟨y, hy, hx⟩
      rcases mem_set_or pc' here hy with hy | rfl
      · exact ⟨y, hy, hx⟩
      · exact ⟨pc', mem_set_self pc' here, row ▸ hx⟩
  case ok =>
    intro all y hy
    rw [calls] at hy
    rcases mem_or_eq_of_mem_set hy with hy | rfl
    · exact all y hy
    · exact ok (all pc (mem_of_getElem? here))
  case inserted =>
    intro x hx
    rw [calls]
    rcases mem_set_or pc' here hx with hx | eq
    · exact hx
    · exact absurd eq.symm (uninserted x)

theorem sameCalls_snoc (calls : s'.calls = s.calls ++ [pc]) (row : pc.row = none) (ok :
    pc.Ok keys) :
    SameCalls keys s s' := by
  constructor
  case rows =>
    intro x
    rw [calls]
    constructor
    · rintro ⟨y, hy, hx⟩
      rcases mem_append.mp hy with hy | hy
      · exact ⟨y, hy, hx⟩
      · rw [mem_singleton.mp hy, row] at hx
        cases hx
    · rintro ⟨y, hy, hx⟩
      exact ⟨y, mem_append_left _ hy, hx⟩
  case ok =>
    intro all y hy
    rw [calls] at hy
    rcases mem_append.mp hy with hy | hy
    · exact all y hy
    · rw [mem_singleton.mp hy]
      exact ok
  case inserted =>
    intro x hx
    rw [calls]
    exact mem_append_left _ hx

/-- The sequential engine stays as it is. -/
theorem Inv.moved (h : Inv env keys s r log pending) (calls : SameCalls keys s s')
    (writes : s'.writes = s.writes) (timestamp : s'.engine.nextTimestamp = s.engine.nextTimestamp)
    (art : s'.engine.art = s.engine.art) (same : Matches s' r) (phase : Phase env s' r) :
    Inv env keys s' r log pending := by
  constructor
  case same => exact same
  case stores => exact h.stores
  case indexed => exact h.indexed
  case phase => exact phase
  case follows =>
    refine ⟨h.follows.ascending, h.follows.kept, fun x => ?_⟩
    rw [writes, calls.rows, h.follows.writes]
  case rows =>
    rw [writes, timestamp]
    exact h.rows
  case calls => exact calls.ok h.calls
  case waiting =>
    intro k hk
    obtain ⟨row, inside, key⟩ := h.waiting k hk
    exact ⟨row, calls.inserted row inside, key⟩
  case indexKeys =>
    rw [art]
    exact h.indexKeys
  case tableKeys => exact h.tableKeys

theorem Inv.frame (h : Inv env keys s r log pending) (data : SameData s s')
    (calls : SameCalls keys s s')
    (mid : ∀ (j : Nat) (pc : Pc), pc.midFlush = true →
      (s'.calls[j]? = some pc ↔ s.calls[j]? = some pc)) : Inv env keys s' r log pending := by
  refine h.moved calls data.writes data.timestamp data.art ?_
    (h.phase.frame data.tables data.active data.sstId data.blockId rfl rfl rfl rfl rfl mid)
  refine ⟨?_, ?_, ?_, ?_, ?_, ?_, ?_, h.same.queue, ?_⟩
  · exact h.same.art.trans data.art.symm
  · exact h.same.registry.trans data.registry.symm
  · exact h.same.files.trans data.files.symm
  · exact h.same.timestamp.trans data.timestamp.symm
  · exact h.same.config.trans data.config.symm
  · exact h.same.columnar.trans data.columnar.symm
  · exact h.same.threshold.trans data.threshold.symm
  · rw [data.tables, data.active]
    exact h.same.unsealed

/-- A call outside of a flush moves on and touches no stored data. -/
theorem Inv.moveTo (h : Inv env keys s r log pending) (here : s.calls[i]? = some pc)
    (data : SameData s s') (calls : s'.calls = s.calls.set i pc') (outside : pc.midFlush = false)
    (outside' : pc'.midFlush = false) (row : pc'.row = pc.row) (ok : pc.Ok keys → pc'.Ok keys)
    (uninserted : ∀ row, pc ≠ .inserted row) : Inv env keys s' r log pending := by
  refine h.frame data (sameCalls_set calls here row ok uninserted) ?_
  rw [calls]
  exact midFlush_set here outside outside'

end Frame

section Writes

variable {env : Platform} {keys : List Bytes} {s : State} {r : Engine}
  {log : List (Row Bytes Bytes)} {pending : Bytes → Prop} {i : Nat}

/-- A writer draws its timestamp. -/
theorem Inv.nextTs (h : Inv env keys s r log pending) {pc : Pc} (here : s.calls[i]? = some pc)
    (outside : pc.midFlush = false) (rowless : pc.row = none)
    (uninserted : ∀ row, pc ≠ .inserted row)
    {key : Bytes} {value : Option Bytes} (inside : key ∈ keys) (nonempty : value ≠ some []) :
    Inv env keys (s.nextTs i key value) { r with nextTimestamp := r.nextTimestamp + 1 } log
      pending := by
  constructor
  case same => exact ⟨h.same.art, h.same.registry, h.same.files,
    congrArg (· + 1) h.same.timestamp, h.same.config, h.same.columnar, h.same.threshold,
    h.same.queue, h.same.unsealed⟩
  case stores => exact h.stores.of_eq rfl h.stores.wf rfl rfl (Nat.le_succ _) rfl rfl
  case indexed => exact h.indexed.of_eq rfl rfl rfl rfl
  case phase =>
    exact h.phase.frame rfl rfl rfl rfl rfl rfl rfl rfl rfl (midFlush_set here outside rfl)
  case follows =>
    refine ⟨h.follows.ascending, h.follows.kept, fun x => ?_⟩
    simp only [State.nextTs, mem_append, mem_singleton, h.follows.writes]
    constructor
    · rintro ((old | ⟨pc', hpc', hx⟩) | rfl)
      · exact .inl old
      · rcases mem_set_or _ here hpc' with kept | rfl
        · exact .inr ⟨pc', kept, hx⟩
        · rw [rowless] at hx
          cases hx
      · exact .inr ⟨_, mem_set_self _ here, rfl⟩
    · rintro (old | ⟨pc', hpc', hx⟩)
      · exact .inl (.inl old)
      · rcases mem_or_eq_of_mem_set hpc' with kept | rfl
        · exact .inl (.inr ⟨pc', kept, hx⟩)
        · exact .inr (some.inj hx).symm
  case rows =>
    intro x hx
    rcases mem_append.mp hx with old | new
    · obtain ⟨lt, rest⟩ := h.rows x old
      exact ⟨Nat.lt_succ_of_lt lt, rest⟩
    · rw [mem_singleton.mp new]
      exact ⟨Nat.lt_succ_self _, nonempty, inside⟩
  case calls =>
    intro x hx
    rcases mem_or_eq_of_mem_set hx with old | rfl
    · exact h.calls x old
    · trivial
  case waiting =>
    intro k hk
    obtain ⟨row, hrow, key⟩ := h.waiting k hk
    rcases mem_set_or _ here hrow with kept | eq
    · exact ⟨row, kept, key⟩
    · exact absurd eq.symm (uninserted row)
  case indexKeys => exact h.indexKeys
  case tableKeys => exact h.tableKeys

theorem Phase.of_noFlush (h : Phase env s r) (noFlush : s.NoFlush) :
    r.memtableMgr.active = s.tables s.active ∧ s.engine.nextSstId = r.nextSstId ∧
      s.engine.nextBlockId = r.nextBlockId := by
  cases h with
  | quiet _ active sstId blockId => exact ⟨active, sstId, blockId⟩
  | snapshot here | written here | registered here =>
    exact absurd (noFlush _ (mem_of_getElem? here)) (by simp [Pc.midFlush])

variable {row : Row Bytes Bytes}

/-- Whatever has reached the memtable of the key is older than a row that is newer than
its newest kept version. -/
theorem Follows.older (h : Follows s r log) (active : r.memtableMgr.active = s.tables s.active)
    (rows : r.storedRows = s.engine.storedRows) (newer : s.Newer row) :
    ∀ x ∈ log, x.key = row.key → x.ts < row.ts := by
  intro x hx key
  rcases h.kept x hx with ⟨v, hv, le⟩ | ⟨y, hy, hk, le⟩
  · rw [active, key] at hv
    exact le.trans_lt (newer.1 v hv)
  · rw [rows] at hy
    exact le.trans_lt (newer.2 y hy (hk.trans key))

/-- The sequential engine takes the write when it reaches the memtable. -/
def pushRow (r : Engine) (row : Row Bytes Bytes) : Engine :=
  { r with memtableMgr := { r.memtableMgr with
      active := (r.memtableMgr.active.put row.key row.ts row.val).1 } }

/-- A writer enters its row in the active memtable. -/
theorem Inv.insertRow (h : Inv env keys s r log pending)
    (here : s.calls[i]? = some (.holding row s.active)) (noFlush : s.NoFlush)
    (newer : s.Newer row) :
    Inv env keys ((s.insertRow row s.active).moveTo i (.inserted row)) (pushRow r row)
      (log ++ [row]) (fun k => k = row.key ∨ pending k) := by
  obtain ⟨active, sstId, blockId⟩ := h.phase.of_noFlush noFlush
  have held : ∃ pc ∈ s.calls, pc.row = some row := ⟨_, mem_of_getElem? here, rfl⟩
  have drawn : row ∈ s.writes := (h.follows.writes row).mpr (.inr held)
  obtain ⟨lt, nonempty, inside⟩ := h.rows row drawn
  have stored : r.storedRows = s.engine.storedRows :=
    storedRows_congr h.same.registry h.same.files
  have older := h.follows.older active stored newer
  have pushed : Pushed r (pushRow r row) row.key row.ts row.val :=
    ⟨rfl, rfl, rfl, le_rfl, by rw [pushRow, h.same.timestamp]; exact lt, rfl, rfl, rfl, rfl,
      rfl, rfl⟩
  have buffered := pushed.buffered h.stores.unsealed
  have contents : contents (ofRows (log ++ [row])) =
      write (contents (ofRows log)) (row.key, row.val) := by
    rw [← contents_snoc]
    simp [ofRows]
  constructor
  case same =>
    refine ⟨h.same.art, h.same.registry, h.same.files, h.same.timestamp, h.same.config,
      h.same.columnar, h.same.threshold, h.same.queue, ?_⟩
    simp [State.insertRow, State.moveTo, Memtable.isSealed_put, h.same.unsealed]
  case stores =>
    rw [contents]
    refine h.stores.pushed pushed nonempty h.stores.wf fun x hx hk => ?_
    rw [stored] at hx
    exact newer.2 x hx hk
  case indexed =>
    rw [contents]
    exact h.indexed.pushed h.stores.unsealed pushed rfl
  case phase =>
    refine .quiet ?_ ?_ sstId blockId
    · intro pc hpc
      rcases mem_or_eq_of_mem_set hpc with old | rfl
      · exact noFlush pc old
      · rfl
    · simp [pushRow, State.insertRow, State.moveTo, active]
  case follows =>
    refine ⟨h.follows.ascending.snoc older, ?_, ?_⟩
    · intro x hx
      rw [buffered]
      rcases mem_append.mp hx with old | new
      · by_cases same : row.key = x.key
        · rw [if_pos same]
          exact .inl ⟨_, rfl, by simpa using (older x old same.symm).le⟩
        · rw [if_neg same]
          exact h.follows.kept x old
      · rw [mem_singleton.mp new, if_pos rfl]
        exact .inl ⟨_, rfl, by simp⟩
    · intro x
      rw [mem_append, mem_singleton]
      refine (h.follows.writes x).trans ⟨?_, ?_⟩
      · rintro (old | ⟨pc, hpc, hx⟩)
        · exact .inl (.inl old)
        · rcases mem_set_or (.inserted row) here hpc with kept | rfl
          · exact .inr ⟨pc, kept, hx⟩
          · exact .inl (.inr (some.inj hx).symm)
      · rintro ((old | rfl) | ⟨pc, hpc, hx⟩)
        · exact .inl old
        · exact .inr held
        · rcases mem_or_eq_of_mem_set hpc with kept | rfl
          · exact .inr ⟨pc, kept, hx⟩
          · cases hx
  case rows => exact h.rows
  case calls =>
    intro x hx
    rcases mem_or_eq_of_mem_set hx with old | rfl
    · exact h.calls x old
    · exact inside
  case waiting =>
    rintro k (rfl | hk)
    · exact ⟨row, mem_set_self _ here, rfl⟩
    · obtain ⟨x, hx, key⟩ := h.waiting k hk
      rcases mem_set_or (.inserted row) here hx with kept | eq
      · exact ⟨x, kept, key⟩
      · cases eq
  case indexKeys => exact h.indexKeys
  case tableKeys =>
    intro k hk
    rw [buffered] at hk
    split at hk
    · rename_i same
      exact same ▸ inside
    · exact h.tableKeys k hk

theorem Phase.of_unregistered (h : Phase env s r)
    (unregistered : ∀ pc ∈ s.calls, pc.isRegistered = false) :
    r.memtableMgr.active = s.tables s.active := by
  cases h with
  | quiet _ active => exact active
  | snapshot _ _ active => exact active
  | written _ _ active => exact active
  | registered here =>
    exact absurd (unregistered _ (mem_of_getElem? here)) (by simp [Pc.isRegistered])

/-- The index as a writer leaves it, with the memtable as it stands. -/
theorem Inv.updatedArt (h : Inv env keys s r log pending)
    (here : s.calls[i]? = some (.inserted row)) {art : ArtIndex RowLocation} (wf : art.WF)
    (rowCount : Nat) (others : ∀ k, k ≠ row.key → art.lookup k = r.art.lookup k)
    (self : (contents (ofRows log) row.key = none ∧ art.lookup row.key = none) ∨
      (r.memtableMgr.active.map[row.key]? ≠ none ∧
        ∃ shard k, art.lookup row.key = some (.memtable shard k))) :
    Inv env keys ({ s with engine := { s.engine with
        art := art
        rowCount := rowCount } }.moveTo i .done)
      { r with art := art } log (fun k => k ≠ row.key ∧ pending k) := by
  have inside : row.key ∈ keys := h.calls _ (mem_of_getElem? here)
  constructor
  case same => exact ⟨rfl, h.same.registry, h.same.files, h.same.timestamp, h.same.config,
    h.same.columnar, h.same.threshold, h.same.queue, h.same.unsealed⟩
  case stores => exact h.stores.of_eq rfl wf rfl rfl le_rfl rfl rfl
  case indexed => exact h.indexed.settled rfl rfl rfl others self
  case phase => exact h.phase.frame rfl rfl rfl rfl rfl rfl rfl rfl rfl (midFlush_set here rfl rfl)
  case follows =>
    refine ⟨h.follows.ascending, h.follows.kept, fun x => (h.follows.writes x).trans ?_⟩
    refine or_congr Iff.rfl ⟨?_, ?_⟩
    · rintro ⟨pc, hpc, hx⟩
      rcases mem_set_or .done here hpc with kept | rfl
      · exact ⟨pc, kept, hx⟩
      · cases hx
    · rintro ⟨pc, hpc, hx⟩
      rcases mem_or_eq_of_mem_set hpc with kept | rfl
      · exact ⟨pc, kept, hx⟩
      · cases hx
  case rows => exact h.rows
  case calls =>
    intro x hx
    rcases mem_or_eq_of_mem_set hx with old | rfl
    · exact h.calls x old
    · trivial
  case waiting =>
    rintro k ⟨other, hk⟩
    obtain ⟨x, hx, key⟩ := h.waiting k hk
    rcases mem_set_or .done here hx with kept | eq
    · exact ⟨x, kept, key⟩
    · obtain rfl := Pc.inserted.inj eq
      exact absurd key.symm other
  case indexKeys =>
    intro k hk
    by_cases same : k = row.key
    · exact same ▸ inside
    · refine h.indexKeys k ?_
      rw [← h.same.art, ← others k same]
      exact hk
  case tableKeys => exact h.tableKeys

/-- A writer enters its key in the index. -/
theorem Inv.updateArt (h : Inv env keys s r log pending)
    (apart : ∀ k ∈ keys, ∀ k' ∈ keys, ¬ Clash k k') (here : s.calls[i]? = some (.inserted row))
    (settles : s.Settles row) :
    ∃ s' r' pending', (s.updateArt env row).map (fun s => s.moveTo i .done) = some s' ∧
      Inv env keys s' r' log pending' := by
  have active := h.phase.of_unregistered settles.1
  have inside : row.key ∈ keys := h.calls _ (mem_of_getElem? here)
  have wf : s.engine.art.WF := h.same.art ▸ h.stores.wf
  obtain ⟨unregistered, agrees⟩ := settles
  cases value : row.val with
  | some v =>
    rw [value] at agrees
    obtain ⟨art, eq, wf', look⟩ :=
      ArtIndex.lookup_insert wf (memtableLocation env row.key) fun k hk =>
        apart row.key inside k (h.indexKeys k hk)
    refine ⟨_, _, _, by simp only [State.updateArt, value, eq, map_some],
      h.updatedArt here wf' (s.engine.rowCount + 1) ?_ (.inr ⟨?_, ?_⟩)⟩
    · intro k hk
      rw [look, if_neg hk, h.same.art]
    · rw [active]
      exact agrees
    · rw [look, if_pos rfl]
      exact ⟨_, _, rfl⟩
  | none =>
    rw [value] at agrees
    obtain ⟨wf', look⟩ := ArtIndex.lookup_delete wf row.key
    refine ⟨_, _, _, by simp only [State.updateArt, value, map_some],
      h.updatedArt here wf' s.engine.rowCount ?_ (.inl ⟨?_, ?_⟩)⟩
    · intro k hk
      rw [look, if_neg hk, h.same.art]
    · obtain ⟨v, hv, dead⟩ := map_eq_some_iff.mp agrees
      rw [← active] at hv
      rw [← h.stores.mem_value _ v hv]
      exact dead
    · rw [look, if_pos rfl]

end Writes

section Flushes

variable {env : Platform} {keys : List Bytes} {s : State} {r : Engine}
  {log : List (Row Bytes Bytes)} {pending : Bytes → Prop} {i : Nat}

/-- The call that is in the middle of a flush moves on, or a flush begins. -/
theorem onlyFlush_set (only : OnlyFlush s i) (pc : Pc) : OnlyFlush (s.moveTo i pc) i := by
  intro j x at_j mid
  by_contra other
  rw [State.moveTo, getElem?_set_ne (Ne.symm other)] at at_j
  exact other (only j x at_j mid)

theorem onlyFlush_of_noFlush (noFlush : s.NoFlush) (i : Nat) : OnlyFlush s i := by
  intro j pc at_j mid
  rw [noFlush pc (mem_of_getElem? at_j)] at mid
  cases mid

variable {entries : List Flush.Entry} {sstId table : Nat}

theorem Phase.of_snapshot (h : Phase env s r)
    (here : s.calls[i]? = some (.snapshot table entries sstId)) :
    table = s.active ∧ entries = r.memtableMgr.active.iterAll ∧ sstId = r.nextSstId ∧
      OnlyFlush s i ∧ r.memtableMgr.active = s.tables s.active ∧
      r.memtableMgr.active.iterAll ≠ [] ∧ r.NoTombstones ∧
      s.engine.nextSstId = r.nextSstId + 1 ∧ s.engine.nextBlockId = r.nextBlockId := by
  cases h with
  | quiet noFlush => cases noFlush _ (mem_of_getElem? here)
  | snapshot at_j only | written at_j only | registered at_j only =>
    obtain rfl := only i _ here rfl
    rw [here] at at_j
    cases at_j
    all_goals exact ⟨rfl, rfl, rfl, only, ‹_›, ‹_›, ‹_›, ‹_›, ‹_›⟩

theorem Phase.of_written (h : Phase env s r) {result : FlushResult}
    (here : s.calls[i]? = some (.written table entries sstId result)) :
    table = s.active ∧ entries = r.memtableMgr.active.iterAll ∧ sstId = r.nextSstId ∧
      result = flushResult env r ∧ OnlyFlush s i ∧ r.memtableMgr.active = s.tables s.active ∧
      r.memtableMgr.active.iterAll ≠ [] ∧ r.NoTombstones ∧
      s.engine.nextSstId = r.nextSstId + 1 ∧
      s.engine.nextBlockId = (flushResult env r).nextBlockId := by
  cases h with
  | quiet noFlush => cases noFlush _ (mem_of_getElem? here)
  | snapshot at_j only | written at_j only | registered at_j only =>
    obtain rfl := only i _ here rfl
    rw [here] at at_j
    cases at_j
    all_goals exact ⟨rfl, rfl, rfl, rfl, only, ‹_›, ‹_›, ‹_›, ‹_›, ‹_›⟩

theorem Phase.of_registered (h : Phase env s r) (here : s.calls[i]? = some (.registered table)) :
    table = s.active ∧ OnlyFlush s i ∧
      r.memtableMgr.active = Memtable.new r.memtableMgr.sealThreshold ∧
      s.engine.nextSstId = r.nextSstId ∧ s.engine.nextBlockId = r.nextBlockId := by
  cases h with
  | quiet noFlush => cases noFlush _ (mem_of_getElem? here)
  | snapshot at_j only | written at_j only | registered at_j only =>
    obtain rfl := only i _ here rfl
    rw [here] at at_j
    cases at_j
    all_goals exact ⟨rfl, only, ‹_›, ‹_›, ‹_›⟩

theorem Inv.snapshot (h : Inv env keys s r log pending) (here : s.calls[i]? = some .flushing)
    (noFlush : s.NoFlush) (live : s.view.NoTombstones)
    (nonempty : (s.tables s.active).iterAll ≠ []) :
    Inv env keys ({ s with engine := { s.engine with
        nextSstId := s.engine.nextSstId + 1 } }.moveTo i
          (.snapshot s.active (s.tables s.active).iterAll s.engine.nextSstId)) r log pending := by
  obtain ⟨active, sstId, blockId⟩ := h.phase.of_noFlush noFlush
  refine h.moved (sameCalls_set rfl here rfl id (by simp)) rfl rfl rfl
    ⟨h.same.art, h.same.registry, h.same.files, h.same.timestamp, h.same.config, h.same.columnar,
      h.same.threshold, h.same.queue, h.same.unsealed⟩ ?_
  refine .snapshot (i := i) ?_ (onlyFlush_set (s := { s with engine := _ })
    (onlyFlush_of_noFlush noFlush i) _) active (active ▸ nonempty) ?_ (congrArg (· + 1) sstId)
      blockId
  · have lt := (List.getElem?_eq_some_iff.mp here).1
    rw [active, ← sstId]
    exact getElem?_set_self lt
  · rw [NoTombstones, active]
    exact live

theorem Inv.write (h : Inv env keys s r log pending)
    (here : s.calls[i]? = some (.snapshot table entries sstId)) :
    ∃ s', s.advance env i (.snapshot table entries sstId) = some s' ∧
      Inv env keys s' r log pending := by
  obtain ⟨rfl, rfl, rfl, only, active, nonempty, live, ids, blocks⟩ := h.phase.of_snapshot here
  have result : Flush.flushMemtableInner env.blockLen s.engine.flushConfig s.engine.columnar
      r.nextSstId s.engine.nextBlockId (s.tables s.active) = flushResult env r := by
    simp only [flushResult, flushConfig, h.same.config, h.same.columnar, active, blocks]
  refine ⟨_, rfl, ?_⟩
  rw [result]
  refine h.moved (sameCalls_set rfl here rfl id (by simp)) rfl rfl rfl
    ⟨h.same.art, h.same.registry, h.same.files, h.same.timestamp, h.same.config, h.same.columnar,
      h.same.threshold, h.same.queue, h.same.unsealed⟩ ?_
  refine .written (i := i) ?_ (onlyFlush_set (s := { s with engine := _ }) only _) active nonempty
    live ids rfl
  have lt := (List.getElem?_eq_some_iff.mp here).1
  exact getElem?_set_self lt

/-- A flush seals the active memtable. -/
theorem Inv.sealActive (h : Inv env keys s r log pending)
    (here : s.calls[i]? = some (.registered table)) :
    Inv env keys (s.sealActive.moveTo i (.swapped table)) r log pending := by
  obtain ⟨rfl, only, active, ids, blocks⟩ := h.phase.of_registered here
  have unsealed := h.same.unsealed
  have opened : s.sealActive.tables s.sealActive.active =
      Memtable.new s.engine.memtableMgr.sealThreshold := by
    simp [State.sealActive, unsealed]
  have calls : (s.sealActive.moveTo i (.swapped s.active)).calls =
      s.calls.set i (.swapped s.active) := by
    simp [State.moveTo, State.sealActive, unsealed]
  refine h.moved (sameCalls_set calls here rfl id (by simp)) ?_ ?_ ?_ ?_ ?_
  · simp [State.moveTo, State.sealActive, unsealed]
  · simp [State.moveTo, State.sealActive, unsealed]
  · simp [State.moveTo, State.sealActive, unsealed]
  · constructor
    case unsealed =>
      change (s.sealActive.tables s.sealActive.active).isSealed = false
      rw [opened]
      rfl
    case queue => exact h.same.queue
    all_goals simp only [State.moveTo, State.sealActive, unsealed, Bool.false_eq_true, if_false]
    · exact h.same.art
    · exact h.same.registry
    · exact h.same.files
    · exact h.same.timestamp
    · exact h.same.config
    · exact h.same.columnar
    · exact h.same.threshold
  · refine .quiet ?_ ?_ ?_ ?_
    · intro pc hpc
      by_contra mid
      rw [Bool.not_eq_false] at mid
      rw [calls] at hpc
      obtain ⟨j, hj⟩ := getElem?_of_mem hpc
      by_cases same : j = i
      · subst same
        have lt := (List.getElem?_eq_some_iff.mp here).1
        rw [getElem?_set_self lt] at hj
        cases hj
        cases mid
      · rw [getElem?_set_ne (Ne.symm same)] at hj
        exact same (only j pc hj mid)
    · change r.memtableMgr.active = s.sealActive.tables s.sealActive.active
      rw [opened, active, h.same.threshold]
    · simp only [State.moveTo, State.sealActive, unsealed, Bool.false_eq_true, if_false]
      exact ids
    · simp only [State.moveTo, State.sealActive, unsealed, Bool.false_eq_true, if_false]
      exact blocks

/-- Registering files changes the files, the registry and the next id, and depends on
nothing else. -/
structure Registers (e e1 c c1 : Engine) : Prop where
  registry : c.sstRegistry = c1.sstRegistry
  files : c.files = c1.files
  sstId : c.nextSstId = c1.nextSstId
  art : c.art = e.art ∧ c1.art = e1.art
  timestamp : c.nextTimestamp = e.nextTimestamp ∧ c1.nextTimestamp = e1.nextTimestamp
  config : c.config = e.config ∧ c1.config = e1.config
  columnar : c.columnar = e.columnar ∧ c1.columnar = e1.columnar
  mgr : c.memtableMgr = e.memtableMgr ∧ c1.memtableMgr = e1.memtableMgr
  blockId : c.nextBlockId = e.nextBlockId ∧ c1.nextBlockId = e1.nextBlockId

theorem registers_registerFiles {e e1 : Engine} (registry : e.sstRegistry = e1.sstRegistry)
    (files : e.files = e1.files) (ids : e.nextSstId = e1.nextSstId) (sstId : Nat)
    (written : List (Nat × SstFile)) :
    Registers e e1 (registerFiles e sstId written) (registerFiles e1 sstId written) := by
  cases written with
  | nil => exact ⟨registry, files, ids, ⟨rfl, rfl⟩, ⟨rfl, rfl⟩, ⟨rfl, rfl⟩, ⟨rfl, rfl⟩, ⟨rfl, rfl⟩,
      ⟨rfl, rfl⟩⟩
  | cons file rest =>
    apply foldl_rel
    · exact ⟨by simp only [registerFile, registry], by simp only [registerFile, files], ids,
        ⟨rfl, rfl⟩, ⟨rfl, rfl⟩, ⟨rfl, rfl⟩, ⟨rfl, rfl⟩, ⟨rfl, rfl⟩, ⟨rfl, rfl⟩⟩
    · intro f _ c c1 h
      exact ⟨by simp only [registerFile, h.registry, h.sstId], by simp only [registerFile, h.files],
        by simp only [h.sstId], h.art, h.timestamp, h.config, h.columnar, h.mgr, h.blockId⟩

/-- The sequential engine once a flush has drawn its ids. -/
def flushStarted (env : Platform) (r : Engine) : Engine :=
  { r with
    nextSstId := r.nextSstId + 1
    nextBlockId := (flushResult env r).nextBlockId }

/-- The sequential engine takes the flush when its files are registered. -/
theorem Inv.register (h : Inv env keys s r log pending)
    (apart : ∀ k ∈ keys, ∀ k' ∈ keys, ¬ Clash k k') {table sstId : Nat}
    {entries : List Flush.Entry} {result : FlushResult}
    (here : s.calls[i]? = some (.written table entries sstId result)) :
    ∃ s' r' pending', (s.registerSst entries sstId result).map
        (fun s => s.moveTo i (.registered table)) = some s' ∧
      Inv env keys s' r' log pending' := by
  obtain ⟨rfl, rfl, rfl, rfl, only, active, nonempty, live, ids, blocks⟩ := h.phase.of_written here
  have buffered : ∀ k ∈ r.memtableMgr.active.iterAll.map Prod.fst, k ∈ keys := by
    intro k hk
    obtain ⟨⟨k', v⟩, hv, rfl⟩ := mem_map.mp hk
    apply h.tableKeys
    rw [Memtable.mem_iterAll.mp hv]
    simp
  have inserts : InsertsApart r.art (r.memtableMgr.active.iterAll.map Prod.fst) := by
    refine ⟨fun k hk k' hk' => apart k (buffered k hk) k' (h.indexKeys k' ?_), ?_⟩
    · rw [← h.same.art]
      exact hk'
    · exact fun k hk k' hk' => apart k (buffered k hk) k' (buffered k' hk')
  obtain ⟨r', flush, flushed, _⟩ :=
    flushActive_spec env h.stores.sst h.stores.wf h.stores.unsealed h.same.queue nonempty inserts
  obtain ⟨art, insert, eq⟩ := map_eq_some_iff.mp flush
  have registry : s.engine.sstRegistry = (flushStarted env r).sstRegistry := h.same.registry.symm
  have agree := registers_registerFiles registry h.same.files.symm ids r.nextSstId
    (flushResult env r).files
  have insert' : insertAll (registerFiles s.engine r.nextSstId (flushResult env r).files).art
      ((r.memtableMgr.active.iterAll.map Prod.fst).zip
        (flushLocations r.nextSstId (flushResult env r).blockMap)) = some art := by
    rw [agree.art.1, ← h.same.art]
    exact (congrArg (insertAll · _) agree.art.2.symm).trans insert
  let s' := { s with engine :=
    { registerFiles s.engine r.nextSstId (flushResult env r).files with art := art } }.moveTo i
      (.registered s.active)
  refine ⟨s', r', fun k => r.memtableMgr.active.map[k]? = none ∧ pending k,
    by rw [State.registerSst, insert', map_some, map_some], ?_⟩
  have calls : SameCalls keys s s' := sameCalls_set rfl here rfl id (by simp)
  have stored := h.stores.mem_flushed flushed
  constructor
  case same =>
    have settings := flushed.settings
    refine ⟨?_, ?_, ?_, ?_, ?_, ?_, ?_, flushed.drained, h.same.unsealed⟩
    · rw [← eq]
      rfl
    · rw [← eq]
      exact agree.registry.symm
    · rw [← eq]
      exact agree.files.symm
    · rw [settings.nextTimestamp, h.same.timestamp]
      exact agree.timestamp.1.symm
    · rw [settings.config, h.same.config]
      exact agree.config.1.symm
    · rw [settings.columnar, h.same.columnar]
      exact agree.columnar.1.symm
    · rw [flushed.threshold, h.same.threshold]
      exact congrArg MemtableManager.sealThreshold agree.mgr.1.symm
  case stores => exact h.stores.flushed flushed
  case indexed => exact h.indexed.flushed h.stores live flushed
  case phase =>
    refine .registered (i := i) ?_ (onlyFlush_set (s := { s with engine := _ }) only _) ?_ ?_ ?_
    · have lt := (List.getElem?_eq_some_iff.mp here).1
      exact getElem?_set_self lt
    · rw [flushed.active, flushed.threshold]
    · rw [← eq]
      exact agree.sstId
    · rw [← eq]
      exact (agree.blockId.1.trans blocks).trans agree.blockId.2.symm
  case follows =>
    refine ⟨h.follows.ascending, ?_, fun x => ?_⟩
    · intro x hx
      refine .inr ?_
      rcases h.follows.kept x hx with ⟨v, hv, le⟩ | ⟨y, hy, key, le⟩
      · exact ⟨⟨x.key, v.timestamp, v.value⟩, (stored _).mpr (.inr ⟨v, hv, rfl⟩), rfl, le⟩
      · exact ⟨y, (stored y).mpr (.inl hy), key, le⟩
    · rw [calls.rows, ← h.follows.writes]
      rfl
  case rows =>
    change ∀ x ∈ s.writes, x.ts < (registerFiles s.engine _ _).nextTimestamp ∧ _
    rw [agree.timestamp.1]
    exact h.rows
  case calls => exact calls.ok h.calls
  case waiting =>
    rintro k ⟨_, hk⟩
    obtain ⟨row, inside, key⟩ := h.waiting k hk
    exact ⟨row, calls.inserted row inside, key⟩
  case indexKeys =>
    intro k hk
    have hk : r'.art.lookup k ≠ none := by
      rw [← eq]
      exact hk
    by_cases outside : r.memtableMgr.active.map[k]? = none
    · rw [flushed.others k outside, h.same.art] at hk
      exact h.indexKeys k hk
    · exact h.tableKeys k outside
  case tableKeys =>
    intro k hk
    rw [flushed.active] at hk
    simp [Memtable.new] at hk

end Flushes

section Runs

variable {env : Platform} {keys : List Bytes} {s : State}

/-- Some sequential engine follows the state. -/
def Followed (env : Platform) (keys : List Bytes) (s : State) : Prop :=
  ∃ r log pending, Inv env keys s r log pending

theorem followed_init (env : Platform) (keys : List Bytes) (config : EngineConfig) :
    Followed env keys (State.init env config) := by
  refine ⟨{ Engine.fresh env config with bgWorkerActive := true }, [], fun _ => False, ?_⟩
  have fresh := contains_fresh env config
  constructor
  case same => exact ⟨rfl, rfl, rfl, rfl, rfl, rfl, rfl, rfl, rfl⟩
  case stores => exact fresh.toStores.of_eq rfl fresh.wf rfl rfl le_rfl rfl rfl
  case indexed => exact (indexed_fresh env config).of_eq rfl rfl rfl rfl
  case phase => exact .quiet (by simp [State.NoFlush, State.init]) rfl rfl rfl
  case follows => exact ⟨List.Pairwise.nil, by simp, by simp [State.init]⟩
  case rows => simp [State.init]
  case calls => simp [State.init]
  case waiting => simp
  case indexKeys => exact fun k found => absurd rfl found
  case tableKeys => simp [Engine.fresh, MemtableManager.new, Memtable.new]

/-- The puts of the step write known keys. -/
def KnownKey (keys : List Bytes) : Act → Prop
  | .call (.put key _) => key ∈ keys
  | _ => True

theorem Followed.call (h : Followed env keys s) {c : Call} (known : KnownKey keys (.call c))
    (undisturbed : s.Undisturbed (.call c)) :
    Followed env keys { s with calls := s.calls ++ [c.start] } := by
  obtain ⟨r, log, pending, inv⟩ := h
  have ok : c.start.Ok keys := by
    cases c with
    | put key value => exact ⟨undisturbed, known⟩
    | delete key => trivial
    | flush => trivial
  have outside : c.start.midFlush = false := by cases c <;> rfl
  refine ⟨r, log, pending, inv.frame ⟨rfl, rfl, rfl, rfl, rfl, rfl, rfl, rfl, rfl, rfl, rfl, rfl⟩
    (sameCalls_snoc rfl (by cases c <;> rfl) ok) ?_⟩
  intro j x mid
  rw [getElem?_append]
  split
  · rfl
  · rename_i beyond
    rw [getElem?_eq_none (not_lt.mp beyond)]
    constructor
    · intro new
      rw [mem_singleton.mp (mem_of_getElem? new), outside] at mid
      cases mid
    · rintro ⟨⟩

/-- Each step of a call succeeds and keeps the invariant. -/
theorem Followed.advance (h : Followed env keys s)
    (apart : ∀ k ∈ keys, ∀ k' ∈ keys, ¬ Clash k k') {i : Nat} {pc : Pc}
    (here : s.calls[i]? = some pc) (undisturbed : s.Undisturbed (.advance i)) :
    ∃ s', s.advance env i pc = some s' ∧ Followed env keys s' := by
  obtain ⟨r, log, pending, inv⟩ := h
  have ok := inv.calls pc (mem_of_getElem? here)
  simp only [State.Undisturbed, here] at undisturbed
  cases pc with
  | putting key value =>
    refine ⟨_, rfl, _, log, pending, inv.nextTs here rfl rfl (by simp) ok.2 ?_⟩
    intro empty
    exact ok.1 (some.inj empty)
  | deleting key =>
    by_cases missing : s.engine.art.lookup key = none
    · refine ⟨_, rfl, r, log, pending, ?_⟩
      rw [if_pos missing]
      exact inv.moveTo here ⟨rfl, rfl, rfl, rfl, rfl, rfl, rfl, rfl, rfl, rfl, rfl, rfl⟩ rfl rfl rfl
        rfl (fun _ => trivial) (by simp)
    · refine ⟨_, rfl, r, log, pending, ?_⟩
      rw [if_neg missing]
      exact inv.moveTo here ⟨rfl, rfl, rfl, rfl, rfl, rfl, rfl, rfl, rfl, rfl, rfl, rfl⟩ rfl rfl rfl
        rfl (fun _ => inv.indexKeys key missing) (by simp)
  | found key =>
    exact ⟨_, rfl, _, log, pending, inv.nextTs here rfl rfl (by simp) ok (by simp)⟩
  | holding row table =>
    obtain ⟨rfl, noFlush, newer⟩ := undisturbed
    exact ⟨_, rfl, _, _, _, inv.insertRow here noFlush newer⟩
  | inserted row =>
    obtain ⟨s', r', pending', eq, inv'⟩ := inv.updateArt apart here undisturbed
    exact ⟨s', eq, r', log, pending', inv'⟩
  | flushing =>
    by_cases empty : (s.tables s.active).iterAll = []
    · refine ⟨_, if_pos empty, r, log, pending, ?_⟩
      exact inv.moveTo here ⟨rfl, rfl, rfl, rfl, rfl, rfl, rfl, rfl, rfl, rfl, rfl, rfl⟩ rfl rfl rfl
        rfl id (by simp)
    · refine ⟨_, if_neg empty, r, log, pending, ?_⟩
      exact inv.snapshot here undisturbed.1 undisturbed.2 empty
  | snapshot table entries sstId =>
    obtain ⟨s', eq, inv'⟩ := inv.write here
    exact ⟨s', eq, r, log, pending, inv'⟩
  | written table entries sstId result =>
    obtain ⟨s', r', pending', eq, inv'⟩ := inv.register apart here
    exact ⟨s', eq, r', log, pending', inv'⟩
  | registered table => exact ⟨_, rfl, r, log, pending, inv.sealActive here⟩
  | drawn row | logged row | swapped table =>
    exact ⟨_, rfl, r, log, pending, inv.moveTo here
      ⟨rfl, rfl, rfl, rfl, rfl, rfl, rfl, rfl, rfl, rfl, rfl, rfl⟩ rfl rfl rfl rfl id (by simp)⟩
  | done => exact ⟨s, rfl, r, log, pending, inv⟩

theorem Followed.step (h : Followed env keys s)
    (apart : ∀ k ∈ keys, ∀ k' ∈ keys, ¬ Clash k k') {a : Act} (known : KnownKey keys a)
    (undisturbed : s.Undisturbed a) : ∃ s', s.step env a = some s' ∧ Followed env keys s' := by
  cases a with
  | call c => exact ⟨_, rfl, h.call known undisturbed⟩
  | advance i =>
    cases here : s.calls[i]? with
    | none => exact ⟨s, by simp only [State.step, here], h⟩
    | some pc =>
      obtain ⟨s', eq, followed⟩ := h.advance apart here undisturbed
      exact ⟨s', by simp only [State.step, here]; exact eq, followed⟩

/-- When every call has returned, the sequential engine is what readers see. -/
theorem Followed.reads (h : Followed env keys s) (done : s.AllDone) (k v : Bytes) :
    (s.view.get k = some v ↔ ∃ ts, Newest s.writes k ⟨k, ts, some v⟩) ∧
      ∀ order, (k, v) ∈ s.view.scanAll order ↔ ∃ ts, Newest s.writes k ⟨k, ts, some v⟩ := by
  obtain ⟨r, log, pending, inv⟩ := h
  have noFlush : s.NoFlush := by
    intro pc hpc
    rw [Pc.eq_done_of_isDone (done pc hpc)]
    rfl
  have settled : ∀ k, ¬ pending k := by
    intro k hk
    obtain ⟨row, hrow, _⟩ := inv.waiting k hk
    cases done _ hrow
  have writes : ∀ x, x ∈ log ↔ x ∈ s.writes := by
    intro x
    rw [inv.follows.writes]
    constructor
    · exact .inl
    · rintro (inside | ⟨pc, hpc, hx⟩)
      · exact inside
      · rw [Pc.eq_done_of_isDone (done pc hpc)] at hx
        cases hx
  obtain ⟨active, sstId, blockId⟩ := inv.phase.of_noFlush noFlush
  have same := inv.same
  have stores : s.view.Stores (contents (ofRows log)) :=
    inv.stores.of_eq active.symm (same.art ▸ inv.stores.wf) same.registry.symm same.files.symm
      same.timestamp.le sstId blockId
  have indexed : s.view.Indexed (contents (ofRows log)) pending :=
    inv.indexed.of_eq active.symm same.art.symm same.registry.symm same.files.symm
  have newest : contents (ofRows log) k = some v ↔ ∃ ts, Newest s.writes k ⟨k, ts, some v⟩ :=
    (contents_ofRows_iff inv.follows.ascending k v).trans
      (exists_congr fun ts => newest_congr writes)
  refine ⟨?_, fun order => ?_⟩
  · rw [indexed.get_eq stores (settled k)]
    exact newest
  · rw [mem_scanAll stores.readable, stores.current_iff]
    exact newest

/-- In a run of interleaved puts, deletes and flushes whose steps are all undisturbed and
whose keys do not clash, no step fails, and once all calls have returned, point reads and
scans show for each key the write with the greatest timestamp. -/
theorem reads_of_interleaving (env : Platform) (config : EngineConfig) (acts : List Act)
    (apart : ∀ k ∈ putKeys acts, ∀ k' ∈ putKeys acts, ¬ Clash k k')
    (undisturbed : Run.Along (State.step env) State.Undisturbed (State.init env config) acts) :
    ∃ s, Run.run (State.step env) (State.init env config) acts = some s ∧ (s.AllDone → ∀ k v,
      (s.view.get k = some v ↔ ∃ ts, Newest s.writes k ⟨k, ts, some v⟩) ∧
      ∀ order, (k, v) ∈ s.view.scanAll order ↔ ∃ ts, Newest s.writes k ⟨k, ts, some v⟩) := by
  have known : ∀ a ∈ acts, KnownKey (putKeys acts) a := by
    intro a ha
    cases a with
    | advance i => trivial
    | call c =>
      cases c with
      | put key value => exact mem_filterMap.mpr ⟨_, ha, rfl⟩
      | delete key => trivial
      | flush => trivial
  obtain ⟨s, eq, followed⟩ := Run.invariant
    (fun s a (h : Followed env (putKeys acts) s) guard => h.step apart guard.1 guard.2)
    (followed_init env (putKeys acts) config) ((Run.along_of_forall _ known).and undisturbed)
  exact ⟨s, eq, fun done k v => followed.reads done k v⟩

theorem reads_of_two_puts_then_flush_and_delete :
    let acts : List Act := [.call (.put [97] [49]), .call (.put [98] [50]), .advance 0, .advance 1,
      .advance 1, .advance 0, .advance 0, .advance 1, .advance 1, .advance 0, .call .flush,
      .advance 2, .advance 0, .advance 2, .advance 1, .call (.delete [97]), .advance 3, .advance 3,
      .advance 2, .advance 3, .advance 2, .advance 3, .advance 3, .advance 3, .advance 2]
    ∃ s, Run.run (State.step .plain) (State.init .plain .default) acts = some s ∧ s.AllDone ∧
      ∀ k v, s.view.get k = some v ↔ ∃ ts, Newest s.writes k ⟨k, ts, some v⟩ := by
  intro acts
  obtain ⟨s, eq, reads⟩ :=
    reads_of_interleaving .plain .default acts (by decide) (by decide +kernel)
  have done : ∃ s ∈ Run.run (State.step .plain) (State.init .plain .default) acts, s.AllDone := by
    decide +kernel
  obtain ⟨s', eq', done⟩ := done
  obtain rfl : s = s' := some.inj (eq.symm.trans eq')
  exact ⟨s, eq, done, fun k v => (reads done k v).1⟩

/-- A put that lands in the memtable between the snapshot of a flush and its swap is
dropped with the memtable. -/
theorem reads_put_during_flush :
    let acts : List Act := [.call (.put [97] [49]), .advance 0, .advance 0, .advance 0, .advance 0,
      .advance 0, .call .flush, .advance 1, .advance 1, .call (.put [98] [50]), .advance 2,
      .advance 2, .advance 2, .advance 2, .advance 2, .advance 1, .advance 1, .advance 1]
    ∃ s ∈ Run.run (State.step .plain) (State.init .plain .default) acts, s.AllDone ∧
      Newest s.writes [98] ⟨[98], 2, some [50]⟩ ∧ s.view.get [98] = none ∧
      ([98], [50]) ∉ s.view.scanAll .byId := by
  decide +kernel

end Runs

end Concurrent

end GalaxDb
