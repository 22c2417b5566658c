import GalaxDb.Storage.Concurrent
import GalaxDb.Storage.History

/-!
# Snapshots beside concurrent writers

A reader takes the latest commit timestamp and scans at it, then and later, while `put_sync`
and `delete_sync` calls go on. A call draws its timestamp before it appends to the log and
long before its row is in the memtable.
-/

namespace GalaxDb

open Std Row VersionedValue List Option

/-- No version of a chain is newer than its head. -/
theorem VersionedValue.Chained.le_timestamp {v : VersionedValue} (chained : v.Chained)
    {w : Version} (hw : w ∈ v.versions) : w.timestamp ≤ v.timestamp := by
  rcases mem_cons.mp hw with rfl | older
  · exact le_rfl
  · exact ((pairwise_cons.mp chained).1 w older).le

namespace Engine

section Lookup

/-- What a merged row leaves of the entry of its key. -/
def mergeEntry (old : Option (Bytes × Timestamp)) (value : Option Bytes) (ts : Timestamp) :
    Option (Bytes × Timestamp) :=
  if (old.map Prod.snd).getD 0 ≤ ts then value.map (·, ts) else old

theorem getElem?_snapshotMerge (out : SnapshotMap) (key : Bytes) (value : Option Bytes)
    (ts : Timestamp) (k : Bytes) :
    (snapshotMerge out key value ts)[k]? =
      if key = k then mergeEntry out[k]? value ts else out[k]? := by
  by_cases here : key = k
  · subst here
    rw [if_pos rfl]
    unfold snapshotMerge mergeEntry
    split
    · cases value <;> simp
    · rfl
  · unfold snapshotMerge
    split
    · cases value <;> simp [ExtTreeMap.getElem?_insert, ExtTreeMap.getElem?_erase, here]
    · rfl

/-- The entry of a key after the memtable has been merged over the files. -/
def overEntry (stored : Option (Bytes × Timestamp)) (readTs : Timestamp)
    (versions : Option VersionedValue) : Option (Bytes × Timestamp) :=
  match versions.bind (getAtWithTs · readTs) with
  | some (value, ts) => mergeEntry stored value ts
  | none => stored

theorem getElem?_snapshotEntry (readTs : Timestamp) (out : SnapshotMap)
    (e : Bytes × VersionedValue) (k : Bytes) :
    (snapshotEntry readTs out e)[k]? =
      if e.1 = k then overEntry out[k]? readTs (some e.2) else out[k]? := by
  unfold snapshotEntry overEntry
  rw [bind_some]
  cases e.2.getAtWithTs readTs with
  | some found => exact getElem?_snapshotMerge out e.1 found.1 found.2 k
  | none => exact (ite_self _).symm

variable {readTs : Timestamp} {order : IterOrder} {e : Engine} {k : Bytes}

variable {entries : List (Bytes × VersionedValue)} {out : SnapshotMap}

theorem foldl_snapshotEntry_of_not_mem (absent : ∀ e ∈ entries, e.1 ≠ k) :
    (entries.foldl (snapshotEntry readTs) out)[k]? = out[k]? := by
  induction entries generalizing out with
  | nil => rfl
  | cons e rest ih =>
    rw [foldl_cons, ih fun x hx => absent x (mem_cons_of_mem _ hx),
      getElem?_snapshotEntry, if_neg (absent e mem_cons_self)]

theorem foldl_snapshotEntry_of_mem (nodup : entries.Pairwise fun a b => a.1 ≠ b.1)
    {e : Bytes × VersionedValue} (he : e ∈ entries) :
    (entries.foldl (snapshotEntry readTs) out)[e.1]? = overEntry out[e.1]? readTs (some e.2) := by
  induction entries generalizing out with
  | nil => cases he
  | cons a rest ih =>
    obtain ⟨first, tail⟩ := pairwise_cons.mp nodup
    rw [foldl_cons]
    rcases mem_cons.mp he with rfl | he
    · rw [foldl_snapshotEntry_of_not_mem fun x hx => (first x hx).symm, getElem?_snapshotEntry,
        if_pos rfl]
    · rw [ih tail he, getElem?_snapshotEntry, if_neg (first e he)]

/-- What the files contribute to a snapshot scan. -/
def storedAt (e : Engine) (order : IterOrder) (readTs : Timestamp) : SnapshotMap :=
  ((e.scanBlocks order).flatMap PaxBlock.rows).foldl (snapshotRow readTs) ∅

/-- The entry that a snapshot scan shows for a key. -/
def shownAt (e : Engine) (order : IterOrder) (readTs : Timestamp) (k : Bytes) :
    Option (Bytes × Timestamp) :=
  overEntry (e.storedAt order readTs)[k]? readTs e.memtableMgr.active.map[k]?

theorem mem_scanAllAt_iff_shownAt {v : Bytes} {ts : Timestamp} :
    (k, v, ts) ∈ e.scanAllAt order readTs ↔ e.shownAt order readTs k = some (v, ts) := by
  rw [scanAllAt, ExtTreeMap.mem_toList_iff_getElem?_eq_some, shownAt]
  cases here : e.memtableMgr.active.map[k]? with
  | none =>
    rw [foldl_snapshotEntry_of_not_mem, overEntry]
    · rfl
    · rintro ⟨k', v'⟩ hv rfl
      rw [Memtable.mem_iterAll, here] at hv
      cases hv
  | some versions =>
    have he := Memtable.mem_iterAll.mpr here
    exact iff_of_eq (congrArg (· = some (v, ts))
      (foldl_snapshotEntry_of_mem (iterAll_pairwise_ne e.memtableMgr.active) he))

theorem scanAllAt_eq_iff_shownAt {e' : Engine} :
    e'.scanAllAt order readTs = e.scanAllAt order readTs ↔
      ∀ k, e'.shownAt order readTs k = e.shownAt order readTs k := by
  constructor
  · intro same k
    refine ext ?_
    rintro ⟨v, ts⟩
    rw [← mem_scanAllAt_iff_shownAt, ← mem_scanAllAt_iff_shownAt, same]
  · intro same
    refine Bytes.eq_of_ordered_of_mem_iff Prod.fst ExtTreeMap.ordered_keys_toList
      ExtTreeMap.ordered_keys_toList ?_
    rintro ⟨k, v, ts⟩
    exact mem_scanAllAt_iff_shownAt.trans ((same k).symm ▸ mem_scanAllAt_iff_shownAt.symm)

theorem scanAllAt_congr {e e' : Engine} (files : e'.files = e.files)
    (registry : e'.sstRegistry = e.sstRegistry)
    (active : e'.memtableMgr.active = e.memtableMgr.active) (order : IterOrder)
    (readTs : Timestamp) : e'.scanAllAt order readTs = e.scanAllAt order readTs := by
  unfold scanAllAt scanBlocks blocksOf
  rw [files, registry, active]

theorem shownAt_eq_none_iff :
    e.shownAt order readTs k = none ↔ ∀ x ∈ e.scanAllAt order readTs, x.1 ≠ k := by
  rw [eq_none_iff_forall_ne_some]
  constructor
  · rintro hidden ⟨k', v, ts⟩ hx rfl
    exact hidden (v, ts) (mem_scanAllAt_iff_shownAt.mp hx)
  · rintro absent ⟨v, ts⟩ shown
    exact absent (k, v, ts) (mem_scanAllAt_iff_shownAt.mpr shown) rfl

/-- What the files contribute is no newer than they are. -/
theorem storedAt_lt {since : Timestamp} (stored : ∀ r ∈ e.sstRows, r.ts < since)
    {p : Bytes × Timestamp} (found : (e.storedAt order readTs)[k]? = some p) : p.2 < since := by
  have older : ∀ r ∈ (e.scanBlocks order).flatMap PaxBlock.rows, r.ts < since :=
    fun r hr => stored r ((mem_scanRows order).mp hr)
  have start : ∀ q, (∅ : SnapshotMap)[k]? = some q → q.2 < since := by simp
  unfold storedAt at found
  generalize (∅ : SnapshotMap) = out at found start
  generalize (e.scanBlocks order).flatMap PaxBlock.rows = rows at found older
  induction rows generalizing out with
  | nil => exact start p found
  | cons r rest ih =>
    refine ih _ ?_ found fun x hx => older x (mem_cons_of_mem _ hx)
    intro q hq
    have here := older r mem_cons_self
    unfold snapshotRow at hq
    split at hq
    · exact start q hq
    rw [getElem?_snapshotMerge, mergeEntry] at hq
    split at hq
    · split at hq
      · obtain ⟨_, _, rfl⟩ := map_eq_some_iff.mp hq
        exact here
      · exact start q hq
    · exact start q hq

end Lookup

section Put

theorem getAtWithTs_push (m : Memtable) (key : Bytes) (ts : Timestamp) (value : Option Bytes)
    (readTs : Timestamp) :
    (m.push key ts value).getAtWithTs readTs = if ts ≤ readTs then some (value, ts)
      else m.map[key]?.bind (getAtWithTs · readTs) := by
  unfold Memtable.push
  cases m.map[key]? with
  | none | some v =>
    by_cases seen : ts ≤ readTs <;> simp [getAtWithTs, versions, seen]

/-- A chain stays in order if and only if what is put in front of it is newer than its head. -/
theorem chained_put_iff {m : Memtable} (unsealed : m.isSealed = false) (chained : m.Chained)
    (key : Bytes) (ts : Timestamp) (value : Option Bytes) :
    (m.put key ts value).1.Chained ↔ ∀ v, m.map[key]? = some v → v.timestamp < ts := by
  constructor
  · intro after v hv
    have new : (key, m.push key ts value) ∈ (m.put key ts value).1.iterAll := by
      rw [Memtable.mem_iterAll, Memtable.getElem?_put unsealed, if_pos rfl]
    have ordered := after _ new
    rw [VersionedValue.Chained, versions_push, hv] at ordered
    exact (pairwise_cons.mp ordered).1 ⟨v.timestamp, v.value⟩ mem_cons_self
  · rintro newer ⟨k, v⟩ hv
    rw [Memtable.mem_iterAll, Memtable.getElem?_put unsealed] at hv
    split at hv
    · cases hv
      rw [VersionedValue.Chained, versions_push]
      cases old : m.map[key]? with
      | none => exact pairwise_singleton _ _
      | some v =>
        have ordered := chained _ (Memtable.mem_iterAll.mpr old)
        refine pairwise_cons.mpr ⟨?_, ordered⟩
        intro w hw
        exact (ordered.le_timestamp hw).trans_lt (newer v old)
    · exact chained _ (Memtable.mem_iterAll.mpr hv)

variable {e e' : Engine} {order : IterOrder} {row : Row Bytes Bytes}

theorem shownAt_put (unsealed : e.memtableMgr.active.isSealed = false)
    (files : e'.files = e.files) (registry : e'.sstRegistry = e.sstRegistry)
    (active : e'.memtableMgr.active = (e.memtableMgr.active.put row.key row.ts row.val).1)
    (t : Timestamp) (k : Bytes) :
    e'.shownAt order t k =
      if row.key = k ∧ row.ts ≤ t then mergeEntry (e.storedAt order t)[k]? row.val row.ts
      else e.shownAt order t k := by
  have stored : e'.storedAt order t = e.storedAt order t := by
    unfold storedAt scanBlocks blocksOf
    rw [files, registry]
  rw [shownAt, stored, active, Memtable.getElem?_put unsealed]
  by_cases here : row.key = k
  · subst here
    rw [if_pos rfl, overEntry, bind_some, getAtWithTs_push]
    by_cases seen : row.ts ≤ t
    · rw [if_pos seen, if_pos ⟨rfl, seen⟩]
    · rw [if_neg seen, if_neg fun both => seen both.2]
      rfl
  · rw [if_neg here, if_neg fun both => here both.1]
    rfl

/-- With nothing as new in the files or in its chain, a row changes what a snapshot shows
unless the snapshot is older, or the row deletes a key that it does not show. -/
theorem scanAllAt_put_eq_iff (unsealed : e.memtableMgr.active.isSealed = false)
    (files : e'.files = e.files) (registry : e'.sstRegistry = e.sstRegistry)
    (active : e'.memtableMgr.active = (e.memtableMgr.active.put row.key row.ts row.val).1)
    {t : Timestamp}
    (stored : ∀ p, (e.storedAt order t)[row.key]? = some p → p.2 < row.ts)
    (newer : ∀ v, e.memtableMgr.active.map[row.key]? = some v →
      ∀ w ∈ v.versions, w.timestamp < row.ts) :
    e'.scanAllAt order t = e.scanAllAt order t ↔
      t < row.ts ∨ row.val = none ∧ e.shownAt order t row.key = none := by
  have merged : mergeEntry (e.storedAt order t)[row.key]? row.val row.ts =
      row.val.map (·, row.ts) := by
    rw [mergeEntry, if_pos]
    cases old : (e.storedAt order t)[row.key]? with
    | none => exact Nat.zero_le _
    | some p => exact (stored p old).le
  have older : ∀ p, e.shownAt order t row.key = some p → p.2 < row.ts := by
    intro p shown
    rw [shownAt, overEntry] at shown
    cases found : e.memtableMgr.active.map[row.key]?.bind (getAtWithTs · t) with
    | none =>
      simp only [found] at shown
      exact stored p shown
    | some x =>
      obtain ⟨v, hv, at_t⟩ := bind_eq_some_iff.mp found
      obtain ⟨w, hw, rfl⟩ := map_eq_some_iff.mp at_t
      have inside := newer v hv w (mem_of_find?_eq_some hw)
      simp only [found, mergeEntry] at shown
      split at shown
      · obtain ⟨_, _, rfl⟩ := map_eq_some_iff.mp shown
        exact inside
      · exact stored p shown
  rw [scanAllAt_eq_iff_shownAt]
  constructor
  · intro same
    by_cases late : t < row.ts
    · exact .inl late
    have here := same row.key
    rw [shownAt_put unsealed files registry active, if_pos ⟨rfl, Nat.le_of_not_lt late⟩,
      merged] at here
    cases value : row.val with
    | none =>
      rw [value] at here
      exact .inr ⟨rfl, here.symm⟩
    | some x =>
      rw [value] at here
      exact absurd (older _ here.symm) (lt_irrefl _)
  · rintro unseen k
    rw [shownAt_put unsealed files registry active]
    split
    · rename_i seen
      obtain ⟨rfl, le⟩ := seen
      obtain ⟨deleted, hidden⟩ := unseen.resolve_left le.not_gt
      rw [merged, deleted, hidden]
      rfl
    · rfl

end Put

end Engine

namespace RepeatableReads

open Concurrent Engine

/-- Writers' calls and their steps, and a reader that takes a snapshot. -/
inductive Act where
  | put (key value : Bytes)
  | delete (key : Bytes)
  | advance (i : Nat)
  | read

/-- `snapshots` records with every snapshot what it showed when it was taken. -/
structure State where
  writers : Concurrent.State
  snapshots : List (Timestamp × List (Bytes × Bytes × Timestamp))

namespace State

def read (order : IterOrder) (s : State) : State :=
  let t := s.writers.view.latestCommitTs
  { s with snapshots := s.snapshots ++ [(t, s.writers.view.scanAllAt order t)] }

def step (env : Platform) (order : IterOrder) (s : State) : Act → Option State
  | .put key value =>
    (s.writers.step env (.call (.put key value))).map fun w => { s with writers := w }
  | .delete key => (s.writers.step env (.call (.delete key))).map fun w => { s with writers := w }
  | .advance i => (s.writers.step env (.advance i)).map fun w => { s with writers := w }
  | .read => some (s.read order)

end State

/-- Every version chain strictly descends, and every snapshot shows what it has shown. -/
structure Repeatable (order : IterOrder) (s : State) : Prop where
  chained : ∀ table, table = s.writers.active ∨ table ∈ s.writers.sealedQueue →
    (s.writers.tables table).Chained
  repeats : ∀ snap ∈ s.snapshots, s.writers.view.scanAllAt order snap.1 = snap.2

/-- A row enters the memtable before any newer one of its key and before any snapshot that is
not older, unless it deletes a key that the snapshot does not show. -/
def InOrder (s : State) : Act → Prop
  | .advance i =>
    match s.writers.calls[i]? with
    | some (.holding row table) =>
      (∀ head ∈ (s.writers.tables table).map[row.key]?, head.timestamp < row.ts) ∧
        ∀ snap ∈ s.snapshots, snap.1 < row.ts ∨ row.val = none ∧ ∀ shown ∈ snap.2, shown.1 ≠ row.key
    | _ => True
  | _ => True

/-- A call of a writer, with a timestamp that was drawn in the run. -/
def Writes (since : Timestamp) (active : Nat) : Pc → Prop
  | .putting _ _ => True
  | .deleting _ => True
  | .found _ => True
  | .drawn row => since ≤ row.ts
  | .logged row => since ≤ row.ts
  | .holding row table => since ≤ row.ts ∧ table = active
  | .inserted _ => True
  | .done => True
  | _ => False

/-- What writers do not change: there is an active memtable, and the files are older than
the first timestamp of the run. -/
structure Writing (since : Timestamp) (s : Concurrent.State) : Prop where
  unsealed : (s.tables s.active).isSealed = false
  clock : since ≤ s.engine.nextTimestamp
  stored : ∀ r ∈ s.engine.sstRows, r.ts < since
  calls : ∀ pc ∈ s.calls, Writes since s.active pc

/-- The same rows in memtables and files. -/
structure SameRows (s s' : Concurrent.State) : Prop where
  tables : s'.tables = s.tables
  active : s'.active = s.active
  sealedQueue : s'.sealedQueue = s.sealedQueue
  files : s'.engine.files = s.engine.files
  registry : s'.engine.sstRegistry = s.engine.sstRegistry

variable {env : Platform} {order : IterOrder} {since : Timestamp} {s s' : Concurrent.State}

theorem SameRows.scanAllAt (same : SameRows s s') (t : Timestamp) :
    s'.view.scanAllAt order t = s.view.scanAllAt order t := by
  refine @scanAllAt_congr s.view s'.view same.files same.registry ?_ order t
  simp only [Concurrent.State.view, same.tables, same.active]

theorem Writing.sameRows (h : Writing since s) (same : SameRows s s')
    (clock : s.engine.nextTimestamp ≤ s'.engine.nextTimestamp)
    (calls : ∀ pc ∈ s'.calls, pc ∈ s.calls ∨ Writes since s.active pc) : Writing since s' := by
  have rows : s'.engine.sstRows = s.engine.sstRows := by
    unfold sstRows scanBlocks blocksOf
    simp only [same.files, same.registry]
  refine ⟨?_, h.clock.trans clock, ?_, ?_⟩
  · rw [same.tables, same.active]
    exact h.unsealed
  · rw [rows]
    exact h.stored
  · intro pc hpc
    rw [same.active]
    exact (calls pc hpc).elim (h.calls pc) id

/-- A step of a writer inserts its row, or leaves all rows where they are. -/
theorem Writing.advance (h : Writing since s) {i : Nat} {pc : Pc} (here : s.calls[i]? = some pc)
    (eq : s.advance env i pc = some s') :
    Writing since s' ∧ ((∃ row table, pc = .holding row table ∧
      s' = (s.insertRow row table).moveTo i (.inserted row)) ∨
        (∀ row table, pc ≠ .holding row table) ∧ SameRows s s') := by
  have writes := h.calls pc (mem_of_getElem? here)
  have moved : ∀ pc', Writes since s.active pc' → ∀ pc ∈ s.calls.set i pc',
      pc ∈ s.calls ∨ Writes since s.active pc := by
    intro pc' new p hp
    rcases mem_or_eq_of_mem_set hp with old | rfl
    · exact .inl old
    · exact .inr new
  cases pc with
  | putting key value =>
    cases eq
    have same : SameRows s (s.nextTs i key (some value)) := ⟨rfl, rfl, rfl, rfl, rfl⟩
    exact ⟨h.sameRows same (Nat.le_succ _) (moved _ h.clock), .inr ⟨nofun, same⟩⟩
  | deleting key =>
    cases eq
    refine ⟨h.sameRows ⟨rfl, rfl, rfl, rfl, rfl⟩ le_rfl (moved _ ?_),
      .inr ⟨nofun, ⟨rfl, rfl, rfl, rfl, rfl⟩⟩⟩
    split <;> exact trivial
  | found key =>
    cases eq
    have same : SameRows s (s.nextTs i key none) := ⟨rfl, rfl, rfl, rfl, rfl⟩
    exact ⟨h.sameRows same (Nat.le_succ _) (moved _ h.clock), .inr ⟨nofun, same⟩⟩
  | drawn row =>
    cases eq
    have same : SameRows s ((s.appendWal env row).moveTo i (.logged row)) :=
      ⟨rfl, rfl, rfl, rfl, rfl⟩
    exact ⟨h.sameRows same le_rfl (moved _ writes), .inr ⟨nofun, same⟩⟩
  | logged row =>
    cases eq
    have same : SameRows s (s.moveTo i (.holding row s.active)) := ⟨rfl, rfl, rfl, rfl, rfl⟩
    exact ⟨h.sameRows same le_rfl (moved _ ⟨writes, rfl⟩), .inr ⟨nofun, same⟩⟩
  | holding row table =>
    cases eq
    obtain ⟨young, rfl⟩ := writes
    refine ⟨⟨?_, h.clock, h.stored, ?_⟩, .inl ⟨row, s.active, rfl, rfl⟩⟩
    · simp only [Concurrent.State.moveTo, Concurrent.State.insertRow, Function.update_self,
        Memtable.isSealed_put]
      exact h.unsealed
    · intro pc hpc
      exact (moved (.inserted row) trivial pc hpc).elim (h.calls pc) id
  | inserted row =>
    obtain ⟨s1, updated, rfl⟩ := map_eq_some_iff.mp eq
    have same : SameRows s s1 ∧ s1.engine.nextTimestamp = s.engine.nextTimestamp ∧
        s1.calls = s.calls := by
      unfold Concurrent.State.updateArt at updated
      split at updated
      · obtain ⟨art, _, rfl⟩ := map_eq_some_iff.mp updated
        exact ⟨⟨rfl, rfl, rfl, rfl, rfl⟩, rfl, rfl⟩
      · cases updated
        exact ⟨⟨rfl, rfl, rfl, rfl, rfl⟩, rfl, rfl⟩
    obtain ⟨same, clock, calls⟩ := same
    refine ⟨h.sameRows ⟨same.tables, same.active, same.sealedQueue, same.files, same.registry⟩
      clock.symm.le ?_, .inr ⟨nofun,
        ⟨same.tables, same.active, same.sealedQueue, same.files, same.registry⟩⟩⟩
    simp only [Concurrent.State.moveTo, calls]
    exact moved .done trivial
  | done =>
    cases eq
    exact ⟨h, .inr ⟨nofun, ⟨rfl, rfl, rfl, rfl, rfl⟩⟩⟩
  | flushing => exact writes.elim
  | snapshot table entries sstId => exact writes.elim
  | written table entries sstId result => exact writes.elim
  | registered table => exact writes.elim
  | swapped table => exact writes.elim

section Insert

variable {s : State} {row : Row Bytes Bytes}

/-- The state after a row has been inserted into the active memtable. -/
def inserted (s : State) (row : Row Bytes Bytes) (i : Nat) : State :=
  { s with writers := (s.writers.insertRow row s.writers.active).moveTo i (.inserted row) }

theorem inserted_active (s : State) (row : Row Bytes Bytes) (i : Nat) :
    (inserted s row i).writers.tables s.writers.active =
      ((s.writers.tables s.writers.active).put row.key row.ts row.val).1 :=
  Function.update_self _ _ _

theorem Repeatable.inserted_iff (h : Writing since s.writers) (inv : Repeatable order s)
    (young : since ≤ row.ts) (i : Nat) :
    Repeatable order (inserted s row i) ↔
      (∀ v, (s.writers.tables s.writers.active).map[row.key]? = some v → v.timestamp < row.ts) ∧
        ∀ snap ∈ s.snapshots,
          snap.1 < row.ts ∨ row.val = none ∧ ∀ shown ∈ snap.2, shown.1 ≠ row.key := by
  have chained := inv.chained _ (.inl rfl)
  have newest : ((s.writers.tables s.writers.active).put row.key row.ts row.val).1.Chained ↔ _ :=
    chained_put_iff h.unsealed chained row.key row.ts row.val
  have scans : (∀ v, (s.writers.tables s.writers.active).map[row.key]? = some v →
        v.timestamp < row.ts) → ∀ snap ∈ s.snapshots,
      ((inserted s row i).writers.view.scanAllAt order snap.1 = snap.2 ↔
        snap.1 < row.ts ∨ row.val = none ∧ ∀ shown ∈ snap.2, shown.1 ≠ row.key) := by
    intro newer snap hsnap
    have now := inv.repeats snap hsnap
    have unsealed : s.writers.view.memtableMgr.active.isSealed = false := h.unsealed
    have put := @scanAllAt_put_eq_iff s.writers.view (inserted s row i).writers.view order row
      unsealed rfl rfl (inserted_active s row i) snap.1
      (fun p found => (storedAt_lt h.stored found).trans_le young)
      (fun v hv w hw => Nat.lt_of_le_of_lt
        ((chained _ (Memtable.mem_iterAll.mpr hv)).le_timestamp hw) (newer v hv))
    rw [shownAt_eq_none_iff, now] at put
    exact put
  constructor
  · intro after
    have newer := newest.mp (inserted_active s row i ▸ after.chained _ (.inl rfl))
    exact ⟨newer, fun snap hsnap => (scans newer snap hsnap).mp (after.repeats snap hsnap)⟩
  · rintro ⟨newer, unseen⟩
    refine ⟨?_, fun snap hsnap => (scans newer snap hsnap).mpr (unseen snap hsnap)⟩
    intro table live
    by_cases same : table = s.writers.active
    · subst same
      rw [inserted_active]
      exact newest.mpr newer
    · have other : (inserted s row i).writers.tables table = s.writers.tables table :=
        Function.update_of_ne same _ _
      rw [other]
      exact inv.chained table live

theorem Repeatable.sameRows {w : Concurrent.State} (inv : Repeatable order s)
    (same : SameRows s.writers w) : Repeatable order { s with writers := w } := by
  refine ⟨?_, ?_⟩
  · intro table live
    simp only [same.tables]
    rw [same.active, same.sealedQueue] at live
    exact inv.chained table live
  · intro snap hsnap
    rw [same.scanAllAt]
    exact inv.repeats snap hsnap

end Insert

section Run

variable {s s' : State} {a : Act}

theorem step_spec (h : Writing since s.writers) (inv : Repeatable order s)
    (eq : s.step env order a = some s') :
    Writing since s'.writers ∧ (InOrder s a ↔ Repeatable order s') := by
  have called : ∀ c : Call, Writes since s.writers.active c.start →
      (s.writers.step env (.call c)).map (fun w => { s with writers := w }) = some s' →
        Writing since s'.writers ∧ Repeatable order s' := by
    intro c start eq
    cases eq
    have same : SameRows s.writers { s.writers with calls := s.writers.calls ++ [c.start] } :=
      ⟨rfl, rfl, rfl, rfl, rfl⟩
    refine ⟨h.sameRows same le_rfl ?_, inv.sameRows same⟩
    intro pc hpc
    rcases mem_append.mp hpc with old | new
    · exact .inl old
    · exact .inr (mem_singleton.mp new ▸ start)
  cases a with
  | put key value =>
    obtain ⟨writing, repeatable⟩ := called (.put key value) trivial eq
    exact ⟨writing, iff_of_true trivial repeatable⟩
  | delete key =>
    obtain ⟨writing, repeatable⟩ := called (.delete key) trivial eq
    exact ⟨writing, iff_of_true trivial repeatable⟩
  | read =>
    cases eq
    refine ⟨h, iff_of_true trivial ⟨inv.chained, ?_⟩⟩
    intro snap hsnap
    rcases mem_append.mp hsnap with old | new
    · exact inv.repeats snap old
    · rw [mem_singleton.mp new]
      rfl
  | advance i =>
    obtain ⟨w, stepped, rfl⟩ := map_eq_some_iff.mp eq
    unfold Concurrent.State.step at stepped
    simp only [InOrder]
    cases here : s.writers.calls[i]? with
    | none =>
      simp only [here] at stepped ⊢
      cases stepped
      exact ⟨h, iff_of_true trivial inv⟩
    | some pc =>
      simp only [here] at stepped
      obtain ⟨writing, ⟨row, table, rfl, rfl⟩ | ⟨other, same⟩⟩ := h.advance here stepped
      · obtain ⟨young, rfl⟩ := h.calls _ (mem_of_getElem? here)
        exact ⟨writing, (inv.inserted_iff h young i).symm⟩
      · refine ⟨writing, iff_of_true ?_ (inv.sameRows same)⟩
        split
        · rename_i row table eq
          exact absurd (some.inj eq) (other row table)
        · trivial

theorem inOrder_of_stuck (stuck : s.step env order a = none) : InOrder s a := by
  cases a with
  | advance i =>
    simp only [State.step, Concurrent.State.step, map_eq_none_iff] at stuck
    simp only [InOrder]
    split
    · rename_i row table here
      simp only [here] at stuck
      cases stuck
    · trivial
  | _ => trivial

/-- An engine that no call works on, with chains in order and all files older than the clock. -/
structure Settled (s : Concurrent.State) : Prop where
  calls : s.calls = []
  unsealed : (s.tables s.active).isSealed = false
  chained : ∀ table, table = s.active ∨ table ∈ s.sealedQueue → (s.tables table).Chained
  stored : ∀ r ∈ s.engine.sstRows, r.ts < s.engine.nextTimestamp

theorem settled_init (env : Platform) (config : EngineConfig) :
    Settled (Concurrent.State.init env config) := by
  refine ⟨rfl, rfl, ?_, ?_⟩
  · rintro table _ ⟨k, v⟩ hv
    rw [Memtable.mem_iterAll] at hv
    simp [Concurrent.State.init, Memtable.new] at hv
  · intro r hr
    have inside : r.toRow ∈ (Engine.fresh env config).storedRows := mem_map_of_mem hr
    cases inside

/-- In a run of writers and readers all chains stay in order and all snapshots repeatable, at
every point of it, if and only if every row enters the memtable in order. -/
theorem repeatable_iff_in_order {w : Concurrent.State} (settled : Settled w) (acts : List Act) :
    Run.Throughout (State.step env order) (Repeatable order) ⟨w, []⟩ acts ↔
      Run.Along (State.step env order) InOrder ⟨w, []⟩ acts := by
  have writing : Writing w.engine.nextTimestamp w := by
    refine ⟨settled.unsealed, le_rfl, settled.stored, ?_⟩
    rw [settled.calls]
    nofun
  have repeatable : Repeatable order ⟨w, []⟩ := ⟨settled.chained, nofun⟩
  rw [Run.throughout_iff_along, and_iff_right repeatable]
  refine (@Run.along_iff _ _ _ _ _
    (fun s => Writing w.engine.nextTimestamp s.writers ∧ Repeatable order s) ?_ ?_ acts _
    ⟨writing, repeatable⟩).symm
  · rintro s a ⟨h, inv⟩
    constructor
    · intro ordered s' eq
      exact (step_spec h inv eq).2.mp ordered
    · intro after
      cases eq : s.step env order a with
      | none => exact inOrder_of_stuck eq
      | some s' => exact (step_spec h inv eq).2.mpr (after s' eq)
  · rintro s a s' ⟨h, inv⟩ ordered eq
    obtain ⟨writing', same⟩ := step_spec h inv eq
    exact ⟨writing', same.mp ordered⟩

instance (s : State) (a : Act) : Decidable (InOrder s a) := by
  unfold InOrder
  repeat' split
  all_goals infer_instance

/-- Two writers of one key whose rows enter the memtable in order, with a snapshot behind
each of them, and a delete. -/
def orderly : List Act :=
  [.put [97] [49], .put [97] [50], .advance 0, .advance 1, .advance 1, .advance 0, .advance 0,
    .advance 0, .advance 0, .advance 1, .advance 1, .read, .advance 1, .delete [97], .advance 2,
    .advance 2, .advance 2, .advance 2, .advance 2, .read]

theorem repeatable_in_orderly_run : Run.Throughout (State.step .plain .byId) (Repeatable .byId)
      ⟨Concurrent.State.init .plain .default, []⟩ orderly :=
  (repeatable_iff_in_order (settled_init .plain .default) orderly).mpr (by decide +kernel)

/-- A snapshot taken between the draw of a timestamp and the insert of its row. -/
def slowWriter : List Act :=
  [.put [97] [49], .advance 0, .advance 0, .read, .advance 0, .advance 0]

/-- The writer with the older timestamp inserts last. -/
def overtaken : List Act :=
  [.put [97] [49], .put [97] [50], .advance 0, .advance 1, .advance 1, .advance 1, .advance 1,
    .advance 0, .advance 0, .advance 0]

/-- A writer that enters its row late changes what an open snapshot reads. -/
theorem slow_writers_break_snapshots_and_chains :
    ¬ Run.Throughout (State.step .plain .byId) (Repeatable .byId)
        ⟨Concurrent.State.init .plain .default, []⟩ slowWriter ∧
      ¬ Run.Throughout (State.step .plain .byId) (Repeatable .byId)
        ⟨Concurrent.State.init .plain .default, []⟩ overtaken := by
  constructor
  · intro all
    have repeats := (all slowWriter [] _ (append_nil _) rfl).repeats (1, []) (by decide +kernel)
    exact absurd repeats (by decide +kernel)
  · intro all
    have chained := (all overtaken [] _ (append_nil _) rfl).chained _ (.inl rfl)
    exact absurd chained (by decide +kernel)

end Run

end RepeatableReads

end GalaxDb
