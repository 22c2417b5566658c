import GalaxDb.Storage.Snapshot

/-!
# History across flushes

A flush moves the newest version of every key of the memtable into a file. If no key has
more than that one version and none is deleted, the rows of the engine stay the same and
so does every snapshot; a compaction keeps the snapshots that are pinned.
-/

namespace GalaxDb

open Row Compaction List

namespace Engine

variable {env : Platform} {e e' : Engine} {log : List (Bytes × Option Bytes)}

/-- Every key of the memtable has a single version there, and it is a put. -/
def SinglePuts (e : Engine) : Prop :=
  ∀ x ∈ e.memtableMgr.active.iterAll, x.2.prev = [] ∧ x.2.value ≠ none

instance : DecidablePred SinglePuts := fun e =>
  inferInstanceAs (Decidable (∀ x ∈ e.memtableMgr.active.iterAll, x.2.prev = [] ∧ x.2.value ≠ none))

/-- No key of the memtable is deleted there. -/
def LivePuts (e : Engine) : Prop := ∀ x ∈ e.memtableMgr.active.iterAll, x.2.value ≠ none

instance : DecidablePred LivePuts := fun e =>
  inferInstanceAs (Decidable (∀ x ∈ e.memtableMgr.active.iterAll, x.2.value ≠ none))

theorem SinglePuts.live (single : e.SinglePuts) : e.LivePuts := fun x hx => (single x hx).2

/-- Version chains descend, all of a key's versions in the memtable are newer than its
rows in files, and the files hold no tombstone. -/
structure Historic (e : Engine) (log : List (Bytes × Option Bytes)) : Prop where
  holds : e.Holds log
  chained : e.memtableMgr.active.Chained
  newer : ∀ (k : Bytes) (v : VersionedValue), e.memtableMgr.active.map[k]? = some v →
    ∀ w ∈ v.versions, w.timestamp < e.nextTimestamp ∧
      ∀ r ∈ e.storedRows, r.key = k → r.ts < w.timestamp
  live : ∀ r ∈ e.storedRows, r.val ≠ none

theorem historic_fresh (env : Platform) (config : EngineConfig) :
    (fresh env config).Historic [] := by
  have noEntry : ∀ k : Bytes, (fresh env config).memtableMgr.active.map[k]? = none :=
    fun k => by simp [fresh, MemtableManager.new, Memtable.new]
  have rows : (fresh env config).storedRows = [] := storedRows_eq_nil rfl
  refine ⟨holds_fresh env config, ?_, by simp [noEntry], by simp [rows]⟩
  rintro ⟨k, v⟩ hv
  cases hv

theorem versions_push (m : Memtable) (key : Bytes) (ts : Timestamp) (value : Option Bytes) :
    (m.push key ts value).versions =
      ⟨ts, value⟩ :: ((m.map[key]?).map VersionedValue.versions).getD [] := by
  unfold Memtable.push
  split <;> simp_all [VersionedValue.versions]

theorem Historic.pushed (h : e.Historic log) {key : Bytes} {value : Option Bytes}
    (p : Pushed e e' key e.nextTimestamp value) (holds : e'.Holds (log ++ [(key, value)])) :
    e'.Historic (log ++ [(key, value)]) := by
  have contains : e.Contains _ := h.holds
  have buffered := p.buffered contains.unsealed
  have rows : e'.storedRows = e.storedRows := storedRows_congr p.registry p.files
  have old : ∀ w ∈ ((e.memtableMgr.active.map[key]?).map VersionedValue.versions).getD [],
      ∃ v, e.memtableMgr.active.map[key]? = some v ∧ w ∈ v.versions := by
    intro w hw
    cases found : e.memtableMgr.active.map[key]? with
    | none => simp [found] at hw
    | some v => exact ⟨v, rfl, by simpa [found] using hw⟩
  refine ⟨holds, ?_, ?_, rows ▸ h.live⟩
  · rintro ⟨k, v⟩ hv
    rw [Memtable.mem_iterAll, buffered] at hv
    split at hv
    · cases hv
      rw [VersionedValue.Chained, versions_push, pairwise_cons]
      refine ⟨fun w hw => ?_, ?_⟩
      · obtain ⟨v, hv, inside⟩ := old w hw
        exact (h.newer key v hv w inside).1
      · cases found : e.memtableMgr.active.map[key]? with
        | none => simp
        | some v => exact h.chained (key, v) (Memtable.mem_iterAll.mpr found)
    · exact h.chained (k, v) (Memtable.mem_iterAll.mpr hv)
  · intro k v hv w hw
    rw [buffered] at hv
    rw [rows]
    split at hv
    · rename_i same
      subst same
      cases hv
      rw [versions_push] at hw
      rcases mem_cons.mp hw with rfl | hw
      · exact ⟨p.drawn, fun r hr _ => contains.stored_lt r hr⟩
      · obtain ⟨v, hv, inside⟩ := old w hw
        obtain ⟨lt, newer⟩ := h.newer key v hv w inside
        exact ⟨lt.trans_le p.timestamp, newer⟩
    · obtain ⟨lt, newer⟩ := h.newer k v hv w hw
      exact ⟨lt.trans_le p.timestamp, newer⟩

theorem Historic.flushed (h : e.Historic log) (puts : e.LivePuts) (f : Flushed e e') :
    e'.Historic log := by
  have contains : e.Contains _ := h.holds
  have empty : ∀ k : Bytes, e'.memtableMgr.active.map[k]? = none := by
    rw [f.active]
    simp [Memtable.new]
  refine ⟨contains.flushed f, ?_, by simp [empty], ?_⟩
  · rintro ⟨k, v⟩ hv
    rw [Memtable.mem_iterAll, empty] at hv
    cases hv
  · intro x hx
    rcases (contains.mem_flushed f x).mp hx with old | ⟨v, hv, eq⟩
    · exact h.live x old
    · rw [eq]
      exact puts (x.key, v) (Memtable.mem_iterAll.mpr hv)

theorem Historic.compacted (h : e.Historic log) {order : IterOrder} (c : Compacted e e' order) :
    e'.Historic log := by
  have contains : e.Contains _ := h.holds
  have sub := fun x => compacted_subset (x := x) c
  refine ⟨contains.compacted c, ?_, ?_, fun x hx => h.live x (sub x hx)⟩
  · rw [c.same.memtableMgr]
    exact h.chained
  · rw [c.same.memtableMgr, c.same.nextTimestamp]
    intro k v hv w hw
    obtain ⟨lt, newer⟩ := h.newer k v hv w hw
    exact ⟨lt, fun r hr => newer r (sub r hr)⟩

theorem Historic.store (h : e.Historic log) (s : SameStore e e') : e'.Historic log := by
  refine ⟨(preserved_holds .plain fun _ _ => True).store h.holds s, ?_, ?_, ?_⟩
  · rw [s.memtableMgr]
    exact h.chained
  · rw [s.memtableMgr, s.timestamp, storedRows_congr s.registry s.files]
    exact h.newer
  · rw [storedRows_congr s.registry s.files]
    exact h.live

theorem Historic.distinct (h : e.Historic log) : Distinct e.allRows := by
  have contains : e.Contains _ := h.holds
  have newer : ∀ x ∈ e.storedRows, ∀ y ∈ e.memtableMgr.active.rows, x.key = y.key →
      x.ts < y.ts := by
    intro x hx y hy key
    obtain ⟨v, hv, inside⟩ := Memtable.mem_rows.mp hy
    exact (h.newer y.key v hv _ inside).2 x hx key
  intro x hx y hy key ts
  rcases mem_append.mp hx with hx | hx <;> rcases mem_append.mp hy with hy | hy
  · exact contains.distinct x hx y hy key ts
  · exact absurd ts (newer x hx y hy key).ne
  · exact absurd ts.symm (newer y hy x hx key.symm).ne
  · obtain ⟨v, hv, inside⟩ := Memtable.mem_rows.mp hx
    obtain ⟨v', hv', inside'⟩ := Memtable.mem_rows.mp hy
    rw [← key, hv] at hv'
    cases hv'
    have chained := h.chained (x.key, v) (Memtable.mem_iterAll.mpr hv)
    have same : (⟨x.ts, x.val⟩ : Version) = ⟨y.ts, y.val⟩ :=
      chained.eq_of_timestamp inside inside' ts
    cases x
    simp_all

/-- Tombstones are in the memtable only, which is read last, so a snapshot scan shows the
newest visible row of every key in any order of the files. -/
theorem Historic.mem_scanAllAt (h : e.Historic log) (order : IterOrder) (t : Timestamp)
    {k v : Bytes} {ts : Timestamp} :
    (k, v, ts) ∈ e.scanAllAt order t ↔ Newest (visible t e.allRows) k ⟨k, ts, some v⟩ := by
  have distinct : Distinct (e.visitedRows order t) := h.distinct.sublist fun x hx =>
    (mem_visible.mp ((visitedRows_spec h.chained order t).1 x hx)).1
  rw [scanAllAt_eq, Std.ExtTreeMap.mem_toList_iff_getElem?_eq_some,
    ← newest_visitedRows h.distinct h.chained order t]
  refine (foldl_correct_iff distinct).mpr ?_ k v ts
  intro k ts newest before r after split key live
  have inside := newest.1
  have last : (⟨k, ts, none⟩ : Row Bytes Bytes) ∈ e.memtableMgr.active.iterAll.filterMap fun x =>
      (x.2.getAtWithTs t).map fun p => ⟨x.1, p.2, p.1⟩ := by
    rw [visitedRows, mem_append] at inside
    refine inside.resolve_left fun stored => ?_
    rw [mem_visible] at stored
    obtain ⟨row, hrow, eq⟩ := mem_map.mp stored.1
    exact h.live _ (mem_map.mpr ⟨row, (mem_scanRows order).mp hrow, eq⟩) rfl
  have older : r.ts ≤ ts := by
    refine newest.2.2 r ?_ key
    rw [split]
    simp
  have stored : r ∉ e.memtableMgr.active.iterAll.filterMap fun x =>
      (x.2.getAtWithTs t).map fun p => (⟨x.1, p.2, p.1⟩ : Row Bytes Bytes) := by
    intro again
    obtain ⟨⟨k1, v1⟩, hv1, eq1⟩ := mem_filterMap.mp last
    obtain ⟨⟨k2, v2⟩, hv2, eq2⟩ := mem_filterMap.mp again
    obtain ⟨p1, found1, row1⟩ := Option.map_eq_some_iff.mp eq1
    obtain ⟨p2, found2, rfl⟩ := Option.map_eq_some_iff.mp eq2
    simp only [Row.mk.injEq] at row1
    obtain ⟨rfl, _, dead⟩ := row1
    obtain rfl : k2 = k1 := key
    rw [Memtable.mem_iterAll] at hv1 hv2
    cases hv1.symm.trans hv2
    cases found1.symm.trans found2
    exact live dead
  rcases append_eq_append_iff.mp split with ⟨mid, _, tail⟩ | ⟨mid, _, tail⟩
  · exact absurd (tail ▸ by simp) stored
  · cases mid with
    | nil => exact absurd (by rw [← nil_append (List.filterMap _ _), ← tail]; simp) stored
    | cons a rest =>
      obtain ⟨_, rfl⟩ := cons.inj tail
      exact ⟨_, mem_append_right _ last, rfl, rfl, older⟩

section Stable

theorem scanAllAt_ordered (e : Engine) (order : IterOrder) (t : Timestamp) :
    (e.scanAllAt order t).Pairwise (fun a b => compare a.1 b.1 = .lt) :=
  Std.ExtTreeMap.ordered_keys_toList

variable {t : Timestamp}

/-- Two engines with the same newest visible rows answer a snapshot scan alike. -/
theorem Historic.scanAllAt_eq {log' : List (Bytes × Option Bytes)} (h : e.Historic log)
    (h' : e'.Historic log')
    (same : ∀ k n, Newest (visible t e.allRows) k n ↔ Newest (visible t e'.allRows) k n)
    (order order' : IterOrder) : e'.scanAllAt order' t = e.scanAllAt order t := by
  refine Bytes.eq_of_ordered_of_mem_iff Prod.fst (e'.scanAllAt_ordered order' t)
    (e.scanAllAt_ordered order t) ?_
  rintro ⟨k, v, ts⟩
  rw [h.mem_scanAllAt, h'.mem_scanAllAt, same]

variable {value : Option Bytes} {key : Bytes}

theorem mem_allRows_pushed (unsealed : e.memtableMgr.active.isSealed = false)
    (p : Pushed e e' key e.nextTimestamp value) (x : Row Bytes Bytes) :
    x ∈ e'.allRows ↔ x ∈ e.allRows ∨ x = ⟨key, e.nextTimestamp, value⟩ := by
  rw [allRows, allRows, storedRows_congr p.registry p.files, mem_append, mem_append,
    or_assoc]
  rw [Memtable.mem_rows, Memtable.mem_rows, p.buffered unsealed]
  obtain ⟨k, ts, val⟩ := x
  by_cases same : key = k
  · subst same
    cases found : e.memtableMgr.active.map[key]? <;> simp [versions_push, found, or_comm]
  · simp [same, Ne.symm same]

/-- A write is not visible to a snapshot taken before it. -/
theorem newest_visible_pushed (unsealed : e.memtableMgr.active.isSealed = false)
    (p : Pushed e e' key e.nextTimestamp value) (ht : t < e.nextTimestamp) (k : Bytes)
    (n : Row Bytes Bytes) :
    Newest (visible t e.allRows) k n ↔ Newest (visible t e'.allRows) k n := by
  refine newest_congr fun x => ?_
  rw [mem_visible, mem_visible, mem_allRows_pushed unsealed p]
  constructor
  · exact fun h => ⟨Or.inl h.1, h.2⟩
  · rintro ⟨old | rfl, le⟩
    · exact ⟨old, le⟩
    · exact absurd ht le.not_gt

/-- A flush of single puts moves rows from the memtable to the files. -/
theorem Historic.mem_allRows_flushed (h : e.Historic log) (single : e.SinglePuts)
    (f : Flushed e e') (x : Row Bytes Bytes) : x ∈ e.allRows ↔ x ∈ e'.allRows := by
  have contains : e.Contains _ := h.holds
  have empty : e'.memtableMgr.active.rows = [] := by
    rw [f.active]
    rfl
  rw [allRows, allRows, empty, append_nil, mem_append, contains.mem_flushed f,
    Memtable.mem_rows]
  refine or_congr Iff.rfl (exists_congr fun v => and_congr_right fun hv => ?_)
  have alone : v.prev = [] := (single (x.key, v) (Memtable.mem_iterAll.mpr hv)).1
  obtain ⟨k, ts, val⟩ := x
  simp [VersionedValue.versions, alone]

/-- A snapshot reads the same from a part of the rows if the part has all it reads. -/
theorem newest_visible_of_kept {rows rows' : List (Row Bytes Bytes)} {k : Bytes}
    (distinct : Distinct rows) (sub : ∀ x ∈ rows', x ∈ rows)
    (kept : ∀ n, Newest (visible t rows) k n → n ∈ rows') (n : Row Bytes Bytes) :
    Newest (visible t rows) k n ↔ Newest (visible t rows') k n := by
  constructor
  · intro hn
    refine ⟨mem_visible.mpr ⟨kept n hn, (mem_visible.mp hn.1).2⟩, hn.2.1, fun x hx => ?_⟩
    exact hn.2.2 x (mem_visible.mpr ⟨sub x (mem_visible.mp hx).1, (mem_visible.mp hx).2⟩)
  · intro hn
    have old : n ∈ visible t rows :=
      mem_visible.mpr ⟨sub n (mem_visible.mp hn.1).1, (mem_visible.mp hn.1).2⟩
    obtain ⟨n0, hn0⟩ := exists_newest ⟨n, old, hn.2.1⟩
    have still : n0 ∈ visible t rows' :=
      mem_visible.mpr ⟨kept n0 hn0, (mem_visible.mp hn0.1).2⟩
    have ts := (hn0.2.2 n old hn.2.1).antisymm (hn.2.2 n0 still hn0.2.1)
    have same := distinct n (mem_visible.mp old).1 n0 (mem_visible.mp hn0.1).1
      (hn.2.1.trans hn0.2.1.symm) ts
    exact same ▸ hn0

/-- No key has rows on both sides of the snapshot. -/
def Undivided (t : Timestamp) (rows : List (Row Bytes Bytes)) : Prop :=
  ∀ x ∈ rows, ∀ y ∈ rows, x.key = y.key → x.ts ≤ t → y.ts ≤ t

instance (t : Timestamp) (rows : List (Row Bytes Bytes)) : Decidable (Undivided t rows) :=
  inferInstanceAs (Decidable (∀ x ∈ rows, ∀ y ∈ rows, x.key = y.key → x.ts ≤ t → y.ts ≤ t))

/-- A compaction keeps what a pinned snapshot reads, or one that no row has overtaken. -/
theorem Historic.newest_visible_compacted (h : e.Historic log) {order : IterOrder}
    (c : Compacted e e' order) (readable : t ∈ e.pinSource ∨ Undivided t e.storedRows) (k : Bytes)
    (n : Row Bytes Bytes) :
    Newest (visible t e.allRows) k n ↔ Newest (visible t e'.allRows) k n := by
  have contains : e.Contains _ := h.holds
  have sub : ∀ x ∈ e'.allRows, x ∈ e.allRows := by
    intro x hx
    rw [allRows, c.same.memtableMgr] at hx
    rcases mem_append.mp hx with hx | hx
    · exact mem_append_left _ (compacted_subset c hx)
    · exact mem_append_right _ hx
  apply newest_visible_of_kept h.distinct sub
  intro n hn
  have all := (mem_visible.mp hn.1).1
  rw [allRows, c.same.memtableMgr]
  refine mem_append.mpr ((mem_append.mp all).imp_left fun stored => ?_)
  obtain ⟨latest, hl⟩ := exists_newest ⟨n, stored, rfl⟩
  have alive := h.live latest hl.1
  rcases readable with pinned | undivided
  · rw [mem_compacted c, mem_collect_toRow]
    have mem : ∀ v : Version, v ∈ versionsOf (e.inputRows order) n.key ↔
        (⟨n.key, v.timestamp, v.value⟩ : Row Bytes Bytes) ∈ e.storedRows := fun v => by
      rw [mem_versionsOf, mem_inputRows_toRow]
    have latestMem :
        (⟨latest.ts, latest.val⟩ : Version) ∈ versionsOf (e.inputRows order) n.key := by
      rw [mem, ← hl.2.1]
      exact hl.1
    have unique := oneEach_versionsOf (distinct_inputRows contains.distinct order) n.key
    have remains := gcKey_ne_nil e.pinSource unique latestMem
      (fun v hv => hl.2.2 _ ((mem v).mp hv) rfl) alive
    refine (pinned_mem_gcKey unique ((mem _).mpr stored) pinned (mem_visible.mp hn.1).2
      ?_).resolve_right (fun h => remains h.1)
    intro w hw below
    refine hn.2.2 ⟨n.key, w.timestamp, w.value⟩ (mem_visible.mpr ⟨?_, below⟩) hn.2.1
    exact mem_append_left _ ((mem w).mp hw)
  · -- no stored row of the key is hidden from it, so it reads the newest one
    have newest : Newest e.storedRows k n := by
      refine ⟨stored, hn.2.1, fun x hx key => ?_⟩
      apply hn.2.2 x (mem_visible.mpr ⟨mem_append_left _ hx, ?_⟩) key
      exact undivided n stored x hx (hn.2.1.trans key.symm) (mem_visible.mp hn.1).2
    rcases newest_compacted contains.distinct c newest with stays | ⟨dead, _⟩
    · exact stays.1
    · exact absurd dead (h.live n stored)

theorem Historic.undivided_of_latest (h : e.Historic log) (present : e.latestCommitTs ≤ t) :
    Undivided t e.storedRows := by
  have contains : e.Contains _ := h.holds
  intro x _ y hy _ _
  exact (Nat.le_sub_one_of_lt (contains.stored_lt y hy)).trans present

/-- No key of the memtable has its newest version after the snapshot and an older one
before it. -/
def Unstraddled (t : Timestamp) (e : Engine) : Prop :=
  ∀ x ∈ e.memtableMgr.active.iterAll, x.2.timestamp ≤ t ∨ ∀ w ∈ x.2.prev, t < w.timestamp

instance (t : Timestamp) : DecidablePred (Unstraddled t) := fun e =>
  inferInstanceAs (Decidable (∀ x ∈ e.memtableMgr.active.iterAll,
    x.2.timestamp ≤ t ∨ ∀ w ∈ x.2.prev, t < w.timestamp))

/-- A flush keeps the newest version of each key, so what such a snapshot reads stays. -/
theorem Historic.newest_visible_flushed (h : e.Historic log) (unstraddled : e.Unstraddled t)
    (f : Flushed e e') (k : Bytes) (n : Row Bytes Bytes) :
    Newest (visible t e.allRows) k n ↔ Newest (visible t e'.allRows) k n := by
  have contains : e.Contains _ := h.holds
  have empty : e'.memtableMgr.active.rows = [] := by
    rw [f.active]
    rfl
  have after : ∀ x, x ∈ e'.allRows ↔ x ∈ e.storedRows ∨
      ∃ v, e.memtableMgr.active.map[x.key]? = some v ∧ x = ⟨x.key, v.timestamp, v.value⟩ := by
    intro x
    rw [allRows, empty, append_nil, contains.mem_flushed f]
  apply newest_visible_of_kept h.distinct
  · intro x hx
    rcases (after x).mp hx with stored | ⟨v, hv, eq⟩
    · exact mem_append_left _ stored
    · refine mem_append_right _ (Memtable.mem_rows.mpr ⟨v, hv, ?_⟩)
      rw [eq]
      exact mem_cons_self
  · intro n hn
    obtain ⟨all, past⟩ := mem_visible.mp hn.1
    rw [after]
    rcases mem_append.mp all with stored | buffered
    · exact Or.inl stored
    · obtain ⟨v, hv, inside⟩ := Memtable.mem_rows.mp buffered
      refine Or.inr ⟨v, hv, ?_⟩
      rcases mem_cons.mp inside with head | older
      · rw [Version.mk.injEq] at head
        rw [← head.1, ← head.2]
      · -- an older version is read only if the newest one is after the snapshot
        rcases unstraddled (n.key, v) (Memtable.mem_iterAll.mpr hv) with visible_ | later
        · have newest : (⟨n.key, v.timestamp, v.value⟩ : Row Bytes Bytes) ∈ visible t e.allRows :=
            mem_visible.mpr ⟨mem_append_right _
              (Memtable.mem_rows.mpr ⟨v, hv, mem_cons_self⟩), visible_⟩
          have above := (pairwise_cons.mp (h.chained (n.key, v)
            (Memtable.mem_iterAll.mpr hv))).1 _ older
          exact absurd (hn.2.2 _ newest hn.2.1) above.not_ge
        · exact absurd past (later _ older).not_ge

end Stable

section Runs

theorem preserved_historic (env : Platform) : Preserved env (AtFlush LivePuts) Historic where
  contains h := h.holds
  store h s := h.store s
  put h nonempty p :=
    h.pushed p.toPushed ((preserved_holds env (AtFlush LivePuts)).put h.holds nonempty p)
  delete h d := h.pushed d.toPushed ((preserved_holds env (AtFlush LivePuts)).delete h.holds d)
  skip h missing := ⟨(preserved_holds env (AtFlush LivePuts)).skip h.holds missing, h.chained,
    h.newer, h.live⟩
  flush h puts f := h.flushed puts f
  flushCompact h puts _ f c := (h.flushed puts f).compacted c
  compact h _ c := h.compacted c

/-- The clock has started, so that the latest timestamp is before the next one. -/
theorem preserved_started (env : Platform) : Preserved env (AtFlush LivePuts)
    fun e log => e.Historic log ∧ 0 < e.nextTimestamp where
  contains h := h.1.holds
  store h s := ⟨h.1.store s, s.timestamp ▸ h.2⟩
  put h nonempty p :=
    ⟨(preserved_historic env).put h.1 nonempty p, h.2.trans_le p.timestamp⟩
  delete h d := ⟨(preserved_historic env).delete h.1 d, h.2.trans_le d.timestamp⟩
  skip h missing := ⟨(preserved_historic env).skip h.1 missing, h.2⟩
  flush h puts f := ⟨h.1.flushed puts f, f.settings.nextTimestamp ▸ h.2⟩
  flushCompact h puts _ f c :=
    ⟨(h.1.flushed puts f).compacted c, c.same.nextTimestamp ▸ f.settings.nextTimestamp ▸ h.2⟩
  compact h _ c := ⟨h.1.compacted c, c.same.nextTimestamp ▸ h.2⟩

/-- No compaction in this step can collect what a snapshot at `t` reads. -/
def StaysReadable (env : Platform) (t : Timestamp) (e : Engine) : Op → Prop
  | .flush _ => CompactsInline env e → t ∈ e.pinSource
  | .compact _ => t ∈ e.pinSource
  | .forceCompact _ => t ∈ e.pinSource
  | _ => True

/-- This step drops no row that a snapshot at `t` reads: a flush finds no key with versions
on both sides of the snapshot, and a compaction finds it pinned or not overtaken. -/
def KeepsSnapshot (env : Platform) (t : Timestamp) (e : Engine) : Op → Prop
  | .flush _ => e.Unstraddled t ∧ (CompactsInline env e → t ∈ e.pinSource ∨ Undivided t e.allRows)
  | .compact _ => t ∈ e.pinSource ∨ Undivided t e.storedRows
  | .forceCompact _ => t ∈ e.pinSource ∨ Undivided t e.storedRows
  | _ => True

instance (env : Platform) (t : Timestamp) (e : Engine) (op : Op) :
    Decidable (KeepsSnapshot env t e op) := by
  unfold KeepsSnapshot
  rcases op <;> infer_instance

variable {rows : Bytes → Row Bytes Bytes → Prop} {t : Timestamp}

theorem keepsSnapshot_of_staysReadable {op : Op} (single : AtFlush SinglePuts e op)
    (readable : StaysReadable env t e op) : KeepsSnapshot env t e op := by
  cases op with
  | flush order =>
    refine ⟨fun x hx => Or.inr ?_, fun inline => Or.inl (readable inline)⟩
    rw [(single x hx).1]
    simp
  | compact order => exact Or.inl readable
  | forceCompact order => exact Or.inl readable
  | _ => trivial

/-- A snapshot taken in the past reads these rows. -/
structure Frozen (t : Timestamp) (rows : Bytes → Row Bytes Bytes → Prop) (e : Engine)
    (log : List (Bytes × Option Bytes)) : Prop where
  historic : e.Historic log
  past : t < e.nextTimestamp
  reads : ∀ k n, rows k n ↔ Newest (visible t e.allRows) k n

theorem Frozen.pushed (h : Frozen t rows e log) {key : Bytes} {value : Option Bytes}
    (p : Pushed e e' key e.nextTimestamp value) (historic : e'.Historic (log ++ [(key, value)])) :
    Frozen t rows e' (log ++ [(key, value)]) := by
  refine ⟨historic, h.past.trans_le p.timestamp, fun k n => (h.reads k n).trans ?_⟩
  exact newest_visible_pushed h.historic.holds.contains.unsealed p h.past k n

theorem Frozen.flushed (h : Frozen t rows e log) (puts : e.LivePuts) (unstraddled : e.Unstraddled t)
    (f : Flushed e e') : Frozen t rows e' log :=
  ⟨h.historic.flushed puts f, f.settings.nextTimestamp ▸ h.past, fun k n =>
    (h.reads k n).trans (h.historic.newest_visible_flushed unstraddled f k n)⟩

theorem Frozen.compacted (h : Frozen t rows e log) {order : IterOrder} (c : Compacted e e' order)
    (readable : t ∈ e.pinSource ∨ Undivided t e.storedRows) : Frozen t rows e' log :=
  ⟨h.historic.compacted c, c.same.nextTimestamp ▸ h.past, fun k n =>
    (h.reads k n).trans (h.historic.newest_visible_compacted c readable k n)⟩

/-- What is in the files after a flush was in the memtable or in the files. -/
theorem Historic.undivided_flushed (h : e.Historic log) (f : Flushed e e')
    (undivided : Undivided t e.allRows) : Undivided t e'.storedRows := by
  have contains : e.Contains _ := h.holds
  have sub : ∀ x ∈ e'.storedRows, x ∈ e.allRows := by
    intro x hx
    rcases (contains.mem_flushed f x).mp hx with stored | ⟨v, hv, eq⟩
    · exact mem_append_left _ stored
    · refine mem_append_right _ (Memtable.mem_rows.mpr ⟨v, hv, ?_⟩)
      rw [eq]
      exact mem_cons_self
  exact fun x hx y hy => undivided x (sub x hx) y (sub y hy)

theorem preserved_frozen (env : Platform) (t : Timestamp) (rows : Bytes → Row Bytes Bytes → Prop) :
    Preserved env (fun e op => AtFlush LivePuts e op ∧ KeepsSnapshot env t e op)
      (Frozen t rows) where
  contains h := h.historic.holds
  store {e e' log} h s := by
    refine ⟨h.historic.store s, s.timestamp ▸ h.past, fun k n => ?_⟩
    rw [allRows, storedRows_congr s.registry s.files, s.memtableMgr]
    exact h.reads k n
  put h nonempty p := h.pushed p.toPushed ((preserved_historic env).put h.historic nonempty p)
  delete h d := h.pushed d.toPushed ((preserved_historic env).delete h.historic d)
  skip h missing := ⟨(preserved_historic env).skip h.historic missing, h.past, h.reads⟩
  flush h guard f := h.flushed guard.1 guard.2.1 f
  flushCompact h guard inline f c := by
    apply (h.flushed guard.1 guard.2.1 f).compacted c
    rcases guard.2.2 inline with pinned | undivided
    · exact Or.inl (f.settings.pinSource ▸ pinned)
    · exact Or.inr (h.historic.undivided_flushed f undivided)
  compact h guard c := by
    rcases guard with guard | guard <;> exact h.compacted c guard.2

/-- In every state of a run whose flushes find single puts in the memtable: a flush leaves
every snapshot as it was, except that a compaction it runs may collect what no pin reads;
and a snapshot of the past that stays pinned reads the same rows ever after. -/
theorem scanAllAt_of_run (env : Platform) (config : EngineConfig) (ops : List Op)
    (values : ∀ op ∈ ops, op.NonemptyValues)
    (apart : Run.Along (step env) NoClash (fresh env config) ops)
    (single : Run.Along (step env) (AtFlush SinglePuts) (fresh env config) ops) :
    ∃ e, Run.run (step env) (fresh env config) ops = some e ∧
      (∀ order, e.NoClash (.flush order) → e.SinglePuts →
        ∃ e' n, e.flushMemtable env order = some (e', n) ∧
          ∀ t, (CompactsInline env e → t ∈ e.pinSource ∨ e.latestCommitTs ≤ t) →
            ∀ before after, e'.scanAllAt after t = e.scanAllAt before t) ∧
      ∀ later t, (∀ op ∈ later, op.NonemptyValues) → Run.Along (step env) NoClash e later →
        Run.Along (step env) (AtFlush SinglePuts) e later →
        Run.Along (step env) (StaysReadable env t) e later → t < e.nextTimestamp →
          ∃ e', Run.run (step env) e later = some e' ∧
            ∀ before after, e'.scanAllAt after t = e.scanAllAt before t := by
  have live : ∀ {e : Engine} {ops : List Op}, Run.Along (step env) (AtFlush SinglePuts) e ops →
      Run.Along (step env) (AtFlush LivePuts) e ops := by
    intro e ops along
    apply along.mono
    intro e op single
    cases op with
    | flush order => exact SinglePuts.live single
    | _ => trivial
  obtain ⟨e, eq, historic⟩ := (preserved_historic env).run (historic_fresh env config)
    (along_stepOk values apart (live single))
  refine ⟨e, eq, ?_, ?_⟩
  · intro order apart single
    obtain ⟨e', n, flush, what⟩ := flushMemtable_spec env historic.holds order apart
    refine ⟨e', n, flush, fun t readable before after => ?_⟩
    rcases what with rfl | ⟨e1, flushed, what⟩
    · exact historic.scanAllAt_eq historic (fun _ _ => Iff.rfl) before after
    · have moved : ∀ k n, Newest (visible t e.allRows) k n ↔ Newest (visible t e1.allRows) k n := by
        refine fun k n => newest_congr fun x => ?_
        rw [mem_visible, mem_visible, historic.mem_allRows_flushed single flushed]
      have historic1 := historic.flushed single.live flushed
      rcases what with rfl | ⟨inline, compacted⟩
      · exact historic.scanAllAt_eq historic1 moved before after
      · have readable1 : t ∈ e1.pinSource ∨ Undivided t e1.storedRows := by
          rcases readable inline with pinned | present
          · exact Or.inl (flushed.settings.pinSource ▸ pinned)
          · apply Or.inr (historic1.undivided_of_latest _)
            rw [latestCommitTs, flushed.settings.nextTimestamp]
            exact present
        refine historic.scanAllAt_eq (historic1.compacted compacted) (fun k n => ?_) before after
        exact (moved k n).trans (historic1.newest_visible_compacted compacted readable1 k n)
  · intro later t values apart single readable past
    have frozen : Frozen t (Newest (visible t e.allRows)) e (ops.flatMap Op.writes) :=
      ⟨historic, past, fun _ _ => Iff.rfl⟩
    obtain ⟨e', eq', frozen'⟩ := (preserved_frozen env t _).run_from frozen
      (along_stepOk values apart ((live single).and ((single.and readable).mono
        fun _ _ both => keepsSnapshot_of_staysReadable both.1 both.2)))
    exact ⟨e', eq', historic.scanAllAt_eq frozen'.historic frozen'.reads⟩

/-- A row updated between two flushes. -/
theorem scanAllAt_of_run_updated_row :
    let ops : List Op := [.put [97] [49], .flush .byId, .put [97] [50]]
    ∃ e, Run.run (step .plain) (fresh .plain .default) ops = some e ∧
      ∃ e' n, e.flushMemtable .plain .byId = some (e', n) ∧
        ∀ t before after, e'.scanAllAt after t = e.scanAllAt before t := by
  intro ops
  have values : ∀ op ∈ ops, op.NonemptyValues := by simp [ops, Op.NonemptyValues, Op.writes]
  have apart : Run.Along (step .plain) NoClash (fresh .plain .default) ops :=
    along_noClash (written_fresh _ _) values (by decide)
  obtain ⟨e, eq, flushes, _⟩ :=
    scanAllAt_of_run .plain .default ops values apart (by decide +kernel)
  obtain ⟨e2, eq2, written⟩ := (preserved_written .plain).run (written_fresh .plain .default)
    (along_stepOk values apart ((Run.along_of_forall _ values).mono fun _ _ _ => trivial))
  obtain rfl : e = e2 := Option.some.inj (eq.symm.trans eq2)
  have facts : (Run.run (step .plain) (fresh .plain .default) ops).all
      (fun e => decide (e.SinglePuts ∧ ¬ CompactsInline .plain e)) = true := by decide +kernel
  rw [eq, Option.all_some, decide_eq_true_eq] at facts
  obtain ⟨e', n, flush, same⟩ := flushes .byId (written.noClash (by decide)) facts.1
  exact ⟨e, eq, e', n, flush, fun t => same t fun inline => absurd inline facts.2⟩

/-- The fourth file triggers a compaction, which collects the versions no pin reads. A flush
of a key with two versions in the memtable drops the older one even without it. -/
theorem scanAllAt_changed_by_flush : let before := fun (ops : List Op) =>
      (Run.run (step .plain) (fresh .plain .default) ops).map fun e => e.scanAllAt .byId 1
    let after := fun (ops : List Op) =>
      ((Run.run (step .plain) (fresh .plain .default) ops).bind
        fun e => e.flushMemtable .plain .byId).map fun e => e.1.scanAllAt .byId 1
    let fourth : List Op := [.put [97] [49], .flush .byId, .put [97] [50], .flush .byId,
      .put [97] [51], .flush .byId, .put [97] [52]]
    let twice : List Op := [.put [97] [49], .put [97] [50]]
    (before fourth = some [([97], [49], 1)] ∧ after fourth = some []) ∧
      before twice = some [([97], [49], 1)] ∧ after twice = some [] := by
  refine ⟨⟨?_, ?_⟩, ?_, ?_⟩ <;> decide +kernel

end Runs

end Engine

end GalaxDb
