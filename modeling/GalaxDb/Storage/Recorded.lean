import GalaxDb.Storage.History

/-!
# An engine as a record of its writes

An engine that has only put and deleted rows, under keys without a zero byte, is the list
of its rows in the order of their timestamps. Every read is a function of that list.
-/

namespace GalaxDb

open Row List

/-- Keys without a zero byte do not clash in the index. -/
theorem not_clash_of_zero_not_mem {a b : Bytes} (ha : (0 : UInt8) ∉ a) (hb : (0 : UInt8) ∉ b) :
    ¬ Clash a b := by
  rintro (h | h)
  · exact hb (h.subset (by simp))
  · exact ha (h.subset (by simp))

namespace Engine

variable {env : Platform} {e : Engine} {rows : List (Row Bytes Bytes)}

structure Recorded (e : Engine) (rows : List (Row Bytes Bytes)) : Prop where
  historic : e.Historic (WriteLog.ofRows rows)
  located : e.Located (WriteLog.ofRows rows)
  same : ∀ x, x ∈ e.allRows ↔ x ∈ rows
  ascending : rows.Pairwise fun a b => a.ts < b.ts
  past : ∀ x ∈ rows, x.ts < e.nextTimestamp
  started : 0 < e.nextTimestamp
  keys : ∀ x ∈ rows, (0 : UInt8) ∉ x.key

theorem recorded_fresh (env : Platform) (config : EngineConfig) :
    (fresh env config).Recorded [] where
  historic := historic_fresh env config
  located := located_fresh env config
  same x := by
    have stored : (fresh env config).storedRows = [] := storedRows_eq_nil rfl
    have noEntry : ∀ k : Bytes, (fresh env config).memtableMgr.active.map[k]? = none :=
      fun k => by simp [fresh, MemtableManager.new, Memtable.new]
    simp [allRows, stored, Memtable.mem_rows, noEntry]
  ascending := List.Pairwise.nil
  past := by simp
  started := one_pos
  keys := by simp

variable {k key : Bytes}

theorem exists_row_of_contents (live : WriteLog.contents (WriteLog.ofRows rows) k ≠ none) :
    ∃ x ∈ rows, x.key = k := by
  rw [WriteLog.contents_eq] at live
  have last : WriteLog.lastWrite (WriteLog.ofRows rows) k ≠ none := by
    intro never
    simp [never] at live
  obtain ⟨w, hw, rfl⟩ := mem_map.mp (WriteLog.lastWrite_ne_none_iff.mp last)
  obtain ⟨x, hx, rfl⟩ := mem_map.mp hw
  exact ⟨x, hx, rfl⟩

/-- Only keys that were written are in the index. -/
theorem Recorded.mem_of_lookup (h : e.Recorded rows) (found : e.art.lookup k ≠ none) :
    ∃ x ∈ rows, x.key = k :=
  exists_row_of_contents fun dead => found ((h.located.live k).mpr dead)

theorem Recorded.pushed {e' : Engine} (h : e.Recorded rows) {value : Option Bytes}
    (p : Pushed e e' key e.nextTimestamp value) (clean : (0 : UInt8) ∉ key)
    (historic : e'.Historic (WriteLog.ofRows rows ++ [(key, value)]))
    (located : e'.Located (WriteLog.ofRows rows ++ [(key, value)])) :
    e'.Recorded (rows ++ [⟨key, e.nextTimestamp, value⟩]) := by
  have log : WriteLog.ofRows (rows ++ [⟨key, e.nextTimestamp, value⟩]) =
      WriteLog.ofRows rows ++ [(key, value)] := by simp [WriteLog.ofRows]
  refine ⟨log ▸ historic, log ▸ located, ?_, ?_, ?_, ?_, ?_⟩
  · intro x
    rw [mem_allRows_pushed h.historic.holds.contains.unsealed p, h.same]
    simp
  · apply pairwise_append.mpr ⟨h.ascending, pairwise_singleton _ _, ?_⟩
    intro x hx y hy
    rw [mem_singleton.mp hy]
    exact h.past x hx
  · intro x hx
    rcases mem_append.mp hx with hx | hx
    · exact (h.past x hx).trans_le p.timestamp
    · rw [mem_singleton.mp hx]
      exact p.drawn
  · exact h.started.trans_le p.timestamp
  · intro x hx
    rcases mem_append.mp hx with hx | hx
    · exact h.keys x hx
    · rw [mem_singleton.mp hx]
      exact clean

theorem Recorded.put (env : Platform) (h : e.Recorded rows) {value : Bytes}
    (clean : (0 : UInt8) ∉ key) (nonempty : value ≠ []) :
    ∃ e', e.putSync env key value = some (e', e.nextTimestamp) ∧
      e.nextTimestamp < e'.nextTimestamp ∧
      e'.Recorded (rows ++ [⟨key, e.nextTimestamp, some value⟩]) := by
  have apart : ∀ k, e.art.lookup k ≠ none → ¬ Clash key k := by
    intro k found
    obtain ⟨x, hx, rfl⟩ := h.mem_of_lookup found
    exact not_clash_of_zero_not_mem clean (h.keys x hx)
  obtain ⟨e', eq, put, -⟩ := putSync_spec env h.located.holds.contains.wf value apart
  exact ⟨e', eq, put.drawn, h.pushed put.toPushed clean
    ((preserved_historic env).put h.historic nonempty put)
    ((preserved_located env).put h.located nonempty put)⟩

/-- A delete of a key that is not there does nothing. -/
theorem Recorded.delete (env : Platform) (h : e.Recorded rows) (key : Bytes) :
    (WriteLog.contents (WriteLog.ofRows rows) key = none ∧ e.deleteSync env key = (e, false)) ∨
    (WriteLog.contents (WriteLog.ofRows rows) key ≠ none ∧ ∃ e',
      e.deleteSync env key = (e', true) ∧ e.nextTimestamp < e'.nextTimestamp ∧
      e'.Recorded (rows ++ [⟨key, e.nextTimestamp, none⟩])) := by
  rcases deleteSync_spec env h.located.holds.contains.wf key with
    ⟨missing, eq⟩ | ⟨found, e', eq, deleted, -⟩
  · exact Or.inl ⟨(h.located.live key).mp missing, eq⟩
  · refine Or.inr ⟨fun dead => found ((h.located.live key).mpr dead), e', eq, deleted.drawn, ?_⟩
    obtain ⟨x, hx, rfl⟩ := h.mem_of_lookup found
    exact h.pushed deleted.toPushed (h.keys x hx)
      ((preserved_historic env).delete h.historic deleted)
      ((preserved_located env).delete h.located deleted)

section Read

/-- The contents that a snapshot at `t` shows. -/
def contentsAt (rows : List (Row Bytes Bytes)) (t : Timestamp) : Bytes → Option Bytes :=
  WriteLog.contents (WriteLog.ofRows (visible t rows))

theorem ascending_of_pairwise (h : rows.Pairwise fun a b => a.ts < b.ts) :
    WriteLog.Ascending rows := by
  apply List.Pairwise.imp _ h
  intro a b lt _
  exact lt

variable {t : Timestamp} {k : Bytes}

variable {x : Row Bytes Bytes} {v : Bytes}

theorem Recorded.mem_scanAllAt (h : e.Recorded rows) (order : IterOrder) (t : Timestamp) :
    (∃ ts, (k, v, ts) ∈ e.scanAllAt order t) ↔ contentsAt rows t k = some v := by
  have ascending : WriteLog.Ascending (visible t rows) :=
    ascending_of_pairwise (h.ascending.filter _)
  rw [contentsAt, WriteLog.contents_ofRows_iff ascending]
  refine exists_congr fun ts => ?_
  rw [h.historic.mem_scanAllAt]
  refine newest_congr fun x => ?_
  rw [mem_visible, mem_visible, h.same]

theorem Recorded.mem_scanAllWithPrefix (h : e.Recorded rows) (order : IterOrder) (pfx : Bytes) :
    (k, v) ∈ e.scanAllWithPrefix order (some pfx) ↔
      pfx.isPrefixOf k = true ∧ WriteLog.contents (WriteLog.ofRows rows) k = some v := by
  have contains := h.historic.holds.contains
  rw [scanAllWithPrefix_eq_filter contains.readable order order pfx, mem_filter,
    mem_scanAll contains.readable, contains.current_iff, and_comm]

theorem Recorded.get_eq (h : e.Recorded rows) (k : Bytes) :
    e.get k = WriteLog.contents (WriteLog.ofRows rows) k := h.located.get_eq k

theorem contentsAt_of_le (past : ∀ x ∈ rows, x.ts ≤ t) :
    contentsAt rows t = WriteLog.contents (WriteLog.ofRows rows) := by
  have all : visible t rows = rows := by
    rw [visible, filter_eq_self]
    exact fun x hx => decide_eq_true (past x hx)
  rw [contentsAt, all]

/-- Rows that are drawn later are not visible. -/
theorem contentsAt_append {new : List (Row Bytes Bytes)} (later : ∀ x ∈ new, t < x.ts) :
    contentsAt (rows ++ new) t = contentsAt rows t := by
  have hidden : visible t (rows ++ new) = visible t rows := by
    rw [visible, filter_append, visible, append_right_eq_self, filter_eq_nil_iff]
    intro x hx
    simpa using later x hx
  rw [contentsAt, hidden, contentsAt]

theorem eq_of_ts (ascending : rows.Pairwise fun a b => a.ts < b.ts) {y : Row Bytes Bytes}
    (hx : x ∈ rows) (hy : y ∈ rows) (same : x.ts = y.ts) : x = y := by
  have distinct : (rows.map Row.ts).Nodup := pairwise_map.mpr (ascending.imp Nat.ne_of_lt)
  exact inj_on_of_nodup_map distinct hx hy same

/-- Under a deleted key the newest row that is visible is a delete. -/
theorem deleted_of_contentsAt (ascending : rows.Pairwise fun a b => a.ts < b.ts) (there : x ∈ rows)
    (shown : x.ts ≤ t) (row : x.val ≠ none) (gone : contentsAt rows t x.key = none) :
    ∃ y ∈ rows, y.key = x.key ∧ y.val = none ∧ x.ts < y.ts ∧ y.ts ≤ t := by
  have sorted : WriteLog.Ascending (visible t rows) :=
    ascending_of_pairwise (ascending.filter _)
  obtain ⟨y, newest⟩ := exists_newest ⟨x, mem_visible.mpr ⟨there, shown⟩, rfl⟩
  obtain ⟨inside, key, latest⟩ := newest
  obtain ⟨known, past⟩ := mem_visible.mp inside
  have deleted : y.val = none := by
    cases value : y.val with
    | none => rfl
    | some v =>
      have live : contentsAt rows t x.key = some v := by
        apply (WriteLog.contents_ofRows_iff sorted x.key v).mpr
        refine ⟨y.ts, ?_⟩
        rw [← value, ← key]
        exact ⟨inside, rfl, key ▸ latest⟩
      rw [gone] at live
      cases live
  refine ⟨y, known, key, deleted, ?_, past⟩
  apply Nat.lt_of_le_of_ne (latest x (mem_visible.mpr ⟨there, shown⟩) rfl)
  intro same
  obtain rfl := eq_of_ts ascending there known same
  exact row deleted

/-- A snapshot cuts the record in two. -/
theorem visible_append {pre post : List (Row Bytes Bytes)} (past : ∀ x ∈ pre, x.ts ≤ t)
    (later : ∀ x ∈ post, t < x.ts) : visible t (pre ++ post) = pre := by
  have kept : pre.filter (fun x => decide (x.ts ≤ t)) = pre :=
    filter_eq_self.mpr fun x hx => decide_eq_true (past x hx)
  have hidden : post.filter (fun x => decide (x.ts ≤ t)) = [] :=
    filter_eq_nil_iff.mpr fun x hx => by simpa using later x hx
  rw [visible, filter_append, kept, hidden, append_nil]

/-- Between two snapshots without a row of the key the key does not change. -/
theorem contentsAt_of_quiet {t' : Timestamp} (ascending : rows.Pairwise fun a b => a.ts < b.ts)
    (le : t ≤ t') (quiet : ∀ x ∈ rows, x.key = k → x.ts ≤ t' → x.ts ≤ t) :
    contentsAt rows t' k = contentsAt rows t k := by
  have sorted : ∀ t, WriteLog.Ascending (visible t rows) :=
    fun t => ascending_of_pairwise (ascending.filter _)
  apply Option.ext
  intro v
  rw [contentsAt, contentsAt, WriteLog.contents_ofRows_iff (sorted t'),
    WriteLog.contents_ofRows_iff (sorted t)]
  refine exists_congr fun ts => ?_
  simp only [Newest, mem_visible]
  constructor
  · rintro ⟨⟨there, past⟩, key, latest⟩
    exact ⟨⟨there, quiet _ there rfl past⟩, key, fun x hx => latest x ⟨hx.1, hx.2.trans le⟩⟩
  · rintro ⟨⟨there, past⟩, key, latest⟩
    exact ⟨⟨there, past.trans le⟩, key,
      fun x hx same => latest x ⟨hx.1, quiet x hx.1 same hx.2⟩ same⟩

end Read

end Engine

end GalaxDb
