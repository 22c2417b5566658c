import GalaxDb.Storage.MapRefinement

/-!
# Snapshot scans

A snapshot scan folds the visible rows into one map, and a tombstone leaves no trace in
it. So a live row that comes after the tombstone that hides it is shown. The results here
say exactly when that happens.
-/

namespace GalaxDb

open Std Row List

namespace Engine

section Merge

/-- One visible row merged into the map of a snapshot scan. -/
def mergeRow (out : SnapshotMap) (r : Row Bytes Bytes) : SnapshotMap :=
  snapshotMerge out r.key r.val r.ts

/-- Every live row of the key is followed by a tombstone of the key that is not older. -/
def Covered (rows : List (Row Bytes Bytes)) (k : Bytes) : Prop :=
  ∀ before r after, rows = before ++ r :: after → r.key = k → r.val ≠ none →
    ∃ t ∈ after, t.key = k ∧ t.val = none ∧ r.ts ≤ t.ts

/-- What the map says of a key after some rows: nothing, and its live rows are covered; or
a row that nothing newer followed, and no live row newer than it is left uncovered. -/
def Tracks (seen : List (Row Bytes Bytes)) (k : Bytes) : Option (Bytes × Timestamp) → Prop
  | none => Covered seen k
  | some (v, t) =>
    (∃ before after, seen = before ++ ⟨k, t, some v⟩ :: after ∧ ∀ x ∈ after, x.key = k → x.ts < t) ∧
      ∀ before r after, seen = before ++ r :: after → r.key = k → r.val ≠ none →
        r.ts ≤ t ∨ ∃ x ∈ after, x.key = k ∧ x.val = none ∧ r.ts ≤ x.ts

/-- A split of a list with one more element is at that element or inside the old list. -/
theorem snoc_split {α : Type*} {seen before after : List α} {a r : α}
    (h : seen ++ [a] = before ++ r :: after) :
    (before = seen ∧ r = a ∧ after = []) ∨ ∃ after', seen = before ++ r :: after' ∧
      after = after' ++ [a] := by
  rcases eq_nil_or_concat after with rfl | ⟨after', b, rfl⟩
  · obtain ⟨rfl, h⟩ := append_inj' h rfl
    exact .inl ⟨rfl, by simpa using h.symm, rfl⟩
  · rw [concat_eq_append, ← cons_append, ← append_assoc] at h
    obtain ⟨hseen, hlast⟩ := append_inj' h rfl
    obtain rfl : a = b := by simpa using hlast
    exact .inr ⟨after', hseen, concat_eq_append⟩

variable {seen : List (Row Bytes Bytes)} {state : Option (Bytes × Timestamp)} {t : Timestamp}
  {k v : Bytes}

variable {rows : List (Row Bytes Bytes)} {r : Row Bytes Bytes}

theorem tracks_other (h : Tracks seen k state) (hk : r.key ≠ k) : Tracks (seen ++ [r]) k state := by
  cases state with
  | none =>
    intro before x after split key live
    rcases snoc_split split with ⟨_, rfl, _⟩ | ⟨after', inner, rfl⟩
    · exact absurd key hk
    · obtain ⟨t, ht, rest⟩ := h before x after' inner key live
      exact ⟨t, mem_append_left _ ht, rest⟩
  | some p =>
    obtain ⟨⟨before, after, split, older⟩, others⟩ := h
    refine ⟨⟨before, after ++ [r], by simp [split], ?_⟩, ?_⟩
    · intro x hx key
      rcases mem_append.mp hx with hx | hx
      · exact older x hx key
      · exact absurd (mem_singleton.mp hx ▸ key) hk
    · intro before' x after' split' key live
      rcases snoc_split split' with ⟨_, rfl, _⟩ | ⟨after'', inner, rfl⟩
      · exact absurd key hk
      · rcases others before' x after'' inner key live with le | ⟨t, ht, rest⟩
        · exact .inl le
        · exact .inr ⟨t, mem_append_left _ ht, rest⟩

/-- An accepted live row. -/
theorem tracks_live (h : Tracks seen k state) (accepted : (state.map Prod.snd).getD 0 ≤ t) :
    Tracks (seen ++ [⟨k, t, some v⟩]) k (some (v, t)) := by
  refine ⟨⟨seen, [], rfl, by simp⟩, ?_⟩
  intro before x after split key live
  rcases snoc_split split with ⟨_, rfl, _⟩ | ⟨after', inner, rfl⟩
  · exact .inl le_rfl
  · cases state with
    | none =>
      obtain ⟨u, hu, rest⟩ := h before x after' inner key live
      exact .inr ⟨u, mem_append_left _ hu, rest⟩
    | some p =>
      rcases h.2 before x after' inner key live with le | ⟨u, hu, rest⟩
      · exact .inl (le.trans accepted)
      · exact .inr ⟨u, mem_append_left _ hu, rest⟩

/-- An accepted tombstone covers everything that was not covered yet. -/
theorem tracks_tombstone (h : Tracks seen k state) (accepted : (state.map Prod.snd).getD 0 ≤ t) :
    Tracks (seen ++ [⟨k, t, none⟩]) k none := by
  intro before x after split key live
  rcases snoc_split split with ⟨_, rfl, _⟩ | ⟨after', inner, rfl⟩
  · exact absurd rfl live
  · cases state with
    | none =>
      obtain ⟨u, hu, rest⟩ := h before x after' inner key live
      exact ⟨u, mem_append_left _ hu, rest⟩
    | some p =>
      rcases h.2 before x after' inner key live with le | ⟨u, hu, rest⟩
      · exact ⟨⟨k, t, none⟩, by simp, rfl, rfl, le.trans accepted⟩
      · exact ⟨u, mem_append_left _ hu, rest⟩

/-- A row older than the one in the map is passed over. -/
theorem tracks_older (h : Tracks seen k (some (v, t))) (older : r.ts < t) :
    Tracks (seen ++ [r]) k (some (v, t)) := by
  obtain ⟨⟨before, after, split, later⟩, others⟩ := h
  refine ⟨⟨before, after ++ [r], by simp [split], ?_⟩, ?_⟩
  · intro x hx key
    rcases mem_append.mp hx with hx | hx
    · exact later x hx key
    · exact mem_singleton.mp hx ▸ older
  · intro before' x after' split' key live
    rcases snoc_split split' with ⟨_, rfl, _⟩ | ⟨after'', inner, rfl⟩
    · exact .inl older.le
    · rcases others before' x after'' inner key live with le | ⟨u, hu, rest⟩
      · exact .inl le
      · exact .inr ⟨u, mem_append_left _ hu, rest⟩

theorem tracks_mergeRow {out : SnapshotMap} (h : ∀ k, Tracks seen k out[k]?) (r : Row Bytes Bytes) :
    ∀ k, Tracks (seen ++ [r]) k (mergeRow out r)[k]? := by
  intro k
  obtain ⟨key, ts, val⟩ := r
  by_cases accepted : ((out[key]?).map Prod.snd).getD 0 ≤ ts
  · by_cases hk : key = k
    · subst hk
      cases val with
      | some v =>
        simp only [mergeRow, snapshotMerge, accepted, if_true, ExtTreeMap.getElem?_insert_self]
        exact tracks_live (h key) accepted
      | none =>
        simp only [mergeRow, snapshotMerge, accepted, if_true, ExtTreeMap.getElem?_erase_self]
        exact tracks_tombstone (h key) accepted
    · have unchanged : (mergeRow out ⟨key, ts, val⟩)[k]? = out[k]? := by
        cases val <;> simp [mergeRow, snapshotMerge, accepted, ExtTreeMap.getElem?_insert,
          ExtTreeMap.getElem?_erase, hk]
      rw [unchanged]
      exact tracks_other (h k) hk
  · have passed : mergeRow out ⟨key, ts, val⟩ = out := by
      simp only [mergeRow, snapshotMerge, accepted, if_false]
    rw [passed]
    by_cases hk : key = k
    · subst hk
      have here := h key
      cases state : out[key]? with
      | none => simp [state] at accepted
      | some p =>
        rw [state] at here accepted
        exact tracks_older here (Nat.lt_of_not_le accepted)
    · exact tracks_other (h k) hk

theorem tracks_foldl (rows : List (Row Bytes Bytes)) (k : Bytes) :
    Tracks rows k (rows.foldl mergeRow ∅)[k]? := by
  suffices h : ∀ (rest seen : List (Row Bytes Bytes)) (out : SnapshotMap),
      (∀ k, Tracks seen k out[k]?) → ∀ k, Tracks (seen ++ rest) k (rest.foldl mergeRow out)[k]? by
    have start : ∀ k : Bytes, Tracks [] k (∅ : SnapshotMap)[k]? := by
      simp [Tracks, Covered]
    simpa using h rows [] ∅ start k
  intro rest
  induction rest with
  | nil => simp
  | cons r rest ih =>
    intro seen out h k
    rw [append_cons, foldl_cons]
    exact ih (seen ++ [r]) (mergeRow out r) (tracks_mergeRow h r) k

/-- The newest row of a key is shown if it is live. -/
theorem foldl_of_newest_live (distinct : Distinct rows) (h : Newest rows k ⟨k, t, some v⟩) :
    (rows.foldl mergeRow ∅)[k]? = some (v, t) := by
  have tracks := tracks_foldl rows k
  obtain ⟨before, after, split⟩ := append_of_mem h.1
  have uncovered : ¬ ∃ x ∈ after, x.key = k ∧ x.val = none ∧ t ≤ x.ts := by
    rintro ⟨x, hx, key, dead, le⟩
    have mem : x ∈ rows := by
      rw [split]
      exact mem_append_right _ (mem_cons_of_mem _ hx)
    have same := distinct x mem _ h.1 key ((h.2.2 x mem key).antisymm le)
    rw [same] at dead
    cases dead
  cases state : (rows.foldl mergeRow ∅)[k]? with
  | none =>
    rw [state] at tracks
    exact absurd (tracks before _ after split rfl (by simp)) uncovered
  | some p =>
    rw [state] at tracks
    obtain ⟨⟨before', after', split', _⟩, others⟩ := tracks
    have mem : (⟨k, p.2, some p.1⟩ : Row Bytes Bytes) ∈ rows := by
      rw [split']
      simp
    have le : t ≤ p.2 := (others before _ after split rfl (by simp)).resolve_right uncovered
    have same := distinct _ mem _ h.1 rfl ((h.2.2 _ mem rfl).antisymm le)
    simp only [Row.mk.injEq, Option.some.injEq, true_and] at same
    rw [← same.1, ← same.2]

/-- Whether a key is missing from the map depends on the order of its rows only. -/
theorem foldl_eq_none_iff (rows : List (Row Bytes Bytes)) (k : Bytes) :
    (rows.foldl mergeRow ∅)[k]? = none ↔ Covered rows k := by
  have tracks := tracks_foldl rows k
  cases state : (rows.foldl mergeRow ∅)[k]? with
  | none =>
    rw [state] at tracks
    exact ⟨fun _ => tracks, fun _ => rfl⟩
  | some p =>
    rw [state] at tracks
    obtain ⟨⟨before, after, split, older⟩, _⟩ := tracks
    constructor
    · intro h
      cases h
    · intro covered
      obtain ⟨t, ht, key, _, le⟩ := covered before _ after split rfl (by simp)
      exact absurd (older t ht key) le.not_gt

/-- The map holds the newest row of every key exactly when the live rows of each deleted
key come before a tombstone that hides them. -/
theorem foldl_correct_iff (distinct : Distinct rows) :
    (∀ k v t, (rows.foldl mergeRow ∅)[k]? = some (v, t) ↔ Newest rows k ⟨k, t, some v⟩) ↔
      ∀ k t, Newest rows k ⟨k, t, none⟩ → Covered rows k := by
  constructor
  · intro correct k t dead
    rw [← foldl_eq_none_iff]
    refine Option.eq_none_iff_forall_ne_some.mpr fun p hp => ?_
    have same := newest_unique distinct ((correct k p.1 p.2).mp hp) dead
    simp at same
  · intro covered k v t
    refine ⟨fun shown => ?_, foldl_of_newest_live distinct⟩
    have present : ∃ r ∈ rows, r.key = k := by
      by_contra none_of_key
      have := (foldl_eq_none_iff rows k).mpr fun before r after split key =>
        absurd ⟨r, by simp [split], key⟩ none_of_key
      rw [this] at shown
      cases shown
    obtain ⟨⟨key, ts, val⟩, newest⟩ := exists_newest present
    obtain rfl : key = k := newest.2.1
    cases val with
    | none =>
      rw [(foldl_eq_none_iff rows key).mpr (covered key ts newest)] at shown
      cases shown
    | some w =>
      rw [foldl_of_newest_live distinct newest] at shown
      cases shown
      exact newest

end Merge

/-- The rows a snapshot scan merges, in its order: the visible rows of the files, then the
visible version of every key of the memtable. -/
def visitedRows (e : Engine) (order : IterOrder) (readTs : Timestamp) : List (Row Bytes Bytes) :=
  visible readTs ((scanRows (e.scanBlocks order) none).map SstRow.toRow) ++
    e.memtableMgr.active.iterAll.filterMap fun x =>
      (x.2.getAtWithTs readTs).map fun p => ⟨x.1, p.2, p.1⟩

/-- All rows of the engine: those in files and all versions in the memtable. -/
def allRows (e : Engine) : List (Row Bytes Bytes) := e.storedRows ++ e.memtableMgr.active.rows

theorem foldl_snapshotRow (readTs : Timestamp) (rows : List SstRow) (out : SnapshotMap) :
    rows.foldl (snapshotRow readTs) out =
      (visible readTs (rows.map SstRow.toRow)).foldl mergeRow out := by
  induction rows generalizing out with
  | nil => rfl
  | cons r rest ih =>
    rw [foldl_cons, ih, map_cons, visible, visible, filter_cons]
    by_cases hidden : readTs < r.ts
    · have out_of_sight : ¬ r.toRow.ts ≤ readTs := hidden.not_ge
      simp only [snapshotRow, hidden, if_true, out_of_sight, decide_false, Bool.false_eq_true,
        if_false]
    · have in_sight : r.toRow.ts ≤ readTs := Nat.le_of_not_lt hidden
      simp only [snapshotRow, hidden, if_false, in_sight, decide_true, if_true, foldl_cons]
      rfl

theorem foldl_snapshotEntry (readTs : Timestamp) (entries : List (Bytes × VersionedValue))
    (out : SnapshotMap) :
    entries.foldl (snapshotEntry readTs) out = (entries.filterMap fun x =>
      (x.2.getAtWithTs readTs).map fun p => (⟨x.1, p.2, p.1⟩ : Row Bytes Bytes)).foldl
        mergeRow out := by
  induction entries generalizing out with
  | nil => rfl
  | cons x rest ih =>
    rw [foldl_cons, ih, filterMap_cons]
    cases found : x.2.getAtWithTs readTs with
    | none => simp [snapshotEntry, found]
    | some p => simp [snapshotEntry, found, mergeRow]

theorem scanAllAt_eq (e : Engine) (order : IterOrder) (readTs : Timestamp) :
    e.scanAllAt order readTs = ((e.visitedRows order readTs).foldl mergeRow ∅).toList := by
  rw [visitedRows, foldl_append, ← foldl_snapshotRow, ← foldl_snapshotEntry]
  rfl

variable {e : Engine}

theorem mem_visitedRows {order : IterOrder} {readTs : Timestamp} {x : Row Bytes Bytes} :
    x ∈ e.visitedRows order readTs ↔ (x ∈ e.storedRows ∧ x.ts ≤ readTs) ∨
      ∃ v, e.memtableMgr.active.map[x.key]? = some v ∧
        v.getAtWithTs readTs = some (x.val, x.ts) := by
  have stored : x ∈ (scanRows (e.scanBlocks order) none).map SstRow.toRow ↔ x ∈ e.storedRows := by
    simp only [storedRows, mem_map, mem_scanRows]
  rw [visitedRows, mem_append, mem_visible, stored, mem_filterMap]
  refine or_congr Iff.rfl ?_
  constructor
  · rintro ⟨⟨k, v⟩, hv, hx⟩
    obtain ⟨p, found, rfl⟩ := Option.map_eq_some_iff.mp hx
    exact ⟨v, Memtable.mem_iterAll.mp hv, found⟩
  · rintro ⟨v, hv, found⟩
    exact ⟨(x.key, v), Memtable.mem_iterAll.mpr hv, by rw [found]; rfl⟩

/-- The scan visits visible rows only, and for every visible row one of the same key that
is not older. -/
theorem visitedRows_spec (chained : e.memtableMgr.active.Chained) (order : IterOrder)
    (readTs : Timestamp) :
    (∀ x ∈ e.visitedRows order readTs, x ∈ visible readTs e.allRows) ∧
      ∀ x ∈ visible readTs e.allRows, ∃ y ∈ e.visitedRows order readTs,
        y.key = x.key ∧ x.ts ≤ y.ts := by
  constructor
  · intro x hx
    rw [mem_visible, allRows, mem_append]
    rcases mem_visitedRows.mp hx with ⟨stored, le⟩ | ⟨v, hv, found⟩
    · exact ⟨.inl stored, le⟩
    · obtain ⟨inside, le, _⟩ :=
        VersionedValue.getAtWithTs_spec (chained (x.key, v) (Memtable.mem_iterAll.mpr hv)) found
      exact ⟨.inr (Memtable.mem_rows.mpr ⟨v, hv, inside⟩), le⟩
  · intro x hx
    rw [mem_visible, allRows, mem_append] at hx
    obtain ⟨stored | buffered, le⟩ := hx
    · exact ⟨x, mem_visitedRows.mpr (.inl ⟨stored, le⟩), rfl, le_rfl⟩
    · obtain ⟨v, hv, inside⟩ := Memtable.mem_rows.mp buffered
      obtain ⟨value, ts, found⟩ := VersionedValue.exists_getAtWithTs inside le
      obtain ⟨_, _, newest⟩ :=
        VersionedValue.getAtWithTs_spec (chained (x.key, v) (Memtable.mem_iterAll.mpr hv)) found
      exact ⟨⟨x.key, ts, value⟩, mem_visitedRows.mpr (.inr ⟨v, hv, found⟩), rfl,
        newest _ inside le⟩

theorem newest_visitedRows (distinct : Distinct e.allRows) (chained : e.memtableMgr.active.Chained)
    (order : IterOrder) (readTs : Timestamp) {k : Bytes} {n : Row Bytes Bytes} :
    Newest (e.visitedRows order readTs) k n ↔ Newest (visible readTs e.allRows) k n := by
  obtain ⟨sub, dominated⟩ := visitedRows_spec chained order readTs
  constructor
  · rintro ⟨hn, key, newest⟩
    refine ⟨sub n hn, key, fun x hx hxk => ?_⟩
    obtain ⟨y, hy, hyk, le⟩ := dominated x hx
    exact le.trans (newest y hy (hyk.trans hxk))
  · rintro ⟨hn, key, newest⟩
    obtain ⟨y, hy, hyk, le⟩ := dominated n hn
    have ts := (newest y (sub y hy) (hyk.trans key)).antisymm le
    have same := distinct y (mem_visible.mp (sub y hy)).1 n (mem_visible.mp hn).1 hyk ts
    exact ⟨same ▸ hy, key, fun x hx hxk => newest x (sub x hx) hxk⟩

/-- A snapshot scan in a given order shows the newest visible row of every key if and only
if every live row it visits of a deleted key comes before a tombstone that hides it. -/
theorem scanAllAt_correct_iff (e : Engine) (order : IterOrder) (readTs : Timestamp)
    (distinct : Distinct e.allRows) (chained : e.memtableMgr.active.Chained) :
    (∀ k v ts, (k, v, ts) ∈ e.scanAllAt order readTs ↔
        Newest (visible readTs e.allRows) k ⟨k, ts, some v⟩) ↔
      ∀ k ts, Newest (visible readTs e.allRows) k ⟨k, ts, none⟩ →
        Covered (e.visitedRows order readTs) k := by
  have sub := (visitedRows_spec chained order readTs).1
  have distinct' : Distinct (e.visitedRows order readTs) :=
    distinct.sublist fun x hx => (mem_visible.mp (sub x hx)).1
  rw [scanAllAt_eq]
  simp only [ExtTreeMap.mem_toList_iff_getElem?_eq_some,
    ← newest_visitedRows distinct chained order readTs]
  exact foldl_correct_iff distinct'

theorem scanAllAt_correct_iff_updated_row : let e := (Run.run (step .plain) (fresh .plain .default)
      [.put [97] [49], .flush .byId, .put [97] [50], .delete [97]]).getD (fresh .plain .default)
    (∀ k v ts, (k, v, ts) ∈ e.scanAllAt .byId 3 ↔ Newest (visible 3 e.allRows) k ⟨k, ts, some v⟩) ↔
      ∀ k ts, Newest (visible 3 e.allRows) k ⟨k, ts, none⟩ → Covered (e.visitedRows .byId 3) k := by
  intro e
  exact scanAllAt_correct_iff e .byId 3 (by decide +kernel) (by decide +kernel)

/-- A deleted row whose tombstone is in another file: it is hidden in one order of the
files and shown in the other. -/
theorem scanAllAt_tombstone_first :
    let after := Run.run (step .plain) (fresh .plain .default)
      [.put [97] [49], .flush .byId, .delete [97], .flush .byId]
    after.map allRows = some [⟨[97], 1, some [49]⟩, ⟨[97], 2, none⟩] ∧
      after.map (fun e => e.scanAllAt .byId 2) = some [] ∧
      after.map (fun e => e.scanAllAt .reversed 2) = some [([97], [49], 1)] := by
  refine ⟨?_, ?_, ?_⟩ <;> decide +kernel

end Engine

end GalaxDb
