import GalaxDb.Storage.Engine

/-!
# The merge behind a scan

The scan folds the rows of all files into the winning version of every key, in whatever
order the files come. The fold state always reflects the newest row seen of each key.
-/

namespace GalaxDb

open Std Row List

namespace Engine

/-- What the winner and tombstone maps say is the newest row seen of every key. -/
def ScanState.Reflects (s : ScanState) (rows : List (Row Bytes Bytes)) : Prop :=
  (∀ k v t, s.out[k]? = some (v, t) ↔ Newest rows k ⟨k, t, some v⟩) ∧
    ∀ k t, s.tombstoned[k]? = some t ↔ Newest rows k ⟨k, t, none⟩

theorem ScanState.reflects_nil : (ScanState.mk ∅ ∅).Reflects [] := by
  constructor <;> simp [Newest]

variable {rows : List (Row Bytes Bytes)} {s : ScanState}

/-- The timestamp the scan compares a row with is that of the newest row seen. -/
theorem ScanState.Reflects.newestSeen (h : s.Reflects rows) {k : Bytes} {n : Row Bytes Bytes}
    (hn : Newest rows k n) (distinct : Distinct rows) :
    max (((s.out[k]?).map Prod.snd).getD 0) ((s.tombstoned[k]?).getD 0) = n.ts := by
  obtain ⟨key, ts, val⟩ := n
  obtain rfl : key = k := hn.2.1
  cases val with
  | some v =>
    have live := (h.1 key v ts).mpr hn
    have noTomb : s.tombstoned[key]? = none := by
      refine Option.eq_none_iff_forall_ne_some.mpr fun t ht => ?_
      have := newest_unique distinct ((h.2 key t).mp ht) hn
      simp at this
    simp [live, noTomb]
  | none =>
    have tomb := (h.2 key ts).mpr hn
    have noLive : s.out[key]? = none := by
      refine Option.eq_none_iff_forall_ne_some.mpr fun p hp => ?_
      have := newest_unique distinct ((h.1 key p.1 p.2).mp hp) hn
      simp at this
    simp [noLive, tomb]

theorem ScanState.Reflects.unseen (h : s.Reflects rows) {k : Bytes} (hk : ∀ r ∈ rows, r.key ≠ k) :
    s.out[k]? = none ∧ s.tombstoned[k]? = none := by
  constructor
  · exact Option.eq_none_iff_forall_ne_some.mpr fun p hp => hk _ ((h.1 k p.1 p.2).mp hp).1 rfl
  · exact Option.eq_none_iff_forall_ne_some.mpr fun t ht => hk _ ((h.2 k t).mp ht).1 rfl

/-- A scanned row is added to those that the maps reflect. -/
theorem scanRow_reflects {r : SstRow} (h : s.Reflects rows)
    (distinct : Distinct (rows ++ [r.toRow])) : (scanRow s r).Reflects (rows ++ [r.toRow]) := by
  have before : Distinct rows := distinct.sublist fun _ => mem_append_left _
  have seen := fun n hn => h.newestSeen (k := r.key) (n := n) hn before
  by_cases older : r.ts < max (((s.out[r.key]?).map Prod.snd).getD 0)
      ((s.tombstoned[r.key]?).getD 0)
  · obtain ⟨n, hn⟩ : ∃ n, Newest rows r.key n := by
      refine exists_newest ?_
      by_contra none_seen
      obtain ⟨noLive, noTomb⟩ := h.unseen (k := r.key) (fun x hx hk => none_seen ⟨x, hx, hk⟩)
      simp [noLive, noTomb] at older
    have same : ∀ k m, Newest (rows ++ [r.toRow]) k m ↔ Newest rows k m :=
      fun k m => newest_snoc_older hn (by rw [seen n hn] at older; exact older)
    have skip : scanRow s r = s := by simp only [scanRow, older, if_true]
    rw [skip]
    exact ⟨fun k v t => (h.1 k v t).trans (same _ _).symm,
      fun k t => (h.2 k t).trans (same _ _).symm⟩
  · have newer : ∀ x ∈ rows, x.key = r.key → x.ts ≤ r.ts := by
      intro x hx hk
      obtain ⟨n, hn⟩ := exists_newest ⟨x, hx, hk⟩
      rw [seen n hn] at older
      exact Nat.le_trans (hn.2.2 x hx hk) (Nat.le_of_not_lt older)
    have here : ∀ m, Newest (rows ++ [r.toRow]) r.key m ↔ m = r.toRow :=
      fun m => newest_snoc_newer distinct newer
    have other : ∀ k m, r.key ≠ k → (Newest (rows ++ [r.toRow]) k m ↔ Newest rows k m) :=
      fun k m hk => newest_snoc_other hk
    by_cases empty : r.value = []
    · have step : scanRow s r = ⟨s.out.erase r.key, s.tombstoned.insert r.key r.ts⟩ := by
        simp only [scanRow, older, if_false, empty, if_true]
      rw [step]
      constructor
      · intro k v t
        by_cases hk : r.key = k
        · subst hk
          rw [here]
          simp [SstRow.toRow, empty]
        · simpa [ExtTreeMap.getElem?_erase, hk, other k _ hk] using h.1 k v t
      · intro k t
        by_cases hk : r.key = k
        · subst hk
          rw [here]
          simp [SstRow.toRow, empty, eq_comm]
        · simpa [ExtTreeMap.getElem?_insert, hk, other k _ hk] using h.2 k t
    · have step : scanRow s r = ⟨s.out.insert r.key (r.value, r.ts), s.tombstoned.erase r.key⟩ := by
        simp only [scanRow, older, if_false, empty]
      rw [step]
      constructor
      · intro k v t
        by_cases hk : r.key = k
        · subst hk
          rw [here]
          simp [SstRow.toRow, empty, eq_comm, and_comm]
        · simpa [ExtTreeMap.getElem?_insert, hk, other k _ hk] using h.1 k v t
      · intro k t
        by_cases hk : r.key = k
        · subst hk
          rw [here]
          simp [SstRow.toRow, empty]
        · simpa [ExtTreeMap.getElem?_erase, hk, other k _ hk] using h.2 k t

/-- After the whole fold the winner of a key is its newest row, in any order of the rows. -/
theorem foldl_scanRow_reflects {seen : List (Row Bytes Bytes)} (h : s.Reflects seen)
    (rows : List SstRow) (distinct : Distinct (seen ++ rows.map SstRow.toRow)) :
    (rows.foldl scanRow s).Reflects (seen ++ rows.map SstRow.toRow) := by
  induction rows generalizing s seen with
  | nil => simpa using h
  | cons r rest ih =>
    rw [map_cons, append_cons] at distinct ⊢
    have step := scanRow_reflects h (distinct.sublist fun _ => mem_append_left _)
    exact ih step distinct

section ZoneMap

theorem foldl_below {r : Bytes → Bytes → Prop} (refl : ∀ m, r m m)
    (trans : ∀ {a b c}, r a b → r b c → r a c) {pick : Bytes → Bytes → Bytes}
    (picks : ∀ m x, r (pick m x) m ∧ r (pick m x) x) (keys : List Bytes) (k : Bytes) :
    r (keys.foldl pick k) k ∧ ∀ x ∈ keys, r (keys.foldl pick k) x := by
  induction keys generalizing k with
  | nil => exact ⟨refl k, nofun⟩
  | cons a rest ih =>
    obtain ⟨first, others⟩ := ih (pick k a)
    refine ⟨trans first (picks k a).1, fun x hx => ?_⟩
    rcases mem_cons.mp hx with rfl | hx
    · exact trans first (picks k x).2
    · exact others x hx

theorem foldl_min_isLE (keys : List Bytes) (k : Bytes) :
    let m := keys.foldl (fun m x => if compare x m = .lt then x else m) k
    (compare m k).isLE ∧ ∀ x ∈ keys, (compare m x).isLE := by
  refine @foldl_below (fun a b => (compare a b).isLE) (by simp) TransCmp.isLE_trans _ ?_ keys k
  intro m x
  split
  · rename_i before
    exact ⟨Ordering.isLE_of_eq_lt before, by simp⟩
  · rename_i behind
    exact ⟨by simp, OrientedCmp.isLE_of_isGE (Ordering.isGE_iff_ne_lt.mpr behind)⟩

theorem foldl_max_isLE (keys : List Bytes) (k : Bytes) :
    let m := keys.foldl (fun m x => if compare x m = .lt then m else x) k
    (compare k m).isLE ∧ ∀ x ∈ keys, (compare x m).isLE := by
  refine @foldl_below (fun a b => (compare b a).isLE) (by simp)
    (fun ab bc => TransCmp.isLE_trans bc ab) _ ?_ keys k
  intro m x
  split
  · rename_i before
    exact ⟨by simp, Ordering.isLE_of_eq_lt before⟩
  · rename_i behind
    exact ⟨OrientedCmp.isLE_of_isGE (Ordering.isGE_iff_ne_lt.mpr behind), by simp⟩

/-- The zone map of a block bounds its keys. -/
def Zoned (b : PaxBlock) : Prop :=
  ∀ r ∈ b.rows, (compare b.zoneMapMin r.key).isLE ∧ (compare r.key b.zoneMapMax).isLE

theorem zoned_write (blockId : Nat) (ts : Timestamp) (rows : List SstRow)
    (dataColumns : List (List Bytes)) : Zoned (PaxBlock.write blockId ts rows dataColumns) := by
  intro r hr
  cases rows with
  | nil => cases hr
  | cons first rest =>
    have lower := foldl_min_isLE (rest.map SstRow.key) first.key
    have upper := foldl_max_isLE (rest.map SstRow.key) first.key
    rcases mem_cons.mp hr with rfl | hr
    · exact ⟨lower.1, upper.1⟩
    · exact ⟨lower.2 _ (mem_map_of_mem hr), upper.2 _ (mem_map_of_mem hr)⟩

variable {blocks : List PaxBlock} {k p pfx z zoneMax zoneMin : Bytes}

/-- A lower bound that leaves the prefix upwards lies above every key with the prefix. -/
theorem compare_lt_of_startsWith (hk : p <+: k) (hp : commonPrefixLen z p < p.length)
    (hz : commonPrefixLen z p < z.length)
    (h : p.getD (commonPrefixLen z p) 0 < z.getD (commonPrefixLen z p) 0) : compare k z = .lt := by
  induction z generalizing p k with
  | nil => simp at hz
  | cons x z ih =>
    cases p with
    | nil => simp at hp
    | cons y p =>
      obtain ⟨rest, rfl⟩ := hk
      by_cases hxy : x = y
      · subst hxy
        simp only [commonPrefixLen, if_true, length_cons, Nat.add_lt_add_iff_right,
          getD_cons_succ] at hp hz h
        simpa using ih (prefix_append p rest) hp hz h
      · simp only [commonPrefixLen, hxy, if_false, getD_cons_zero] at h
        simp [Std.compare_eq_lt.mpr h]

/-- A lower bound above the prefix that does not leave it upwards extends it. -/
theorem startsWith_of_gt (above : compare z p = .gt)
    (stays : commonPrefixLen z p < p.length → commonPrefixLen z p < z.length →
      ¬ p.getD (commonPrefixLen z p) 0 < z.getD (commonPrefixLen z p) 0) : p <+: z := by
  induction z generalizing p with
  | nil => cases p <;> simp at above
  | cons x z ih =>
    cases p with
    | nil => exact nil_prefix
    | cons y p =>
      by_cases hxy : x = y
      · subst hxy
        simp only [commonPrefixLen, if_true, length_cons, Nat.add_lt_add_iff_right,
          getD_cons_succ] at stays
        exact cons_prefix_cons.mpr ⟨rfl, ih (by simpa using above) stays⟩
      · simp only [commonPrefixLen, hxy, if_false, length_cons, Nat.zero_lt_succ,
          getD_cons_zero, true_implies] at stays
        cases order : compare x y with
        | lt => simp [order] at above
        | eq => exact absurd (LawfulEqOrd.eq_of_compare order) hxy
        | gt => exact absurd (Std.compare_eq_gt.mp order) stays

/-- Bounds with a key of the prefix between them are kept. -/
theorem keyRangeOverlapsPrefix_of_between (hp : pfx <+: k) (lower : (compare zoneMin k).isLE)
    (upper : (compare k zoneMax).isLE) : keyRangeOverlapsPrefix zoneMin zoneMax pfx = true := by
  rw [keyRangeOverlapsPrefix]
  split
  · rfl
  · have above : compare zoneMax pfx ≠ .lt :=
      fun h => Bytes.not_lt_of_startsWith hp (TransCmp.lt_of_isLE_of_lt upper h)
    simp only [above, if_false]
    split
    · rename_i inside
      rw [Bool.not_eq_true', decide_eq_false_iff_not]
      intro h
      exact OrientedCmp.not_lt_of_isLE lower (compare_lt_of_startsWith hp inside.1 inside.2 h)
    · rfl

/-- Kept bounds have a key of the prefix between them: the prefix itself when it lies
there, the lower bound when the prefix lies below. -/
theorem between_of_keyRangeOverlapsPrefix (ordered : (compare zoneMin zoneMax).isLE)
    (zoned : ¬ (zoneMin = [] ∧ zoneMax = []))
    (kept : keyRangeOverlapsPrefix zoneMin zoneMax pfx = true) :
    ∃ k, pfx <+: k ∧ (compare zoneMin k).isLE ∧ (compare k zoneMax).isLE := by
  have reached : compare zoneMax pfx ≠ .lt := by
    intro below
    simp [keyRangeOverlapsPrefix, zoned, below] at kept
  by_cases inside : (compare zoneMin pfx).isLE
  · refine ⟨pfx, prefix_rfl, inside, ?_⟩
    cases order : compare pfx zoneMax with
    | lt => rfl
    | eq => rfl
    | gt => exact absurd (OrientedCmp.lt_of_gt order) reached
  · have above : compare zoneMin pfx = .gt := by
      cases order : compare zoneMin pfx <;> simp_all
    refine ⟨zoneMin, startsWith_of_gt above ?_, by simp, ordered⟩
    intro hp hz leaves
    simp only [keyRangeOverlapsPrefix, zoned, reached, hp, hz, leaves, and_self, decide_true,
      Bool.not_true, if_false, if_true, Bool.false_eq_true] at kept

/-- Pruning by the zone map is exact. -/
theorem keyRangeOverlapsPrefix_iff {zoneMin zoneMax : Bytes}
    (ordered : (compare zoneMin zoneMax).isLE) (zoned : ¬ (zoneMin = [] ∧ zoneMax = []))
    (pfx : Bytes) :
    keyRangeOverlapsPrefix zoneMin zoneMax pfx = true ↔
      ∃ k, pfx <+: k ∧ (compare zoneMin k).isLE ∧ (compare k zoneMax).isLE :=
  ⟨between_of_keyRangeOverlapsPrefix ordered zoned,
    fun ⟨_, hp, lower, upper⟩ => keyRangeOverlapsPrefix_of_between hp lower upper⟩

/-- A block that starts past `[1, 255]` but not past its extensions is kept. -/
theorem keyRangeOverlapsPrefix_iff_byte_255 :
    keyRangeOverlapsPrefix [1, 255, 0] [2] [1, 255] = true ↔
      ∃ k : Bytes, [1, 255] <+: k ∧ (compare [1, 255, 0] k).isLE ∧ (compare k [2]).isLE :=
  @keyRangeOverlapsPrefix_iff [1, 255, 0] [2] (by decide) (by decide) [1, 255]

/-- Pruning never skips a block that holds a key with the prefix. -/
theorem keyRangeOverlapsPrefix_of_mem {b : PaxBlock} (zoned : Zoned b) {r : SstRow}
    (hr : r ∈ b.rows) (hp : pfx <+: r.key) :
    keyRangeOverlapsPrefix b.zoneMapMin b.zoneMapMax pfx = true :=
  keyRangeOverlapsPrefix_of_between hp (zoned r hr).1 (zoned r hr).2

/-- Whether a scan restricted to a prefix, or not restricted, may show a key. -/
def inPrefix : Option Bytes → Bytes → Bool
  | none, _ => true
  | some pfx, k => pfx.isPrefixOf k

theorem scanRows_some (zoned : ∀ b ∈ blocks, Zoned b) (pfx : Bytes) : scanRows blocks (some pfx) =
      (scanRows blocks none).filter (fun r => pfx.isPrefixOf r.key) := by
  induction blocks with
  | nil => rfl
  | cons b rest ih =>
    have tail := ih fun b hb => zoned b (mem_cons_of_mem _ hb)
    simp only [scanRows, flatMap_cons, filter_append] at tail ⊢
    rw [← tail]
    by_cases keep : keyRangeOverlapsPrefix b.zoneMapMin b.zoneMapMax pfx = true
    · simp only [filter_cons, keep, if_true, flatMap_cons]
    · have none_here : b.rows.filter (fun r => pfx.isPrefixOf r.key) = [] := by
        refine filter_eq_nil_iff.mpr fun r hr hp => keep ?_
        exact keyRangeOverlapsPrefix_of_mem (zoned b mem_cons_self) hr
          (List.isPrefixOf_iff_prefix.mp hp)
      simp only [filter_cons, keep, Bool.false_eq_true, if_false, none_here, nil_append]

theorem scanRows_eq_filter (zoned : ∀ b ∈ blocks, Zoned b) (pfx : Option Bytes) :
    scanRows blocks pfx = (scanRows blocks none).filter (fun r => inPrefix pfx r.key) := by
  cases pfx with
  | none => simp [inPrefix]
  | some pfx => exact scanRows_some zoned pfx

end ZoneMap

section Overlay

variable {out : ExtTreeMap Bytes Bytes compare} {entries : List (Bytes × VersionedValue)}

theorem overlayMemtable_of_not_mem {k : Bytes} (absent : ∀ e ∈ entries, e.1 ≠ k) :
    (overlayMemtable out entries)[k]? = out[k]? := by
  induction entries generalizing out with
  | nil => rfl
  | cons e rest ih =>
    have here : e.1 ≠ k := absent e mem_cons_self
    rw [overlayMemtable, foldl_cons]
    refine (ih fun x hx => absent x (mem_cons_of_mem _ hx)).trans ?_
    cases e.2.value <;> simp [ExtTreeMap.getElem?_insert, ExtTreeMap.getElem?_erase, here]

theorem overlayMemtable_of_mem (nodup : entries.Pairwise (fun a b => a.1 ≠ b.1))
    {e : Bytes × VersionedValue} (he : e ∈ entries) :
    (overlayMemtable out entries)[e.1]? = e.2.value := by
  induction entries generalizing out with
  | nil => cases he
  | cons a rest ih =>
    obtain ⟨first, tail⟩ := pairwise_cons.mp nodup
    rw [overlayMemtable, foldl_cons]
    rcases mem_cons.mp he with rfl | he
    · refine (overlayMemtable_of_not_mem fun x hx => (first x hx).symm).trans ?_
      cases e.2.value <;> simp
    · exact ih tail he

end Overlay

section Scan

/-- Every row in a registered file. -/
def sstRows (e : Engine) : List SstRow := scanRows (e.scanBlocks IterOrder.byId) none

theorem scanBlocks_perm (e : Engine) (order : IterOrder) :
    (e.scanBlocks order).Perm (e.scanBlocks IterOrder.byId) :=
  (order.perm _).flatMap_right _

variable {e : Engine} {k : Bytes}

variable {r : SstRow} {v : Bytes}

theorem mem_scanRows (order : IterOrder) : r ∈ scanRows (e.scanBlocks order) none ↔ r ∈ e.sstRows :=
  ((e.scanBlocks_perm order).flatMap_right _).mem_iff

theorem mem_sstRows :
    r ∈ e.sstRows ↔ ∃ (id : Nat) (entry : SstEntry), e.sstRegistry[id]? = some entry ∧
      ∃ b ∈ e.blocksOf entry, r ∈ b.rows := by
  simp only [sstRows, scanRows, scanBlocks, IterOrder.byId, id_eq, mem_flatMap, Prod.exists,
    ExtTreeMap.mem_toList_iff_getElem?_eq_some]
  constructor
  · rintro ⟨b, ⟨id, entry, he, hb⟩, hr⟩
    exact ⟨id, entry, he, b, hb, hr⟩
  · rintro ⟨id, entry, he, b, hb, hr⟩
    exact ⟨b, ⟨id, entry, he, hb⟩, hr⟩

/-- The rows in registered files, as readers understand them. -/
def storedRows (e : Engine) : List (Row Bytes Bytes) := e.sstRows.map SstRow.toRow

/-- The value a scan shows for a key: that of the memtable, else that of the newest row. -/
def Current (e : Engine) (k v : Bytes) : Prop :=
  match e.memtableMgr.active.map[k]? with
  | some versioned => versioned.value = some v
  | none => ∃ t, Newest e.storedRows k ⟨k, t, some v⟩

/-- What all scans assume of the files: bounded blocks, one row per key and timestamp. -/
structure Readable (e : Engine) : Prop where
  distinct : Distinct e.storedRows
  zoned : ∀ (id : Nat) (entry : SstEntry), e.sstRegistry[id]? = some entry →
    ∀ b ∈ e.blocksOf entry, Zoned b

theorem Readable.zoned_scan (h : e.Readable) (order : IterOrder) :
    ∀ b ∈ e.scanBlocks order, Zoned b := by
  intro b hb
  obtain ⟨⟨id, entry⟩, he, hb⟩ := mem_flatMap.mp ((e.scanBlocks_perm order).mem_iff.mp hb)
  exact h.zoned id entry (ExtTreeMap.mem_toList_iff_getElem?_eq_some.mp he) b hb

theorem scanRows_reflects (h : e.Readable) (order : IterOrder) (pfx : Option Bytes) :
    ((scanRows (e.scanBlocks order) pfx).foldl scanRow ⟨∅, ∅⟩).Reflects
      (e.storedRows.filter (fun r => inPrefix pfx r.key)) := by
  have same : ∀ r, r ∈ (scanRows (e.scanBlocks order) pfx).map SstRow.toRow ↔
      r ∈ e.storedRows.filter (fun r => inPrefix pfx r.key) := by
    intro r
    rw [scanRows_eq_filter (h.zoned_scan order)]
    simp only [storedRows, mem_filter, mem_map, mem_scanRows]
    constructor
    · rintro ⟨s, ⟨hs, hp⟩, rfl⟩
      exact ⟨⟨s, hs, rfl⟩, hp⟩
    · rintro ⟨⟨s, hs, rfl⟩, hp⟩
      exact ⟨s, ⟨hs, hp⟩, rfl⟩
  have distinct : Distinct ([] ++ (scanRows (e.scanBlocks order) pfx).map SstRow.toRow) :=
    h.distinct.sublist fun r hr => (mem_filter.mp ((same r).mp hr)).1
  have folded := foldl_scanRow_reflects ScanState.reflects_nil _ distinct
  exact ⟨fun k v t => (folded.1 k v t).trans (newest_congr same),
    fun k t => (folded.2 k t).trans (newest_congr same)⟩

/-- Filtering rows by a property of their key keeps the newest row of the keys that have it. -/
theorem newest_filter {p : Bytes → Bool} {n : Row Bytes Bytes} :
    Newest (rows.filter (fun r => p r.key)) k n ↔ p k = true ∧ Newest rows k n := by
  simp only [Newest, mem_filter]
  constructor
  · rintro ⟨⟨hn, hp⟩, rfl, hmax⟩
    exact ⟨hp, hn, rfl, fun r hr hk => hmax r ⟨hr, by rw [hk]; exact hp⟩ hk⟩
  · rintro ⟨hp, hn, rfl, hmax⟩
    exact ⟨⟨hn, hp⟩, rfl, fun r hr hk => hmax r hr.1 hk⟩

theorem iterAll_pairwise_ne (m : Memtable) : m.iterAll.Pairwise (fun a b => a.1 ≠ b.1) := by
  refine m.map.distinct_keys_toList.imp ?_
  intro a b h hab
  rw [hab] at h
  exact h ReflCmp.compare_self

theorem memEntries_eq_filter (m : Memtable) (pfx : Option Bytes) :
    memEntries m pfx = m.iterAll.filter (fun x => inPrefix pfx x.1) := by
  cases pfx with
  | none => simp [memEntries, inPrefix]
  | some pfx => exact m.iterPrefix_eq_filter pfx

theorem mem_scanAllWithPrefix (h : e.Readable) (order : IterOrder) (pfx : Option Bytes) :
    (k, v) ∈ e.scanAllWithPrefix order pfx ↔ inPrefix pfx k = true ∧ e.Current k v := by
  have reflects := scanRows_reflects h order pfx
  simp only [scanAllWithPrefix, ExtTreeMap.mem_toList_iff_getElem?_eq_some,
    memEntries_eq_filter]
  by_cases inside : inPrefix pfx k = true
  · simp only [inside, true_and]
    unfold Current
    cases hm : e.memtableMgr.active.map[k]? with
    | some versioned =>
      have entry : (k, versioned) ∈ e.memtableMgr.active.iterAll.filter
          (fun x => inPrefix pfx x.1) :=
        mem_filter.mpr ⟨Memtable.mem_iterAll.mpr hm, inside⟩
      rw [overlayMemtable_of_mem ((iterAll_pairwise_ne _).filter _) entry]
    | none =>
      have absent : ∀ x ∈ e.memtableMgr.active.iterAll.filter (fun x => inPrefix pfx x.1),
          x.1 ≠ k := by
        rintro ⟨k', w⟩ hx rfl
        rw [Memtable.mem_iterAll.mp (mem_filter.mp hx).1] at hm
        cases hm
      rw [overlayMemtable_of_not_mem absent, ExtTreeMap.getElem?_map]
      constructor
      · intro hv
        obtain ⟨⟨v', t⟩, hp, rfl⟩ := Option.map_eq_some_iff.mp hv
        exact ⟨t, (newest_filter.mp ((reflects.1 k v' t).mp hp)).2⟩
      · rintro ⟨t, ht⟩
        rw [(reflects.1 k v t).mpr (newest_filter.mpr ⟨inside, ht⟩)]
        rfl
  · have absent : ∀ x ∈ e.memtableMgr.active.iterAll.filter (fun x => inPrefix pfx x.1),
        x.1 ≠ k := by
      rintro x hx rfl
      exact inside (mem_filter.mp hx).2
    have unseen := reflects.unseen (k := k) fun r hr hk => inside (hk ▸ (mem_filter.mp hr).2)
    rw [overlayMemtable_of_not_mem absent, ExtTreeMap.getElem?_map, unseen.1]
    simp [inside]

theorem mem_scanAll (h : e.Readable) (order : IterOrder) :
    (k, v) ∈ e.scanAll order ↔ e.Current k v := by
  rw [scanAll, mem_scanAllWithPrefix h order none]
  simp [inPrefix]

theorem scanAllWithPrefix_ordered (e : Engine) (order : IterOrder) (pfx : Option Bytes) :
    (e.scanAllWithPrefix order pfx).Pairwise (fun a b => compare a.1 b.1 = .lt) :=
  ExtTreeMap.ordered_keys_toList

/-- A prefix scan is the part of the whole scan under the prefix, in any two orders. -/
theorem scanAllWithPrefix_eq_filter (h : e.Readable) (order order' : IterOrder) (pfx : Bytes) :
    e.scanAllWithPrefix order (some pfx) =
      (e.scanAll order').filter (fun r => pfx.isPrefixOf r.1) := by
  refine Bytes.eq_of_ordered_of_mem_iff Prod.fst (e.scanAllWithPrefix_ordered order (some pfx))
    ((e.scanAllWithPrefix_ordered order' none).filter _) ?_
  rintro ⟨k, v⟩
  rw [mem_filter, mem_scanAll h, mem_scanAllWithPrefix h, and_comm]
  rfl

end Scan

end Engine

end GalaxDb
