import GalaxDb.Storage.FlushLayout

/-!
# What a compaction keeps and where it puts it

The collector keeps rows of the input only, and the newest row of every key unless the
key is deleted. The builder writes every survivor once and its index targets name the
place of the latest version of each key.
-/

namespace GalaxDb.Compaction

open SstRow SurvivorRow List

section Collector

/-- No two versions of a key share a timestamp. -/
def OneEach (versions : List Version) : Prop :=
  ∀ a ∈ versions, ∀ b ∈ versions, a.timestamp = b.timestamp → a = b

theorem pairwise_sortByTs (versions : List Version) :
    (sortByTs versions).Pairwise (fun a b => a.timestamp ≤ b.timestamp) := by
  exact pairwise_insertionSort _ versions

theorem sublist_dedupFrom (last : Version) (versions : List Version) :
    (dedupFrom last versions).Sublist versions := by
  induction versions generalizing last with
  | nil => exact List.Sublist.refl _
  | cons v rest ih =>
    rw [dedupFrom]
    split
    · exact (ih last).cons v
    · exact (ih v).cons_cons v

theorem sublist_dedupByTs (versions : List Version) : (dedupByTs versions).Sublist versions := by
  cases versions with
  | nil => exact List.Sublist.refl _
  | cons v rest => exact (sublist_dedupFrom v rest).cons_cons v

variable {versions : List Version} {pins : List Timestamp} {latest v : Version}

theorem exists_mem_dedupFrom {last : Version} (hv : v ∈ last :: versions) :
    ∃ w ∈ last :: dedupFrom last versions, w.timestamp = v.timestamp := by
  induction versions generalizing last with
  | nil => exact ⟨v, hv, rfl⟩
  | cons a rest ih =>
    rw [dedupFrom]
    rcases mem_cons.mp hv with rfl | hv
    · exact ⟨v, mem_cons_self, rfl⟩
    by_cases same : a.timestamp = last.timestamp
    · rw [if_pos same]
      rcases mem_cons.mp hv with rfl | hv
      · exact ⟨last, mem_cons_self, same.symm⟩
      · exact ih (mem_cons_of_mem last hv)
    · rw [if_neg same]
      obtain ⟨w, hw, ht⟩ := ih hv
      exact ⟨w, mem_cons_of_mem last hw, ht⟩

theorem mem_dedupByTs (unique : OneEach versions) : v ∈ dedupByTs versions ↔ v ∈ versions := by
  refine ⟨fun h => (sublist_dedupByTs versions).subset h, fun hv => ?_⟩
  cases versions with
  | nil => exact hv
  | cons a rest =>
    obtain ⟨w, hw, ht⟩ := exists_mem_dedupFrom hv
    have hw' : w ∈ a :: rest := (sublist_dedupByTs (a :: rest)).subset hw
    exact unique w hw' v hv ht ▸ hw

theorem mem_history (unique : OneEach versions) : v ∈ history versions ↔ v ∈ versions := by
  have mem : ∀ w, w ∈ sortByTs versions ↔ w ∈ versions := fun w => mem_insertionSort _
  have unique' : OneEach (sortByTs versions) :=
    fun a ha b hb => unique a ((mem a).mp ha) b ((mem b).mp hb)
  rw [history, mem_dedupByTs unique', mem]

theorem pairwise_history (versions : List Version) :
    (history versions).Pairwise (fun a b => a.timestamp ≤ b.timestamp) :=
  (pairwise_sortByTs versions).sublist (sublist_dedupByTs _)

/-- The last element of a list sorted by timestamp is its newest. -/
theorem le_getLast (sorted : versions.Pairwise (fun a b => a.timestamp ≤ b.timestamp))
    (hl : versions.getLast? = some latest) (hv : v ∈ versions) :
    v.timestamp ≤ latest.timestamp := by
  obtain ⟨front, rfl⟩ := getLast?_eq_some_iff.mp hl
  rcases mem_append.mp hv with h | h
  · exact (pairwise_append.mp sorted).2.2 v h latest (by simp)
  · exact mem_singleton.mp h ▸ le_rfl

theorem exists_mem_history (hv : v ∈ versions) :
    ∃ w ∈ history versions, w.timestamp = v.timestamp := by
  have sorted : v ∈ sortByTs versions := (mem_insertionSort _).mpr hv
  unfold history
  cases hs : sortByTs versions with
  | nil =>
    rw [hs] at sorted
    cases sorted
  | cons a rest =>
    rw [hs] at sorted
    exact exists_mem_dedupFrom sorted

theorem history_subset (hv : v ∈ history versions) : v ∈ versions :=
  (mem_insertionSort _).mp ((sublist_dedupByTs _).subset hv)

/-- A version newer than all others is the last one of the history. -/
theorem getLast_history_of_lt (hl : latest ∈ versions)
    (newest : ∀ v ∈ versions, v ≠ latest → v.timestamp < latest.timestamp) :
    (history versions).getLast? = some latest := by
  have unique : ∀ w ∈ history versions, latest.timestamp ≤ w.timestamp → w = latest := by
    intro w hw le
    by_contra differs
    exact absurd (newest w (history_subset hw) differs) le.not_gt
  obtain ⟨w, hw, ts⟩ := exists_mem_history hl
  have inside : latest ∈ history versions := unique w hw ts.ge ▸ hw
  cases last : (history versions).getLast? with
  | none =>
    rw [getLast?_eq_none_iff] at last
    rw [last] at inside
    cases inside
  | some w =>
    have le := le_getLast (pairwise_history versions) last inside
    rw [unique w (mem_of_getLast? last) le]

theorem getLast_history (unique : OneEach versions) (hl : latest ∈ versions)
    (newest : ∀ v ∈ versions, v.timestamp ≤ latest.timestamp) :
    (history versions).getLast? = some latest := by
  refine getLast_history_of_lt hl ?_
  intro v hv differs
  exact Nat.lt_of_le_of_ne (newest v hv) (fun same => differs (unique v hv latest hl same))

theorem gcKey_eq (last : (history versions).getLast? = some latest) : gcKey pins versions =
      if latest.value = none ∧ kept pins versions latest = [latest] then []
      else kept pins versions latest := by
  simp only [gcKey, last]

theorem sublist_gcKey (pins : List Timestamp) (versions : List Version) :
    (gcKey pins versions).Sublist (history versions) := by
  unfold gcKey
  split
  · exact nil_sublist _
  · split
    · exact nil_sublist _
    · exact filter_sublist

theorem gcKey_subset (hv : v ∈ gcKey pins versions) : v ∈ versions :=
  history_subset ((sublist_gcKey pins versions).subset hv)

theorem mem_kept_latest (last : (history versions).getLast? = some latest) :
    latest ∈ kept pins versions latest :=
  mem_filter.mpr ⟨mem_of_getLast? last, by simp⟩

/-- A live version newer than all others survives. -/
theorem live_mem_gcKey (pins : List Timestamp) (hl : latest ∈ versions)
    (newest : ∀ v ∈ versions, v ≠ latest → v.timestamp < latest.timestamp)
    (live : latest.value ≠ none) : latest ∈ gcKey pins versions := by
  have last := getLast_history_of_lt hl newest
  rw [gcKey_eq last, if_neg (fun drop => live drop.1)]
  exact mem_kept_latest last

/-- The newest version of a key survives, or it is a tombstone and nothing survives. -/
theorem newest_mem_gcKey (pins : List Timestamp) (unique : OneEach versions)
    (hl : latest ∈ versions) (newest : ∀ v ∈ versions, v.timestamp ≤ latest.timestamp) :
    latest ∈ gcKey pins versions ∨ (gcKey pins versions = [] ∧ latest.value = none) := by
  have last := getLast_history unique hl newest
  rw [gcKey_eq last]
  by_cases drop : latest.value = none ∧ kept pins versions latest = [latest]
  · rw [if_pos drop]
    exact Or.inr ⟨rfl, drop.1⟩
  · rw [if_neg drop]
    exact Or.inl (mem_kept_latest last)

variable {pin : Timestamp}

/-- A version that some pin reads is kept. -/
theorem mem_kept_of_pin (unique : OneEach versions) (latest : Version) (hv : v ∈ versions)
    (hp : pin ∈ pins) (below : v.timestamp ≤ pin)
    (seen : ∀ w ∈ versions, w.timestamp ≤ pin → w.timestamp ≤ v.timestamp) :
    v ∈ kept pins versions latest := by
  refine mem_filter.mpr ⟨(mem_history unique).mpr hv, ?_⟩
  refine decide_eq_true (Or.inr ⟨pin, hp, ?_⟩)
  have inside : v ∈ (history versions).filter (fun w => w.timestamp ≤ pin) :=
    mem_filter.mpr ⟨(mem_history unique).mpr hv, by simpa using below⟩
  cases found : newestAt (history versions) pin with
  | none =>
    rw [newestAt, getLast?_eq_none_iff] at found
    rw [found] at inside
    cases inside
  | some w =>
    obtain ⟨hw, hwp⟩ := mem_filter.mp (mem_of_getLast? found)
    have hw' := (mem_history unique).mp hw
    have le := le_getLast ((pairwise_history versions).filter _) found inside
    have ge := seen w hw' (by simpa using hwp)
    rw [unique w hw' v hv (ge.antisymm le)]

/-- What a pin reads survives, or it is a tombstone and nothing survives. -/
theorem pinned_mem_gcKey (unique : OneEach versions) (hv : v ∈ versions) (hp : pin ∈ pins)
    (below : v.timestamp ≤ pin)
    (seen : ∀ w ∈ versions, w.timestamp ≤ pin → w.timestamp ≤ v.timestamp) :
    v ∈ gcKey pins versions ∨ (gcKey pins versions = [] ∧ v.value = none) := by
  cases last : (history versions).getLast? with
  | none =>
    have inside := (mem_history unique).mpr hv
    rw [getLast?_eq_none_iff.mp last] at inside
    cases inside
  | some latest =>
    have stays := mem_kept_of_pin unique latest hv hp below seen
    rw [gcKey_eq last]
    by_cases drop : latest.value = none ∧ kept pins versions latest = [latest]
    · rw [if_pos drop]
      rw [drop.2, mem_singleton] at stays
      exact Or.inr ⟨rfl, stays ▸ drop.1⟩
    · rw [if_neg drop]
      exact Or.inl stays

/-- Under a live latest version nothing is dropped wholesale. -/
theorem gcKey_ne_nil (pins : List Timestamp) (unique : OneEach versions) (hl : latest ∈ versions)
    (newest : ∀ v ∈ versions, v.timestamp ≤ latest.timestamp) (live : latest.value ≠ none) :
    gcKey pins versions ≠ [] := by
  rcases newest_mem_gcKey pins unique hl newest with stays | ⟨_, dead⟩
  · exact ne_nil_of_mem stays
  · exact absurd dead live

theorem latest_of_gcKey (unique : OneEach versions) (hv : (gcKey pins versions).getLast? = some v) :
    ∀ w ∈ versions, w.timestamp ≤ v.timestamp := by
  intro w hw
  have inside := (mem_history unique).mpr hw
  cases last : (history versions).getLast? with
  | none =>
    rw [getLast?_eq_none_iff] at last
    rw [last] at inside
    cases inside
  | some latest =>
    rw [gcKey_eq last] at hv
    split at hv
    · cases hv
    · have sorted := (pairwise_history versions).filter
        (fun v => decide (v = latest ∨ ∃ p ∈ pins, newestAt (history versions) p = some v))
      exact (le_getLast (pairwise_history versions) last inside).trans
        (le_getLast sorted hv (mem_kept_latest last))

end Collector

section Survivors

open Row

/-- A row as a version of its key. -/
def versionOf (r : SstRow) : Version := ⟨r.ts, r.toRow.val⟩

theorem foldl_addVersion (rows : List SstRow) (versions : VersionMap) (k : Bytes) :
    (rows.foldl addVersion versions)[k]?.getD [] =
      versions[k]?.getD [] ++ (rows.filter (fun r => r.key = k)).map versionOf := by
  induction rows generalizing versions with
  | nil => simp
  | cons r rest ih =>
    rw [foldl_cons, ih]
    by_cases hk : r.key = k
    · subst hk
      simp [addVersion, versionOf]
    · simp [addVersion, Std.ExtTreeMap.getElem?_insert, hk]

/-- The versions of a key among the rows of the input files. -/
def versionsOf (rows : List SstRow) (k : Bytes) : List Version :=
  (rows.filter (fun r => r.key = k)).map versionOf

variable {s : SurvivorRow} {rows : List SstRow}

variable {x : Row Bytes Bytes} {k : Bytes}

theorem mem_versionsOf {v : Version} :
    v ∈ versionsOf rows k ↔ (⟨k, v.timestamp, v.value⟩ : Row Bytes Bytes) ∈ rows.map toRow := by
  simp only [versionsOf, mem_map, mem_filter, decide_eq_true_eq]
  constructor
  · rintro ⟨r, ⟨hr, rfl⟩, rfl⟩
    exact ⟨r, hr, rfl⟩
  · rintro ⟨r, hr, heq⟩
    refine ⟨r, ⟨hr, congrArg Row.key heq⟩, ?_⟩
    have ts : r.ts = v.timestamp := congrArg Row.ts heq
    have val : r.toRow.val = v.value := congrArg Row.val heq
    rw [versionOf, ts, val]

theorem oneEach_versionsOf (distinct : Distinct (rows.map toRow)) (k : Bytes) :
    OneEach (versionsOf rows k) := by
  intro a ha b hb ht
  have same := distinct _ (mem_versionsOf.mp ha) _ (mem_versionsOf.mp hb) rfl ht
  cases a
  simp_all

/-- The rows that survive a compaction of the given rows. -/
def collect (pins : List Timestamp) (rows : List SstRow) : List SurvivorRow :=
  survivors pins (rows.foldl addVersion ∅)

theorem versions_getD (rows : List SstRow) (k : Bytes) :
    (rows.foldl addVersion ∅)[k]?.getD [] = versionsOf rows k := by
  rw [foldl_addVersion]
  simp [versionsOf]

theorem mem_collect {pins : List Timestamp} :
    s ∈ collect pins rows ↔ (⟨s.ts, s.value⟩ : Version) ∈ gcKey pins (versionsOf rows s.key) := by
  rw [← versions_getD]
  simp only [collect, survivors, mem_flatMap, mem_map, Prod.exists,
    Std.ExtTreeMap.mem_toList_iff_getElem?_eq_some]
  constructor
  · rintro ⟨k, vs, hvs, v, hv, rfl⟩
    rw [hvs]
    exact hv
  · intro h
    cases hvs : (rows.foldl addVersion ∅)[s.key]? with
    | none =>
      rw [hvs] at h
      cases h
    | some vs =>
      rw [hvs] at h
      exact ⟨s.key, vs, hvs, _, h, rfl⟩

theorem latestTs_eq (pins : List Timestamp) (rows : List SstRow) (k : Bytes) :
    latestTs pins (rows.foldl addVersion ∅) k =
      ((gcKey pins (versionsOf rows k)).getLast?).map Version.timestamp := by
  rw [← versions_getD, latestTs]
  cases (rows.foldl addVersion ∅)[k]? <;> rfl

/-- A survivor is stored as the row it came from. -/
theorem toRow_toSstRow (h : s.value ≠ some []) : s.toSstRow.toRow = ⟨s.key, s.ts, s.value⟩ := by
  obtain ⟨key, ts, value⟩ := s
  cases value with
  | none => rfl
  | some v =>
    have nonempty : v ≠ [] := fun h' => h (by rw [h'])
    simp [toSstRow, toRow, nonempty]

theorem toRow_val_ne (r : SstRow) : r.toRow.val ≠ some [] := by
  unfold toRow
  split
  · simp
  · rename_i h
    simpa using h

variable {pins : List Timestamp} {rows : List SstRow}

theorem collect_value_ne (hs : s ∈ collect pins rows) : s.value ≠ some [] := by
  have hv := gcKey_subset (mem_collect.mp hs)
  obtain ⟨r, _, heq⟩ := mem_map.mp (mem_versionsOf.mp hv)
  have val : r.toRow.val = s.value := congrArg Row.val heq
  exact val ▸ toRow_val_ne r

/-- The rows written by a compaction, as readers understand them. -/
theorem mem_collect_toRow : x ∈ ((collect pins rows).map toSstRow).map toRow ↔
      (⟨x.ts, x.val⟩ : Version) ∈ gcKey pins (versionsOf rows x.key) := by
  rw [map_map, mem_map]
  constructor
  · rintro ⟨s, hs, rfl⟩
    have eq := toRow_toSstRow (collect_value_ne hs)
    simp only [Function.comp, eq]
    exact mem_collect.mp hs
  · intro h
    have hs : (⟨x.key, x.ts, x.val⟩ : SurvivorRow) ∈ collect pins rows := mem_collect.mpr h
    exact ⟨_, hs, toRow_toSstRow (collect_value_ne hs)⟩

theorem collect_subset (hx : x ∈ ((collect pins rows).map toSstRow).map toRow) :
    x ∈ rows.map toRow :=
  mem_versionsOf.mp (gcKey_subset (mem_collect_toRow.mp hx))

/-- The newest row of a key survives, or the key is deleted and gone from the files. -/
theorem newest_collect (pins : List Timestamp) (distinct : Distinct (rows.map toRow))
    {n : Row Bytes Bytes} (hn : Newest (rows.map toRow) k n) :
    n ∈ ((collect pins rows).map toSstRow).map toRow ∨
      (n.val = none ∧ ∀ x ∈ ((collect pins rows).map toSstRow).map toRow, x.key ≠ k) := by
  obtain ⟨hmem, rfl, hmax⟩ := hn
  have unique := oneEach_versionsOf distinct n.key
  have inside : (⟨n.ts, n.val⟩ : Version) ∈ versionsOf rows n.key := mem_versionsOf.mpr hmem
  have newest : ∀ v ∈ versionsOf rows n.key, v.timestamp ≤ n.ts :=
    fun v hv => hmax _ (mem_versionsOf.mp hv) rfl
  rcases newest_mem_gcKey pins unique inside newest with h | ⟨gone, dead⟩
  · exact Or.inl (mem_collect_toRow.mpr h)
  · refine Or.inr ⟨dead, ?_⟩
    intro x hx hk
    have := mem_collect_toRow.mp hx
    rw [hk, gone] at this
    cases this

/-- The index targets are the survivors that are the newest row of their key. -/
theorem latestTs_iff (distinct : Distinct (rows.map toRow)) (hs : s ∈ collect pins rows) :
    latestTs pins (rows.foldl addVersion ∅) s.key = some s.ts ↔
      ∀ x ∈ rows.map toRow, x.key = s.key → x.ts ≤ s.ts := by
  have unique := oneEach_versionsOf distinct s.key
  have hv := mem_collect.mp hs
  rw [latestTs_eq, Option.map_eq_some_iff]
  constructor
  · rintro ⟨v, hlast, hts⟩ x hx hk
    refine hts ▸ latest_of_gcKey unique hlast ⟨x.ts, x.val⟩ (mem_versionsOf.mpr ?_)
    exact hk ▸ hx
  · intro newest
    cases hlast : (gcKey pins (versionsOf rows s.key)).getLast? with
    | none =>
      rw [getLast?_eq_none_iff] at hlast
      rw [hlast] at hv
      cases hv
    | some v =>
      refine ⟨v, rfl, Nat.le_antisymm ?_ ?_⟩
      · have hvm := gcKey_subset (mem_of_getLast? hlast)
        exact newest _ (mem_versionsOf.mp hvm) rfl
      · exact latest_of_gcKey unique hlast _ (gcKey_subset hv)

end Survivors

section Builder

theorem flatten_chunks {α : Type*} (size : Nat) (current l : List α) :
    (chunks size current l).flatten = current ++ l := by
  induction l generalizing current with
  | nil => cases current <;> simp [chunks]
  | cons a rest ih =>
    rw [chunks]
    split
    · simp [ih]
    · simp [ih]

theorem flatten_workerChunks (concurrency : Nat) (rows : List SurvivorRow) :
    (workerChunks concurrency rows).flatten = rows := by
  simp [workerChunks, flatten_chunks]

variable {registrations : List ColumnarRegistration} {maxRows : Nat}

theorem blockEnd_pos (positive : 0 < maxRows) (first : SurvivorRow) (rest : List SurvivorRow) :
    0 < blockEnd registrations maxRows first (first :: rest) := by
  have window : 0 < ((first :: rest).take maxRows).length := by
    rw [length_take, length_cons]
    omega
  unfold blockEnd
  simp only
  split
  · split
    · assumption
    · exact window
  · exact window

/-- An output holds exactly these rows, and its targets are the places of those that are
the latest version of their key. -/
structure Writes (latest : Bytes → Option Timestamp) (rows : List SurvivorRow)
    (out : CompactionOutput) : Prop where
  rows_eq : SstFile.rows out.blocks = rows.map toSstRow
  sound : ∀ t ∈ out.artTargets, ∃ s ∈ rows, s.key = t.1 ∧ latest s.key = some s.ts ∧
    out.blocks.rowAt t.2.1 t.2.2 = some s.toSstRow
  complete : ∀ s ∈ rows, latest s.key = some s.ts → ∃ t ∈ out.artTargets, t.1 = s.key
  zoned : ∀ b ∈ out.blocks, Engine.Zoned b

variable {latest : Bytes → Option Timestamp}

theorem writes_nil : Writes latest [] ⟨[], []⟩ :=
  ⟨rfl, by simp, by simp, by simp⟩

theorem mem_blockTargets {blockIndex : Nat} {chunk : List SurvivorRow} {t : Bytes × Nat × Nat} :
    t ∈ blockTargets latest blockIndex chunk ↔ t.2.1 = blockIndex ∧
      ∃ s, chunk[t.2.2]? = some s ∧ latest s.key = some s.ts ∧ s.key = t.1 := by
  obtain ⟨k, b, r⟩ := t
  simp only [blockTargets, mem_filterMap, Prod.exists, mem_zipIdx_iff_getElem?,
    Option.ite_none_right_eq_some, Option.some.injEq, Prod.mk.injEq]
  constructor
  · rintro ⟨s, i, hs, hl, rfl, rfl, rfl⟩
    exact ⟨rfl, s, hs, hl, rfl⟩
  · rintro ⟨rfl, s, hs, hl, rfl⟩
    exact ⟨s, r, hs, hl, rfl, rfl, rfl⟩

variable {rows : List SurvivorRow} {targets : List (Bytes × Nat × Nat)}
  {outputs : List CompactionOutput} {current : SstFile}

/-- One more block in an output. -/
theorem Writes.snoc (h : Writes latest rows ⟨current, targets⟩)
    (registrations : List ColumnarRegistration) (blockId : Nat) (first : SurvivorRow)
    (chunk : List SurvivorRow) :
    Writes latest (rows ++ chunk) ⟨current ++ [runBlock registrations blockId first chunk],
        targets ++ blockTargets latest current.length chunk⟩ := by
  refine ⟨?_, ?_, ?_, ?_⟩
  · have old := h.rows_eq
    simp only [SstFile.rows] at old ⊢
    simp [old, runBlock, PaxBlock.write]
  · intro t ht
    rcases mem_append.mp ht with ht | ht
    · obtain ⟨s, hs, hk, hl, place⟩ := h.sound t ht
      refine ⟨s, mem_append_left _ hs, hk, hl, ?_⟩
      obtain ⟨b, hb, hr⟩ := Option.bind_eq_some_iff.mp place
      have inside : t.2.1 < current.length := (List.getElem?_eq_some_iff.mp hb).1
      rw [SstFile.rowAt, getElem?_append_left inside, hb]
      exact hr
    · obtain ⟨hb, s, hs, hl, hk⟩ := mem_blockTargets.mp ht
      refine ⟨s, mem_append_right _ (mem_of_getElem? hs), hk, hl, ?_⟩
      simp [SstFile.rowAt, hb, runBlock, PaxBlock.write, hs]
  · intro s hs hl
    rcases mem_append.mp hs with hs | hs
    · obtain ⟨t, ht, hk⟩ := h.complete s hs hl
      exact ⟨t, mem_append_left _ ht, hk⟩
    · obtain ⟨i, hi⟩ := getElem?_of_mem hs
      refine ⟨(s.key, current.length, i), mem_append_right _ ?_, rfl⟩
      exact mem_blockTargets.mpr ⟨rfl, s, hi, hl, rfl⟩
  · intro b hb
    rcases mem_append.mp hb with hb | hb
    · exact h.zoned b hb
    · rw [mem_singleton.mp hb]
      exact Engine.zoned_write _ _ _ _

/-- The outputs share the rows out among them. -/
def Splits (latest : Bytes → Option Timestamp) (rows : List SurvivorRow)
    (outputs : List CompactionOutput) : Prop :=
  ∃ parts : List (List SurvivorRow), parts.flatten = rows ∧
    List.Forall₂ (Writes latest) parts outputs

theorem Splits.mem_rows (h : Splits latest rows outputs) (r : SstRow) :
    (∃ out ∈ outputs, r ∈ SstFile.rows out.blocks) ↔ r ∈ rows.map toSstRow := by
  obtain ⟨parts, rfl, each⟩ := h
  induction each with
  | nil => simp
  | cons head _ ih =>
    simp only [mem_cons, exists_eq_or_imp, ih, head.rows_eq, flatten_cons, map_append, mem_append]

theorem Splits.exists_part (h : Splits latest rows outputs) {out : CompactionOutput}
    (hout : out ∈ outputs) : ∃ part, part ⊆ rows ∧ Writes latest part out := by
  obtain ⟨parts, rfl, each⟩ := h
  induction each with
  | nil => cases hout
  | @cons part o parts outs head _ ih =>
    rcases mem_cons.mp hout with rfl | hout
    · exact ⟨part, by simp, head⟩
    · obtain ⟨p, hp, w⟩ := ih hout
      refine ⟨p, ?_, w⟩
      exact fun s hs => mem_append_right _ (hp hs)

theorem Splits.complete (h : Splits latest rows outputs) {s : SurvivorRow} (hs : s ∈ rows)
    (hl : latest s.key = some s.ts) : ∃ out ∈ outputs, ∃ t ∈ out.artTargets, t.1 = s.key := by
  obtain ⟨parts, rfl, each⟩ := h
  induction each with
  | nil => simp at hs
  | @cons part o parts outs head _ ih =>
    rcases mem_append.mp hs with hs | hs
    · exact ⟨o, mem_cons_self, head.complete s hs hl⟩
    · obtain ⟨out, hout, t⟩ := ih hs
      exact ⟨out, mem_cons_of_mem _ hout, t⟩

variable {before : List SurvivorRow}

theorem splits_last (pending : Writes latest before ⟨current, targets⟩) :
    Splits latest before (if current = [] then [] else [⟨current, targets⟩]) := by
  by_cases empty : current = []
  · have none_before : before = [] := by
      have rows := pending.rows_eq
      simp only [empty] at rows
      exact map_eq_nil_iff.mp rows.symm
    rw [if_pos empty, none_before]
    exact ⟨[], rfl, List.Forall₂.nil⟩
  · rw [if_neg empty]
    exact ⟨[before], by simp, List.Forall₂.cons pending List.Forall₂.nil⟩

theorem Splits.cons {rows rest : List SurvivorRow} {out : CompactionOutput}
    {outputs : List CompactionOutput} (h : Writes latest rows out)
    (t : Splits latest rest outputs) : Splits latest (rows ++ rest) (out :: outputs) := by
  obtain ⟨parts, flat, each⟩ := t
  exact ⟨rows :: parts, by simp [flat], List.Forall₂.cons h each⟩

theorem Splits.append {rows rest : List SurvivorRow} {outputs outputs' : List CompactionOutput}
    (h : Splits latest rows outputs) (t : Splits latest rest outputs') :
    Splits latest (rows ++ rest) (outputs ++ outputs') := by
  obtain ⟨parts, flat, each⟩ := h
  obtain ⟨parts', flat', each'⟩ := t
  exact ⟨parts ++ parts', by simp [flat, flat'], rel_append each each'⟩

theorem splits_buildRunLoop {blockLen : PaxBlock → Nat} {sstSizeBytes : Nat}
    (positive : 0 < maxRows) {fuel : Nat} {blockId len : Nat}
    (pending : Writes latest before ⟨current, targets⟩) (enough : rows.length ≤ fuel) :
    Splits latest (before ++ rows) (buildRunLoop blockLen latest sstSizeBytes maxRows
      registrations fuel blockId current len targets rows) := by
  induction fuel generalizing before rows blockId len current targets with
  | zero =>
    obtain rfl : rows = [] := length_eq_zero_iff.mp (Nat.le_zero.mp enough)
    rw [append_nil]
    exact splits_last pending
  | succ fuel ih =>
    cases rows with
    | nil =>
      rw [append_nil]
      exact splits_last pending
    | cons first rest =>
      generalize hstop : blockEnd registrations maxRows first (first :: rest) = stop
      have advance : 0 < stop := hstop ▸ blockEnd_pos positive first rest
      have fewer : ((first :: rest).drop stop).length ≤ fuel := by
        rw [length_drop]
        omega
      have written := pending.snoc registrations blockId first ((first :: rest).take stop)
      have cut : before ++ first :: rest =
          before ++ (first :: rest).take stop ++ (first :: rest).drop stop := by
        rw [append_assoc, take_append_drop]
      rw [cut]
      simp only [buildRunLoop, hstop]
      split
      · exact Splits.cons written (ih writes_nil fewer)
      · exact ih written fewer

theorem splits_buildRun (blockLen : PaxBlock → Nat) (sstSizeBytes maxRowsPerBlock : Nat)
    (rows : List SurvivorRow) :
    Splits latest rows
      (buildRun blockLen latest sstSizeBytes maxRowsPerBlock registrations rows) := by
  exact splits_buildRunLoop (le_max_right maxRowsPerBlock 1) writes_nil le_rfl

/-- All workers together. -/
theorem splits_workers (blockLen : PaxBlock → Nat) (sstSizeBytes maxRowsPerBlock : Nat)
    (parts : List (List SurvivorRow)) :
    Splits latest parts.flatten (parts.flatMap
      (buildRun blockLen latest sstSizeBytes maxRowsPerBlock registrations)) := by
  induction parts with
  | nil => exact ⟨[], rfl, List.Forall₂.nil⟩
  | cons part rest ih =>
    exact (splits_buildRun blockLen sstSizeBytes maxRowsPerBlock part).append ih

end Builder

end GalaxDb.Compaction
