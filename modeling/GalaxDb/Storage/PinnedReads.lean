import GalaxDb.Storage.EngineRun
import Mathlib.Data.List.MinMax
import Mathlib.Order.WithBot

/-!
# What readers lose to a compaction

A reader at a timestamp, or one without a bound, sees the newest row of a key among those
it may read. The rows a compaction writes show every pinned reader and the unbounded one
the same values as the rows it has read.
-/

namespace Row

variable {κ ν : Type*}

/-- The rows a reader at `p` may see. -/
def seen (p : WithTop Nat) (rows : List (Row κ ν)) : List (Row κ ν) :=
  rows.filter (fun r => (r.ts : WithTop Nat) ≤ p)

@[simp] theorem mem_seen {p : WithTop Nat} {rows : List (Row κ ν)} {r : Row κ ν} :
    r ∈ seen p rows ↔ r ∈ rows ∧ (r.ts : WithTop Nat) ≤ p := by
  simp [seen]

/-- The value a reader at `p` sees: that of the row with the greatest write time. -/
def readAt [DecidableEq κ] (rows : List (Row κ ν)) (k : κ) (p : WithTop Nat) : Option ν :=
  (((seen p rows).filter (fun r => r.key = k)).argmax Row.ts).bind Row.val

variable [DecidableEq κ] {rows rows' : List (Row κ ν)} {k : κ} {p : WithTop Nat}

theorem readAt_of_newest (distinct : Distinct rows) {n : Row κ ν} (hn : Newest (seen p rows) k n) :
    readAt rows k p = n.val := by
  have inside : n ∈ (seen p rows).filter (fun r => r.key = k) :=
    List.mem_filter.mpr ⟨hn.1, by simpa using hn.2.1⟩
  cases found : ((seen p rows).filter (fun r => r.key = k)).argmax Row.ts with
  | none =>
    rw [List.argmax_eq_none.mp found] at inside
    cases inside
  | some w =>
    obtain ⟨hw, hk⟩ := List.mem_filter.mp (List.argmax_mem found)
    have key : w.key = k := by simpa using hk
    have ge := List.le_of_mem_argmax inside found
    have same := distinct w (mem_seen.mp hw).1 n (mem_seen.mp hn.1).1
      (key.trans hn.2.1.symm) (Nat.le_antisymm (hn.2.2 w hw key) ge)
    rw [readAt, found, same]
    rfl

theorem readAt_eq_none (absent : ∀ r ∈ seen p rows, r.key ≠ k) : readAt rows k p = none := by
  have empty : (seen p rows).filter (fun r => r.key = k) = [] :=
    List.filter_eq_nil_iff.mpr (fun r hr => by simpa using absent r hr)
  rw [readAt, empty]
  rfl

/-- A part of the rows reads the same if it has what is read, unless that is a tombstone
whose key is gone from the part. -/
theorem readAt_of_kept (distinct : Distinct rows) (sub : ∀ r ∈ rows', r ∈ rows)
    (kept : ∀ n, Newest (seen p rows) k n → n ∈ rows' ∨ (n.val = none ∧ ∀ r ∈ rows', r.key ≠ k)) :
    readAt rows' k p = readAt rows k p := by
  have sub' : ∀ r ∈ seen p rows', r ∈ seen p rows := by
    intro r hr
    exact mem_seen.mpr ⟨sub r (mem_seen.mp hr).1, (mem_seen.mp hr).2⟩
  by_cases some_row : ∃ r ∈ seen p rows, r.key = k
  · obtain ⟨n, hn⟩ := exists_newest some_row
    rw [readAt_of_newest distinct hn]
    rcases kept n hn with stays | ⟨dead, gone⟩
    · refine readAt_of_newest (distinct.sublist sub) ⟨?_, hn.2.1, ?_⟩
      · exact mem_seen.mpr ⟨stays, (mem_seen.mp hn.1).2⟩
      · exact fun r hr => hn.2.2 r (sub' r hr)
    · rw [dead]
      exact readAt_eq_none (fun r hr => gone r (mem_seen.mp hr).1)
  · have absent : ∀ r ∈ seen p rows, r.key ≠ k := fun r hr hk => some_row ⟨r, hr, hk⟩
    rw [readAt_eq_none absent, readAt_eq_none (fun r hr => absent r (sub' r hr))]

end Row

namespace GalaxDb

open Row

namespace Compaction

def SurvivorRow.toRow (s : SurvivorRow) : Row Bytes Bytes := ⟨s.key, s.ts, s.value⟩

open SurvivorRow

/-- By key, and the versions of a key by age. -/
def SurvivorRow.Before (a b : SurvivorRow) : Prop :=
  compare a.key b.key = .lt ∨ (a.key = b.key ∧ a.ts < b.ts)

theorem pairwise_dedupFrom {last : Version} {versions : List Version}
    (sorted : (last :: versions).Pairwise (fun a b => a.timestamp ≤ b.timestamp)) :
    (last :: dedupFrom last versions).Pairwise (fun a b => a.timestamp < b.timestamp) := by
  induction versions generalizing last with
  | nil => simp [dedupFrom]
  | cons v rest ih =>
    have le := (List.pairwise_cons.mp sorted).1
    have tail := (List.pairwise_cons.mp sorted).2
    rw [dedupFrom]
    by_cases same : v.timestamp = last.timestamp
    · rw [if_pos same]
      apply ih
      refine List.pairwise_cons.mpr ⟨?_, (List.pairwise_cons.mp tail).2⟩
      exact fun w hw => le w (List.mem_cons_of_mem v hw)
    · rw [if_neg same]
      have newer := ih tail
      refine List.pairwise_cons.mpr ⟨?_, newer⟩
      intro w hw
      have first : last.timestamp < v.timestamp :=
        lt_of_le_of_ne (le v List.mem_cons_self) (fun h => same h.symm)
      rcases List.mem_cons.mp hw with rfl | hw
      · exact first
      · exact first.trans ((List.pairwise_cons.mp newer).1 w hw)

theorem pairwise_history_lt (versions : List Version) :
    (history versions).Pairwise (fun a b => a.timestamp < b.timestamp) := by
  have sorted := pairwise_sortByTs versions
  unfold history
  cases hs : sortByTs versions with
  | nil => exact List.Pairwise.nil
  | cons v rest =>
    rw [hs] at sorted
    exact pairwise_dedupFrom sorted

/-- The survivors come by key and age, so no row is among them twice. -/
theorem pairwise_survivors (pins : List Timestamp) (versions : VersionMap) :
    (survivors pins versions).Pairwise SurvivorRow.Before := by
  refine List.pairwise_flatMap.mpr ⟨?_, ?_⟩
  · intro entry _
    refine List.pairwise_map.mpr ?_
    have sorted := (pairwise_history_lt entry.2).sublist (sublist_gcKey pins entry.2)
    exact sorted.imp (fun h => Or.inr ⟨rfl, h⟩)
  · refine Std.ExtTreeMap.ordered_keys_toList.imp ?_
    intro a b lt s hs t ht
    obtain ⟨v, _, rfl⟩ := List.mem_map.mp hs
    obtain ⟨w, _, rfl⟩ := List.mem_map.mp ht
    exact Or.inl lt

section Reads

variable {pins : List Timestamp} {rows : List SstRow}

/-- What a pinned or unbounded reader sees survives, or its key is deleted and gone. -/
theorem read_mem_collect (distinct : Distinct (rows.map SstRow.toRow)) {p : WithTop Nat}
    (readable : p = ⊤ ∨ ∃ pin ∈ pins, p = (pin : WithTop Nat)) {k : Bytes} {n : Row Bytes Bytes}
    (hn : Newest (seen p (rows.map SstRow.toRow)) k n) :
    n ∈ (collect pins rows).map toRow ∨
      (n.val = none ∧ ∀ r ∈ (collect pins rows).map toRow, r.key ≠ k) := by
  obtain ⟨hmem, rfl, hmax⟩ := hn
  have unique := oneEach_versionsOf distinct n.key
  have inside : (⟨n.ts, n.val⟩ : Version) ∈ versionsOf rows n.key :=
    mem_versionsOf.mpr (mem_seen.mp hmem).1
  have newest : ∀ v ∈ versionsOf rows n.key, (v.timestamp : WithTop Nat) ≤ p → v.timestamp ≤ n.ts :=
    fun v hv below => hmax _ (mem_seen.mpr ⟨mem_versionsOf.mp hv, below⟩) rfl
  have outcome : (⟨n.ts, n.val⟩ : Version) ∈ gcKey pins (versionsOf rows n.key) ∨
      (gcKey pins (versionsOf rows n.key) = [] ∧ n.val = none) := by
    rcases readable with rfl | ⟨pin, hp, rfl⟩
    · exact newest_mem_gcKey pins unique inside (fun v hv => newest v hv le_top)
    · refine pinned_mem_gcKey unique inside hp ?_ ?_
      · exact WithTop.coe_le_coe.mp (mem_seen.mp hmem).2
      · exact fun w hw below => newest w hw (WithTop.coe_le_coe.mpr below)
  rcases outcome with stays | ⟨gone, dead⟩
  · exact Or.inl (List.mem_map.mpr ⟨⟨n.key, n.ts, n.val⟩, mem_collect.mpr stays, rfl⟩)
  · refine Or.inr ⟨dead, ?_⟩
    intro r hr hk
    obtain ⟨s, hs, rfl⟩ := List.mem_map.mp hr
    have key : s.key = n.key := hk
    have left := mem_collect.mp hs
    rw [key, gone] at left
    cases left

theorem collect_mem_input {r : Row Bytes Bytes}
    (hr : r ∈ (collect pins rows).map toRow) : r ∈ rows.map SstRow.toRow := by
  obtain ⟨s, hs, rfl⟩ := List.mem_map.mp hr
  exact mem_versionsOf.mp (gcKey_subset (mem_collect.mp hs))

/-- The rows that are written say what the survivors say. -/
theorem map_toSstRow : ((collect pins rows).map toSstRow).map SstRow.toRow =
      (collect pins rows).map toRow := by
  rw [List.map_map]
  refine List.map_congr_left ?_
  intro s hs
  exact toRow_toSstRow (collect_value_ne hs)

end Reads

/-- The files that the workers build from the survivors, worker by worker. -/
def buildOutputs (blockLen : PaxBlock → Nat) (concurrency sstSizeBytes maxRowsPerBlock : Nat)
    (registrations : List ColumnarRegistration) (pins : List Timestamp) (rows : List SstRow) :
    List CompactionOutput :=
  (workerChunks concurrency (collect pins rows)).flatMap
    (buildRun blockLen (latestTs pins (rows.foldl addVersion ∅)) sstSizeBytes maxRowsPerBlock
      registrations)

theorem Splits.rows_eq {latest : Bytes → Option Timestamp} {rows : List SurvivorRow}
    {outputs : List CompactionOutput} (h : Splits latest rows outputs) :
    outputs.flatMap (fun out => SstFile.rows out.blocks) = rows.map toSstRow := by
  obtain ⟨parts, rfl, each⟩ := h
  induction each with
  | nil => rfl
  | cons head _ ih => rw [List.flatMap_cons, ih, head.rows_eq, List.flatten_cons, List.map_append]

theorem rows_buildOutputs (blockLen : PaxBlock → Nat)
    (concurrency sstSizeBytes maxRowsPerBlock : Nat) (registrations : List ColumnarRegistration)
    (pins : List Timestamp) (rows : List SstRow) :
    ((buildOutputs blockLen concurrency sstSizeBytes maxRowsPerBlock registrations pins
      rows).flatMap (fun out => SstFile.rows out.blocks)).map SstRow.toRow =
      (collect pins rows).map toRow := by
  have split : Splits (latestTs pins (rows.foldl addVersion ∅))
      (workerChunks concurrency (collect pins rows)).flatten
      (buildOutputs blockLen concurrency sstSizeBytes maxRowsPerBlock registrations pins rows) :=
    splits_workers _ _ _ _
  rw [flatten_workerChunks] at split
  rw [split.rows_eq, map_toSstRow]

/-- A compaction of any rows, under any pins and any configuration. -/
theorem compaction_keeps_pinned_reads (pins : List Timestamp) (rows : List SstRow)
    (distinct : Distinct (rows.map SstRow.toRow)) (blockLen : PaxBlock → Nat)
    (concurrency sstSizeBytes maxRowsPerBlock : Nat)
    (registrations : List ColumnarRegistration) :
    (∀ p : WithTop Nat, (p = ⊤ ∨ ∃ pin ∈ pins, p = (pin : WithTop Nat)) → ∀ k,
      readAt ((collect pins rows).map toRow) k p = readAt (rows.map SstRow.toRow) k p) ∧
    (∀ r ∈ (collect pins rows).map toRow, r ∈ rows.map SstRow.toRow) ∧
    ((buildOutputs blockLen concurrency sstSizeBytes maxRowsPerBlock registrations pins
      rows).flatMap (fun out => SstFile.rows out.blocks)).map SstRow.toRow =
        (collect pins rows).map toRow ∧
    (collect pins rows).Pairwise SurvivorRow.Before := by
  refine ⟨?_, fun r => collect_mem_input, ?_, pairwise_survivors pins _⟩
  · intro p readable k
    apply readAt_of_kept distinct (fun r => collect_mem_input)
    exact fun n hn => read_mem_collect distinct readable hn
  · exact rows_buildOutputs blockLen concurrency sstSizeBytes maxRowsPerBlock registrations pins
      rows

/-- One key deleted above a pin, one overwritten. -/
def pinnedRows : List SstRow :=
  [⟨[1], [7], 2⟩, ⟨[2], [8], 3⟩, ⟨[1], [], 5⟩, ⟨[2], [9], 6⟩]

theorem compaction_keeps_pinned_rows : Distinct (pinnedRows.map SstRow.toRow) ∧
      (∀ k, readAt ((collect [4] pinnedRows).map toRow) k (4 : Nat) =
        readAt (pinnedRows.map SstRow.toRow) k (4 : Nat)) ∧
      readAt (pinnedRows.map SstRow.toRow) [1] (4 : Nat) = some [7] := by
  have distinct : Distinct (pinnedRows.map SstRow.toRow) := by decide
  have kept := compaction_keeps_pinned_reads [4] pinnedRows distinct (fun _ => 1) 2 1 1 []
  refine ⟨distinct, fun k => kept.1 (4 : Nat) (Or.inr ⟨4, ?_, rfl⟩) k, ?_⟩
  · exact List.mem_singleton_self 4
  · decide

end Compaction

end GalaxDb
