import GalaxDb.Lib.Codes
import GalaxDb.Lib.Matching
import GalaxDb.Storage.History

/-!
# The root of a version tag

A tag stores the hash of the sorted checksums of all rows that are visible at its timestamp.
A checksum is taken of the key, a separator and the value; the separator may occur in both,
so two snapshots with other rows can have the same root.
-/

namespace GalaxDb.Versioning.SnapshotRoot

open Bytes Codes Matching Engine List

section Model

variable {H : Type}

def separator : UInt8 := 0xff

/-- The bytes of a row that are hashed. -/
def joined (row : Bytes × Bytes) : Bytes := row.1 ++ separator :: row.2

/-- The rows of a scan, in whatever order the map lists them. -/
def snapshotChecksums (xxh3_64 : Bytes → UInt64) (listed : List (Bytes × Bytes × Timestamp)) :
    List UInt64 :=
  listed.map fun r => xxh3_64 (joined (r.1, r.2.1))

def sortChecksums (checksums : List UInt64) : List UInt64 := checksums.mergeSort fun a b => a ≤ b

def checksumBytes (checksum : UInt64) : Bytes := toLe 8 checksum.toNat

def merkleData (checksums : List UInt64) : Bytes := (sortChecksums checksums).flatMap checksumBytes

/-- `MerkleRoot::compute`. -/
def compute (xxh3_128 : Bytes → H) (checksums : List UInt64) : H := xxh3_128 (merkleData checksums)

/-- The pairs of key and value that a scan lists. -/
def pairs (listed : List (Bytes × Bytes × Timestamp)) : List (Bytes × Bytes) :=
  listed.map fun r => (r.1, r.2.1)

/-- What an engine shows at a timestamp. -/
def visiblePairs (e : Engine) (order : IterOrder) (ts : Timestamp) : Set (Bytes × Bytes) :=
  { p | p ∈ pairs (e.scanAllAt order ts) }

end Model

/-- The separator of one row stands at another one of its places in the other row. -/
def Moved (p q : Bytes × Bytes) : Prop :=
  ∃ w, (q.1 = p.1 ++ separator :: w ∧ p.2 = w ++ separator :: q.2) ∨
    (p.1 = q.1 ++ separator :: w ∧ q.2 = w ++ separator :: p.2)

variable {p q : Bytes × Bytes}

theorem Moved.ne (moved : Moved p q) : p ≠ q := by
  rintro rfl
  obtain ⟨w, ⟨key, -⟩ | ⟨key, -⟩⟩ := moved <;> simp at key

theorem joined_eq_iff : joined p = joined q ↔ p = q ∨ Moved p q := by
  obtain ⟨k, v⟩ := p
  obtain ⟨k', v'⟩ := q
  simp only [joined, Moved, Prod.mk.injEq]
  constructor
  · intro same
    obtain ⟨rest, key, value⟩ | ⟨rest, key, value⟩ := append_eq_append_iff.mp same
    · cases rest with
      | nil => exact Or.inl ⟨by simp [key], by simpa using value⟩
      | cons b w =>
        obtain ⟨rfl, tail⟩ := cons.inj value
        exact Or.inr ⟨w, Or.inl ⟨key, tail⟩⟩
    · cases rest with
      | nil => exact Or.inl ⟨by simp [key], by simpa using value.symm⟩
      | cons b w =>
        obtain ⟨rfl, tail⟩ := cons.inj value
        exact Or.inr ⟨w, Or.inr ⟨key, tail⟩⟩
  · rintro (⟨rfl, rfl⟩ | ⟨w, ⟨key, value⟩ | ⟨key, value⟩⟩)
    · rfl
    · simp [key, value]
    · simp [key, value]

/-- The rows that only one of the lists has are those that only the other has, each cut at
another separator. -/
def Resplit (rows rows' : List (Bytes × Bytes)) : Prop :=
  only rows rows' ≠ [] ∧ ∃ matched, matched.Perm (only rows' rows) ∧
    List.Forall₂ Moved (only rows rows') matched

theorem not_resplit_of_clean {rows rows' : List (Bytes × Bytes)}
    (clean : ∀ p ∈ rows, separator ∉ p.1) (clean' : ∀ p ∈ rows', separator ∉ p.1) :
    ¬ Resplit rows rows' := by
  rintro ⟨nonempty, matched, reordered, moved⟩
  obtain ⟨p, rest, first⟩ := exists_cons_of_ne_nil nonempty
  rw [first] at moved
  obtain ⟨q, rest', head, -, rfl⟩ := forall₂_cons_left_iff.mp moved
  have hp : p ∈ rows := (mem_only.mp (first ▸ mem_cons_self)).1
  have hq : q ∈ rows' := (mem_only.mp (reordered.mem_iff.mp mem_cons_self)).1
  obtain ⟨w, ⟨key, -⟩ | ⟨key, -⟩⟩ := head
  · exact clean' q hq (by simp [key])
  · exact clean p hp (by simp [key])

section Root

theorem sortChecksums_perm (l : List UInt64) : (sortChecksums l).Perm l := mergeSort_perm ..

variable {l l' : List UInt64}

theorem sortChecksums_eq_iff : sortChecksums l = sortChecksums l' ↔ l.Perm l' := by
  constructor
  · intro same
    exact ((sortChecksums_perm l).symm.trans (same ▸ List.Perm.refl _)).trans
      (sortChecksums_perm l')
  · intro same
    have sorted (l : List UInt64) : (sortChecksums l).Pairwise fun a b =>
        decide (a ≤ b) = true := by
      refine pairwise_mergeSort ?_ ?_ l
      · intro a b c
        simpa only [decide_eq_true_eq] using UInt64.le_trans
      · intro a b
        simpa only [Bool.or_eq_true, decide_eq_true_eq] using UInt64.le_total a b
    refine List.Perm.eq_of_pairwise ?_ (sorted l) (sorted l')
      (((sortChecksums_perm l).trans same).trans (sortChecksums_perm l').symm)
    intro a b _ _ le ge
    exact UInt64.le_antisymm (of_decide_eq_true le) (of_decide_eq_true ge)

theorem merkleData_eq_iff : merkleData l = merkleData l' ↔ l.Perm l' := by
  rw [← sortChecksums_eq_iff]
  refine ⟨fun same => flatMap_injective (w := 8) (by decide) (fun _ => toLe_length ..) ?_ same,
    fun same => by rw [merkleData, merkleData, same]⟩
  intro a b bytes
  have values : ofLe (toLe 8 a.toNat) = ofLe (toLe 8 b.toNat) := congrArg ofLe bytes
  rw [ofLe_toLe_of_lt (UInt64.toNat_lt _), ofLe_toLe_of_lt (UInt64.toNat_lt _)] at values
  exact UInt64.toNat_inj.mp values

theorem pairs_nodup (e : Engine) (order : IterOrder) (ts : Timestamp) :
    (pairs (e.scanAllAt order ts)).Nodup := by
  rw [pairs, List.Nodup, pairwise_map]
  refine (e.scanAllAt_ordered order ts).imp ?_
  intro a b less same
  rw [(Prod.mk.inj same).1] at less
  simp at less

variable {H : Type}

/-- The roots of two snapshots tell their rows apart, in any order of the scans, if and only
if the rows of the one are not those of the other cut at other separators. -/
theorem merkle_root_certifies_snapshot (e e' : Engine) (order order' : IterOrder)
    (ts ts' : Timestamp) (listed listed' : List (Bytes × Bytes × Timestamp))
    (lists : listed.Perm (e.scanAllAt order ts)) (lists' : listed'.Perm (e'.scanAllAt order' ts'))
    (xxh3_64 : Bytes → UInt64) (xxh3_128 : Bytes → H)
    (injective64 : ∀ p ∈ pairs listed, ∀ q ∈ pairs listed',
      xxh3_64 (joined p) = xxh3_64 (joined q) → joined p = joined q)
    (injective128 : compute xxh3_128 (snapshotChecksums xxh3_64 listed) =
        compute xxh3_128 (snapshotChecksums xxh3_64 listed') →
      merkleData (snapshotChecksums xxh3_64 listed) =
        merkleData (snapshotChecksums xxh3_64 listed')) :
    (compute xxh3_128 (snapshotChecksums xxh3_64 listed) =
          compute xxh3_128 (snapshotChecksums xxh3_64 listed') ↔
        visiblePairs e order ts = visiblePairs e' order' ts') ↔
      ¬ Resplit (pairs (e.scanAllAt order ts)) (pairs (e'.scanAllAt order' ts')) := by
  have checksums (l : List (Bytes × Bytes × Timestamp)) :
      snapshotChecksums xxh3_64 l = (pairs l).map fun p => xxh3_64 (joined p) := by
    simp [snapshotChecksums, pairs]
  have rows : (pairs listed).Perm (pairs (e.scanAllAt order ts)) := lists.map _
  have rows' : (pairs listed').Perm (pairs (e'.scanAllAt order' ts')) := lists'.map _
  have distinct := pairs_nodup e order ts
  have distinct' := pairs_nodup e' order' ts'
  have roots : compute xxh3_128 (snapshotChecksums xxh3_64 listed) =
      compute xxh3_128 (snapshotChecksums xxh3_64 listed') ↔
        ((pairs (e.scanAllAt order ts)).map fun p => xxh3_64 (joined p)).Perm
          ((pairs (e'.scanAllAt order' ts')).map fun p => xxh3_64 (joined p)) := by
    have data : merkleData (snapshotChecksums xxh3_64 listed) =
        merkleData (snapshotChecksums xxh3_64 listed') ↔
          ((pairs (e.scanAllAt order ts)).map fun p => xxh3_64 (joined p)).Perm
            ((pairs (e'.scanAllAt order' ts')).map fun p => xxh3_64 (joined p)) := by
      rw [merkleData_eq_iff, checksums, checksums]
      exact ⟨fun same => ((rows.map _).symm.trans same).trans (rows'.map _),
        fun same => ((rows.map _).trans same).trans (rows'.map _).symm⟩
    exact ⟨fun same => data.mp (injective128 same), fun same => congrArg xxh3_128 (data.mpr same)⟩
  have visible : visiblePairs e order ts = visiblePairs e' order' ts' ↔
      (pairs (e.scanAllAt order ts)).Perm (pairs (e'.scanAllAt order' ts')) := by
    rw [perm_ext_iff_of_nodup distinct distinct']
    exact Set.ext_iff
  rw [roots, visible, images_iff_not_exchanged distinct distinct', Exchanged, Resplit]
  refine not_congr (and_congr_right fun _ => exists_congr fun matched =>
    and_congr_right fun reordered => ?_)
  rw [forall₂_iff_zip, forall₂_iff_zip]
  refine and_congr_right fun _ => forall_congr' fun p => forall_congr' fun q => ?_
  refine forall_congr' fun both => ?_
  obtain ⟨hp, hq⟩ := of_mem_zip both
  have hp := rows.mem_iff.mpr (mem_only.mp hp).1
  have hq := rows'.mem_iff.mpr (mem_only.mp (reordered.mem_iff.mp hq)).1
  constructor
  · rintro ⟨apart, hashes⟩
    exact (joined_eq_iff.mp (injective64 p hp q hq hashes)).resolve_left apart
  · intro moved
    exact ⟨moved.ne, congrArg xxh3_64 (joined_eq_iff.mpr (Or.inr moved))⟩

/-- The engine after one put, and its scan at the first timestamp. -/
theorem scan_of_put (row : Bytes × Bytes)
    (scanned : (Run.run (step .plain) (fresh .plain .default) [.put row.1 row.2]).map
      (fun e => e.scanAllAt .byId 1) = some [(row.1, row.2, 1)]) :
    ∃ e, Run.run (step .plain) (fresh .plain .default) [.put row.1 row.2] = some e ∧
      e.scanAllAt .byId 1 = [(row.1, row.2, 1)] := by
  obtain ⟨e, run, scan⟩ := Option.map_eq_some_iff.mp scanned
  exact ⟨e, run, scan⟩

/-- `a = 1` and `a = 2`. -/
theorem merkle_root_certifies_sample :
    ∃ e e', Run.run (step .plain) (fresh .plain .default) [.put [97] [49]] = some e ∧
      Run.run (step .plain) (fresh .plain .default) [.put [97] [50]] = some e' ∧
      let hash (s : Bytes) : UInt64 := UInt64.ofNat (ofLe s)
      compute id (snapshotChecksums hash (e.scanAllAt .byId 1)) ≠
        compute id (snapshotChecksums hash (e'.scanAllAt .byId 1)) := by
  obtain ⟨e, run, scan⟩ := scan_of_put ([97], [49]) (by decide +kernel)
  obtain ⟨e', run', scan'⟩ := scan_of_put ([97], [50]) (by decide +kernel)
  refine ⟨e, e', run, run', ?_⟩
  intro hash same
  have clean : ¬ Resplit (pairs (e.scanAllAt .byId 1)) (pairs (e'.scanAllAt .byId 1)) := by
    apply not_resplit_of_clean
    · rw [scan]
      decide
    · rw [scan']
      decide
  have certified := (merkle_root_certifies_snapshot e e' .byId .byId 1 1 _ _ (List.Perm.refl _)
    (List.Perm.refl _) hash id (by rw [scan, scan']; decide) fun same => same).mpr clean
  have row : ([97], [49]) ∈ visiblePairs e .byId 1 := by simp [visiblePairs, pairs, scan]
  rw [certified.mp same] at row
  simp [visiblePairs, pairs, scan'] at row

/-- The key `a` with the value `b ff c`, and the key `a ff b` with the value `c`. -/
theorem merkle_root_of_moved_separator : ∃ e e', Run.run (step .plain) (fresh .plain .default)
        [.put [97] [98, 255, 99]] = some e ∧
      Run.run (step .plain) (fresh .plain .default) [.put [97, 255, 98] [99]] = some e' ∧
      (∀ (H : Type) (xxh3_64 : Bytes → UInt64) (xxh3_128 : Bytes → H),
        compute xxh3_128 (snapshotChecksums xxh3_64 (e.scanAllAt .byId 1)) =
          compute xxh3_128 (snapshotChecksums xxh3_64 (e'.scanAllAt .byId 1))) ∧
      visiblePairs e .byId 1 ≠ visiblePairs e' .byId 1 := by
  obtain ⟨e, run, scan⟩ := scan_of_put ([97], [98, 255, 99]) (by decide +kernel)
  obtain ⟨e', run', scan'⟩ := scan_of_put ([97, 255, 98], [99]) (by decide +kernel)
  refine ⟨e, e', run, run', fun H xxh3_64 xxh3_128 => ?_, fun same => ?_⟩
  · rw [scan, scan']
    rfl
  · have row : ([97], [98, 255, 99]) ∈ visiblePairs e .byId 1 := by simp [visiblePairs, pairs, scan]
    rw [same] at row
    simp [visiblePairs, pairs, scan'] at row

end Root

end GalaxDb.Versioning.SnapshotRoot
