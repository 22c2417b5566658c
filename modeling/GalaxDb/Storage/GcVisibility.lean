import GalaxDb.Storage.LazyLeveling

/-!
# What the compactor's garbage collection leaves visible

A snapshot sees the first version of a key that is not newer than itself. Collection keeps
the newest version of a key and those whose own timestamps are recent or pinned, which need
not be the ones that are seen.
-/

namespace GalaxDb.LazyLeveling

/-- Keys in ascending order, versions of one key with the latest first. -/
def Precedes (a b : VersionedEntry) : Prop :=
  compare a.key b.key = .lt ∨ a.key = b.key ∧ b.timestamp ≤ a.timestamp

def Ordered (entries : List VersionedEntry) : Prop := entries.Pairwise Precedes

/-- The version of a key with the greatest timestamp up to the given one. -/
def visible (entries : List VersionedEntry) (key : Bytes) (timestamp : Nat) :
    Option VersionedEntry :=
  entries.find? fun entry => entry.key == key && entry.timestamp ≤ timestamp

def newest (entries : List VersionedEntry) (key : Bytes) : Option VersionedEntry :=
  entries.find? fun entry => entry.key == key

/-- A version that is recent or whose own timestamp is pinned. -/
def GcContext.Retains (gc : GcContext) (timestamp : Nat) : Prop :=
  (∃ oldest, gc.oldestActiveSnapshot = some oldest ∧ oldest ≤ timestamp) ∨
    timestamp ∈ gc.pinnedTagTimestamps

/-- The timestamps that something may still read at. -/
def GcContext.Reads (gc : GcContext) (timestamp : Nat) : Prop :=
  timestamp ∈ gc.pinnedTagTimestamps ∨
    ∃ oldest, gc.oldestActiveSnapshot = some oldest ∧ oldest ≤ timestamp

section Order

variable {a b : VersionedEntry} {rest : List VersionedEntry}

theorem Ordered.isLE (ordered : Ordered (a :: rest)) (mem : b ∈ rest) :
    (compare a.key b.key).isLE := by
  obtain smaller | ⟨same, -⟩ := (List.pairwise_cons.mp ordered).1 b mem
  · exact Ordering.isLE_of_eq_lt smaller
  · rw [same]
    simp

theorem Ordered.tail (ordered : Ordered (a :: rest)) : Ordered rest :=
  (List.pairwise_cons.mp ordered).2

theorem eq_of_between {k x y : Bytes} (low : (compare k x).isLE) (high : (compare x y).isLE)
    (same : y = k) : x = k := by
  subst same
  exact Std.LawfulEqOrd.eq_of_compare (Std.OrientedCmp.isLE_antisymm high low)

end Order

section Collect

variable {gc : GcContext} {entries : List VersionedEntry} {current : Option Bytes} {key : Bytes}
  {timestamp : Nat} {e : VersionedEntry}

theorem shouldKeep_iff {isLatest : Bool} :
    gc.shouldKeep timestamp isLatest ↔ isLatest ∨ gc.Retains timestamp := by
  simp only [GcContext.shouldKeep, GcContext.Retains, Bool.or_eq_true, Option.any_eq_true,
    decide_eq_true_eq, List.contains_iff_mem, or_assoc]

theorem sublist_applyFrom : (applyFrom gc current entries).Sublist entries := by
  induction entries generalizing current with
  | nil => exact List.Sublist.refl []
  | cons x rest ih =>
    rw [applyFrom]
    split
    · exact ih.cons_cons x
    · exact ih.cons x

/-- Behind a first version of its key only retained ones are kept. -/
theorem retains_of_mem_applyFrom (ordered : Ordered entries)
    (low : ∀ x ∈ entries, (compare key x.key).isLE) (same : e.key = key)
    (mem : e ∈ applyFrom gc (some key) entries) : gc.Retains e.timestamp := by
  induction entries with
  | nil => simp [applyFrom] at mem
  | cons x rest ih =>
    have from_rest (at_key : x.key = key) (later : e ∈ applyFrom gc (some x.key) rest) :
        gc.Retains e.timestamp := by
      rw [at_key] at later
      exact ih ordered.tail (fun y hy => low y (by simp [hy])) later
    have mem_rest (later : e ∈ applyFrom gc (some x.key) rest) : x.key = key :=
      eq_of_between (low x (by simp)) (ordered.isLE (sublist_applyFrom.subset later)) same
    rw [applyFrom] at mem
    split at mem
    · next kept =>
      obtain rfl | later := List.mem_cons.mp mem
      · simpa [shouldKeep_iff, same] using kept
      · exact from_rest (mem_rest later) later
    · exact from_rest (mem_rest mem) mem

/-- What is visible stays visible exactly where it is the newest version of its key, and of a
key that is not under way already, or is retained. -/
theorem visible_applyFrom_iff (ordered : Ordered entries)
    (low : ∀ k, current = some k → ∀ x ∈ entries, (compare k x.key).isLE) :
    visible (applyFrom gc current entries) key timestamp = visible entries key timestamp ↔
      ∀ e, visible entries key timestamp = some e →
        current ≠ some key ∧ newest entries key = some e ∨ gc.Retains e.timestamp := by
  induction entries generalizing current with
  | nil => simp [applyFrom, visible]
  | cons x rest ih =>
    have later := @ih (some x.key) ordered.tail (by
      rintro k ⟨⟩ y hy
      exact ordered.isLE hy)
    by_cases same : x.key = key
    · by_cases seen : x.timestamp ≤ timestamp
      · -- the first entry is the one that is seen
        have visible_x : visible (x :: rest) key timestamp = some x := by simp [visible, same, seen]
        have newest_x : newest (x :: rest) key = some x := by simp [newest, same]
        rw [visible_x, newest_x, applyFrom]
        by_cases kept : gc.shouldKeep x.timestamp (current != some x.key)
        · rw [if_pos kept]
          have fine := shouldKeep_iff.mp kept
          rw [bne_iff_ne, same] at fine
          constructor
          · rintro - e ⟨⟩
            exact fine.imp (fun new => ⟨new, rfl⟩) id
          · exact fun _ => by simp [visible, same, seen]
        · rw [if_neg kept]
          have dropped : ¬ (current ≠ some key ∨ gc.Retains x.timestamp) := by
            rw [shouldKeep_iff, bne_iff_ne, same] at kept
            exact kept
          constructor
          · intro found
            have mem := List.mem_of_find?_eq_some found
            rw [same] at mem
            refine absurd (.inr ?_) dropped
            refine retains_of_mem_applyFrom ordered.tail (fun y hy => ?_) same mem
            rw [← same]
            exact ordered.isLE hy
          · intro fine
            exact absurd ((fine x rfl).imp And.left id) dropped
      · -- the first entry is newer than the snapshot
        have skip : visible (x :: rest) key timestamp = visible rest key timestamp := by
          simp [visible, seen]
        have skip' : visible (applyFrom gc current (x :: rest)) key timestamp =
            visible (applyFrom gc (some x.key) rest) key timestamp := by
          rw [applyFrom]
          split
          · simp [visible, seen]
          · rfl
        rw [skip, skip', later, same]
        refine forall₂_congr fun e found => ?_
        have older : e.timestamp ≤ timestamp := by
          have holds := List.find?_some found
          simp only [Bool.and_eq_true, decide_eq_true_eq] at holds
          exact holds.2
        have not_newest : newest (x :: rest) key ≠ some e := by
          have newest_x : newest (x :: rest) key = some x := by simp [newest, same]
          rw [newest_x]
          exact fun same_entry => seen (Option.some.inj same_entry ▸ older)
        simp [not_newest]
    · have skip : visible (x :: rest) key timestamp = visible rest key timestamp := by
        simp [visible, same]
      have skip' : visible (applyFrom gc current (x :: rest)) key timestamp =
          visible (applyFrom gc (some x.key) rest) key timestamp := by
        rw [applyFrom]
        split
        · simp [visible, same]
        · rfl
      have next : newest (x :: rest) key = newest rest key := by simp [newest, same]
      rw [skip, skip', later, next]
      refine forall₂_congr fun e found => ?_
      have fresh : current ≠ some key := by
        intro under_way
        have mem := List.mem_of_find?_eq_some found
        have e_key : e.key = key := by
          have holds := List.find?_some found
          simp only [Bool.and_eq_true, beq_iff_eq] at holds
          exact holds.1
        exact same (eq_of_between (low key under_way x (by simp)) (ordered.isLE mem) e_key)
      simp [fresh, same]

theorem visible_apply_iff (ordered : Ordered entries) :
    visible (gc.apply entries) key timestamp = visible entries key timestamp ↔
      ∀ e, visible entries key timestamp = some e →
        newest entries key = some e ∨ gc.Retains e.timestamp := by
  rw [GcContext.apply, visible_applyFrom_iff ordered (by simp)]
  simp

/-- A version that is seen from some time on but is older than that is seen at that time. -/
theorem visible_of_le {oldest : Nat} (later : oldest ≤ timestamp)
    (seen : visible entries key timestamp = some e) (old : e.timestamp ≤ oldest) :
    visible entries key oldest = some e := by
  induction entries with
  | nil => simp [visible] at seen
  | cons x rest ih =>
    by_cases here : x.key = key ∧ x.timestamp ≤ timestamp
    · have found : visible (x :: rest) key timestamp = some x := by simp [visible, here]
      obtain rfl : x = e := Option.some.inj (found.symm.trans seen)
      simp [visible, here.1, old]
    · have skip (t : Nat) (le : t ≤ timestamp) :
          visible (x :: rest) key t = visible rest key t := by
        have passed : ¬ (x.key == key && decide (x.timestamp ≤ t)) = true := by
          simp only [Bool.and_eq_true, beq_iff_eq, decide_eq_true_eq]
          exact fun both => here ⟨both.1, le_trans both.2 le⟩
        exact List.find?_cons_of_neg passed
      rw [skip timestamp (le_refl _)] at seen
      rw [skip oldest later]
      exact ih seen

/-- Every pinned timestamp and every snapshot from the oldest on sees the same versions after
the collection, exactly where each version that is seen at a pinned timestamp or at the oldest
snapshot is the newest of its key, not older than that snapshot, or itself pinned. -/
theorem gc_keeps_what_is_read_iff (ordered : Ordered entries) :
    (∀ key timestamp, gc.Reads timestamp →
      visible (gc.apply entries) key timestamp = visible entries key timestamp) ↔
      ∀ key timestamp e,
        timestamp ∈ gc.pinnedTagTimestamps ∨ gc.oldestActiveSnapshot = some timestamp →
        visible entries key timestamp = some e →
        newest entries key = some e ∨ gc.Retains e.timestamp := by
  constructor
  · intro kept key timestamp e read seen
    refine (visible_apply_iff ordered).mp (kept key timestamp ?_) e seen
    exact read.imp id fun oldest => ⟨timestamp, oldest, le_refl _⟩
  · intro fine key timestamp read
    refine (visible_apply_iff ordered).mpr fun e seen => ?_
    obtain pinned | ⟨oldest, active, later⟩ := read
    · exact fine key timestamp e (.inl pinned) seen
    · obtain recent | old := Nat.le_or_le oldest e.timestamp
      · exact .inr (.inl ⟨oldest, active, recent⟩)
      · exact fine key oldest e (.inr active) (visible_of_le later seen old)

theorem gc_keeps_pinned_version :
    visible (GcContext.apply ⟨none, [5]⟩ [⟨[1], 9, none⟩, ⟨[1], 5, some [7]⟩]) [1] 5 =
      some ⟨[1], 5, some [7]⟩ := by
  have ordered : Ordered [⟨[1], 9, none⟩, ⟨[1], 5, some [7]⟩] := by simp [Ordered, Precedes]
  have kept := (@gc_keeps_what_is_read_iff ⟨none, [5]⟩ _ ordered).mpr (by
    intro key timestamp e read seen
    have pinned : timestamp = 5 := by simpa using read
    subst pinned
    right
    right
    have found := List.find?_some seen
    have mem := List.mem_of_find?_eq_some seen
    simp only [Bool.and_eq_true, decide_eq_true_eq] at found
    simp only [List.mem_cons, List.not_mem_nil, or_false] at mem
    obtain rfl | rfl := mem
    · exact absurd found.2 (by decide)
    · simp)
  exact (kept [1] 5 (.inl (by simp))).trans (by decide)

/-- A pin between two versions does not keep the one it sees. -/
theorem pin_between_versions_loses_its_version : Ordered [⟨[1], 9, some [8]⟩, ⟨[1], 5, some [7]⟩] ∧
      visible [⟨[1], 9, some [8]⟩, ⟨[1], 5, some [7]⟩] [1] 6 = some ⟨[1], 5, some [7]⟩ ∧
      visible (GcContext.apply ⟨none, [6]⟩ [⟨[1], 9, some [8]⟩, ⟨[1], 5, some [7]⟩]) [1] 6 =
        none := by
  refine ⟨by simp [Ordered, Precedes], by decide, by decide⟩

end Collect

end GalaxDb.LazyLeveling
