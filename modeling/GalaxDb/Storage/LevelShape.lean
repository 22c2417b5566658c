import GalaxDb.Lib.Run
import GalaxDb.Storage.GcVisibility
import Mathlib.Data.List.Flatten

/-!
# The shape of the levels

A merge of ordered runs is ordered and has every entry once, and so have the SSTs that its
collected entries are cut into. The bottom level gets them beside what it has, and stays a
single sorted run only while they overlap neither that nor one another.
-/

namespace GalaxDb.LazyLeveling

open LsmTree CompactionConfig List Option Function

section Merge

variable {a b c entry : VersionedEntry} {runs left : List (List VersionedEntry)}

theorem Precedes.isLE (h : Precedes a b) : (compare a.key b.key).isLE := by
  obtain smaller | ⟨same, -⟩ := h
  · exact Ordering.isLE_of_eq_lt smaller
  · simp [same]

theorem Precedes.refl (a : VersionedEntry) : Precedes a a := .inr ⟨rfl, le_refl _⟩

theorem Precedes.trans (hab : Precedes a b) (hbc : Precedes b c) : Precedes a c := by
  obtain smaller | ⟨same, later⟩ := hab
  · exact .inl (Std.TransCmp.lt_of_lt_of_isLE smaller hbc.isLE)
  · obtain smaller | ⟨same', later'⟩ := hbc
    · exact .inl (same ▸ smaller)
    · exact .inr ⟨same.trans same', le_trans later' later⟩

theorem precedes_of_before (h : a.before b) : Precedes a b := by
  simp only [VersionedEntry.before, Bool.or_eq_true, beq_iff_eq, Bool.and_eq_true,
    decide_eq_true_eq] at h
  exact h.imp id fun same => ⟨same.1, same.2.le⟩

theorem precedes_of_not_before (h : ¬ a.before b) : Precedes b a := by
  simp only [VersionedEntry.before, Bool.or_eq_true, beq_iff_eq, Bool.and_eq_true,
    decide_eq_true_eq, not_or, not_and, Nat.not_lt] at h
  cases order : compare b.key a.key with
  | lt => exact .inl order
  | eq =>
    have same : b.key = a.key := Std.LawfulEqOrd.eq_of_compare order
    exact .inr ⟨same, h.2 same.symm⟩
  | gt => exact absurd (Std.OrientedCmp.gt_iff_lt.mp order) h.1

theorem nextEntry_eq_none : nextEntry runs = none ↔ runs.flatten = [] := by
  induction runs with
  | nil => simp [nextEntry]
  | cons run runs ih =>
    cases run with
    | nil => simpa [nextEntry] using ih
    | cons entry run =>
      cases later : nextEntry runs with
      | none => simp [nextEntry, later]
      | some next =>
        simp only [nextEntry, later, flatten_cons, cons_append, reduceCtorEq, iff_false]
        split <;> simp

/-- The next entry is one of the entries, and precedes what is left. -/
theorem nextEntry_spec (next : nextEntry runs = some (entry, left)) :
    runs.flatten.Perm (entry :: left.flatten) ∧ ((∀ run ∈ runs, Ordered run) →
        (∀ run ∈ left, Ordered run) ∧ ∀ x ∈ left.flatten, Precedes entry x) := by
  induction runs generalizing entry left with
  | nil => simp [nextEntry] at next
  | cons run runs ih =>
    cases run with
    | nil =>
      obtain ⟨⟨entry', left'⟩, later, made⟩ := map_eq_some_iff.mp next
      obtain ⟨rfl, rfl⟩ := Prod.mk.inj made
      obtain ⟨perm, order⟩ := ih later
      refine ⟨by simpa using perm, fun ordered => ?_⟩
      obtain ⟨left_ordered, first⟩ := order fun run mem => ordered run (by simp [mem])
      refine ⟨fun run mem => ?_, by simpa using first⟩
      obtain rfl | mem := mem_cons.mp mem
      · exact List.Pairwise.nil
      · exact left_ordered run mem
    | cons x run =>
      cases later : nextEntry runs with
      | none =>
        simp only [nextEntry, later, some.injEq, Prod.mk.injEq] at next
        obtain ⟨rfl, rfl⟩ := next
        have rest_empty := nextEntry_eq_none.mp later
        refine ⟨by simp, fun ordered => ⟨fun run' mem => ?_, ?_⟩⟩
        · obtain rfl | mem := mem_cons.mp mem
          · exact (ordered (x :: run') (by simp)).tail
          · exact ordered run' (by simp [mem])
        · rw [flatten_cons, rest_empty, append_nil]
          exact (pairwise_cons.mp (ordered (x :: run) (by simp))).1
      | some found =>
        obtain ⟨other, left'⟩ := found
        obtain ⟨perm, order⟩ := ih later
        have behind (ordered : ∀ run' ∈ (x :: run) :: runs, Ordered run') :
            (∀ run' ∈ left', Ordered run') ∧ ∀ y ∈ left'.flatten, Precedes other y :=
          order fun run' mem => ordered run' (by simp [mem])
        simp only [nextEntry, later] at next
        by_cases earlier : other.before x
        · simp only [earlier, ↓reduceIte, some.injEq, Prod.mk.injEq] at next
          obtain ⟨rfl, rfl⟩ := next
          constructor
          · exact (perm.append_left _).trans perm_middle
          · intro ordered
            obtain ⟨left_ordered, first⟩ := behind ordered
            refine ⟨fun run' mem => ?_, fun y mem => ?_⟩
            · obtain rfl | mem := mem_cons.mp mem
              · exact ordered _ (by simp)
              · exact left_ordered run' mem
            · rw [flatten_cons, mem_append] at mem
              obtain mem | mem := mem
              · refine (precedes_of_before earlier).trans ?_
                obtain rfl | mem := mem_cons.mp mem
                · exact Precedes.refl y
                · exact (pairwise_cons.mp (ordered (x :: run) (by simp))).1 y mem
              · exact first y mem
        · rw [if_neg earlier] at next
          obtain ⟨rfl, rfl⟩ := Prod.mk.inj (some.inj next)
          refine ⟨by simp, fun ordered => ⟨fun run' mem => ?_, fun y mem => ?_⟩⟩
          · obtain rfl | mem := mem_cons.mp mem
            · exact (ordered (x :: run') (by simp)).tail
            · exact ordered run' (by simp [mem])
          · rw [flatten_cons, mem_append] at mem
            obtain mem | mem := mem
            · exact (pairwise_cons.mp (ordered (x :: run) (by simp))).1 y mem
            · refine (precedes_of_not_before earlier).trans ?_
              obtain rfl | mem := mem_cons.mp (perm.subset mem)
              · exact Precedes.refl y
              · exact (behind ordered).2 y mem

theorem collectUpTo_spec {fuel : Nat} (enough : runs.flatten.length ≤ fuel) :
    runs.flatten.Perm (collectUpTo fuel runs) ∧
      ((∀ run ∈ runs, Ordered run) → Ordered (collectUpTo fuel runs)) := by
  induction fuel generalizing runs with
  | zero =>
    have empty : runs.flatten = [] := length_eq_zero_iff.mp (by omega)
    rw [empty]
    exact ⟨List.Perm.nil, fun _ => List.Pairwise.nil⟩
  | succ fuel ih =>
    rw [collectUpTo]
    cases next : nextEntry runs with
    | none =>
      rw [nextEntry_eq_none.mp next]
      exact ⟨List.Perm.nil, fun _ => List.Pairwise.nil⟩
    | some found =>
      obtain ⟨entry, left⟩ := found
      obtain ⟨perm, order⟩ := nextEntry_spec next
      have length := perm.length_eq
      rw [length_cons] at length
      obtain ⟨rest_perm, rest_order⟩ := @ih left (by omega)
      refine ⟨perm.trans (rest_perm.cons entry), fun ordered => ?_⟩
      obtain ⟨left_ordered, first⟩ := order ordered
      refine pairwise_cons.mpr ⟨fun x mem => ?_, rest_order left_ordered⟩
      exact first x (rest_perm.symm.subset mem)

theorem collectAll_spec : runs.flatten.Perm (collectAll runs) ∧
      ((∀ run ∈ runs, Ordered run) → Ordered (collectAll runs)) :=
  collectUpTo_spec length_flatten.le

theorem ordered_apply {gc : GcContext} {entries : List VersionedEntry} (ordered : Ordered entries) :
    Ordered (gc.apply entries) :=
  List.Pairwise.sublist sublist_applyFrom ordered

end Merge

section Split

variable {target : Nat} {entries group : List VersionedEntry}

theorem splitGroups_spec {size : Nat} :
    (splitGroups target entries group size).flatten = group ++ entries ∧
      ∀ g ∈ splitGroups target entries group size, g ≠ [] := by
  induction entries generalizing group size with
  | nil =>
    rw [splitGroups]
    split
    · next empty => simp [empty]
    · next some => simp [some]
  | cons entry rest ih =>
    rw [splitGroups]
    split
    · next cut =>
      obtain ⟨flat, some⟩ := @ih [entry] entry.size
      refine ⟨by simp [flat], fun g mem => ?_⟩
      obtain rfl | mem := mem_cons.mp mem
      · exact cut.2
      · exact some g mem
    · obtain ⟨flat, some⟩ := @ih (group ++ [entry]) (size + entry.size)
      exact ⟨by simp [flat], some⟩

theorem splitIntoSsts_spec : (splitIntoSsts target entries).flatten = entries ∧
      ∀ g ∈ splitIntoSsts target entries, g ≠ [] :=
  splitGroups_spec

end Split

section Ssts

/-- The recorded key range is the one of the entries, which are in order. -/
structure Sst.Sound (sst : Sst) : Prop where
  min : sst.entries.head?.map VersionedEntry.key = some sst.minKey
  max : sst.entries.getLast?.map VersionedEntry.key = some sst.maxKey
  ordered : Ordered sst.entries

/-- The key ranges of the SSTs do not overlap. -/
def Apart (a b : Sst) : Prop :=
  compare a.maxKey b.minKey = .lt ∨ compare b.maxKey a.minKey = .lt

def SortedByMin (ssts : List Sst) : Prop :=
  ssts.Pairwise fun a b => (compare a.minKey b.minKey).isLE

/-- Sorted by smallest key, with pairwise disjoint key ranges. -/
def SingleRun (ssts : List Sst) : Prop := SortedByMin ssts ∧ ssts.Pairwise Apart

variable {a b sst : Sst} {ssts : List Sst}

theorem Apart.symm (h : Apart a b) : Apart b a := Or.symm h

theorem Sst.Sound.mem_min (sound : sst.Sound) : ∃ e ∈ sst.entries, e.key = sst.minKey := by
  obtain ⟨e, head, key⟩ := map_eq_some_iff.mp sound.min
  exact ⟨e, mem_of_head? head, key⟩

theorem Sst.Sound.mem_max (sound : sst.Sound) : ∃ e ∈ sst.entries, e.key = sst.maxKey := by
  obtain ⟨e, last, key⟩ := map_eq_some_iff.mp sound.max
  exact ⟨e, mem_of_getLast? last, key⟩

theorem Sst.Sound.bounds (sound : sst.Sound) {e : VersionedEntry} (mem : e ∈ sst.entries) :
    (compare sst.minKey e.key).isLE ∧ (compare e.key sst.maxKey).isLE := by
  have ordered := sound.ordered
  obtain ⟨first, head, min⟩ := map_eq_some_iff.mp sound.min
  obtain ⟨last, tail, max⟩ := map_eq_some_iff.mp sound.max
  rw [← min, ← max]
  constructor
  · obtain ⟨rest, entries⟩ := head?_eq_some_iff.mp head
    rw [entries] at ordered mem
    obtain rfl | later := mem_cons.mp mem
    · simp
    · exact ordered.isLE later
  · obtain ⟨front, entries⟩ := getLast?_eq_some_iff.mp tail
    rw [entries] at ordered mem
    obtain earlier | same := mem_append.mp mem
    · exact ((pairwise_append.mp ordered).2.2 e earlier last (by simp)).isLE
    · obtain rfl : e = last := by simpa using same
      simp

/-- Where one SST precedes another they are apart as long as they share no key. -/
theorem apart_iff_of_precedes (ha : a.Sound) (hb : b.Sound)
    (before : ∀ x ∈ a.entries, ∀ y ∈ b.entries, Precedes x y) :
    Apart a b ↔ ∀ x ∈ a.entries, ∀ y ∈ b.entries, x.key ≠ y.key := by
  obtain ⟨last, last_mem, last_key⟩ := ha.mem_max
  obtain ⟨first, first_mem, first_key⟩ := hb.mem_min
  have meet := (before last last_mem first first_mem).isLE
  constructor
  · rintro (below | above) x hx y hy same
    · have order := Std.TransCmp.lt_of_isLE_of_lt (ha.bounds hx).2 below
      have apart := Std.TransCmp.lt_of_lt_of_isLE order (hb.bounds hy).1
      simp [same] at apart
    · have order := Std.TransCmp.lt_of_isLE_of_lt (hb.bounds first_mem).2 above
      have back := Std.TransCmp.lt_of_lt_of_isLE order (ha.bounds last_mem).1
      have loop := Std.TransCmp.lt_of_isLE_of_lt meet back
      simp at loop
  · intro no_shared
    left
    rw [← last_key, ← first_key]
    obtain below | same := Ordering.isLE_iff_eq_lt_or_eq_eq.mp meet
    · exact below
    · exact absurd (Std.LawfulEqOrd.eq_of_compare same) (no_shared last last_mem first first_mem)

/-- Whether SSTs are apart shows in the entries of one of them. -/
theorem apart_iff_outside (ha : a.Sound) :
    Apart a b ↔ (∀ e ∈ a.entries, compare e.key b.minKey = .lt) ∨
      ∀ e ∈ a.entries, compare b.maxKey e.key = .lt := by
  obtain ⟨first, first_mem, first_key⟩ := ha.mem_min
  obtain ⟨last, last_mem, last_key⟩ := ha.mem_max
  constructor
  · rintro (below | above)
    · exact .inl fun e mem => Std.TransCmp.lt_of_isLE_of_lt (ha.bounds mem).2 below
    · exact .inr fun e mem => Std.TransCmp.lt_of_lt_of_isLE above (ha.bounds mem).1
  · rintro (below | above)
    · exact .inl (last_key ▸ below last last_mem)
    · exact .inr (first_key ▸ above first first_mem)

theorem sstOf_some {level sstId : Nat} {group : List VersionedEntry} (some_entry : group ≠ [])
    (ordered : Ordered group) :
    ∃ sst, sstOf level sstId group = some sst ∧ sst.entries = group ∧ sst.Sound := by
  obtain ⟨first, rest, rfl⟩ := exists_cons_of_ne_nil some_entry
  refine ⟨⟨⟨sstId, level, first.key, ((first :: rest).getLast some_entry).key,
    ((first :: rest).map VersionedEntry.size).sum, (first :: rest).length⟩, first :: rest⟩,
    ?_, rfl, ⟨rfl, ?_, ordered⟩⟩
  · rw [sstOf, head?_cons, getLast?_eq_getLast_of_ne_nil some_entry]
  · rfl

theorem buildSsts_spec {level nextId : Nat} {groups : List (List VersionedEntry)}
    (filled : ∀ g ∈ groups, g ≠ [] ∧ Ordered g) :
    (buildSsts level nextId groups).1.map Sst.entries = groups ∧
      ∀ sst ∈ (buildSsts level nextId groups).1, sst.Sound := by
  induction groups generalizing nextId with
  | nil => simp [buildSsts]
  | cons group groups ih =>
    obtain ⟨some_entry, ordered⟩ := filled group (by simp)
    obtain ⟨sst, made, entries, sound⟩ := @sstOf_some level nextId group some_entry ordered
    obtain ⟨others, sounds⟩ := @ih (nextId + 1) fun g mem => filled g (by simp [mem])
    rw [buildSsts, made]
    refine ⟨by simp [entries, others], fun sst' mem => ?_⟩
    obtain rfl | mem := mem_cons.mp mem
    · exact sound
    · exact sounds sst' mem

theorem addToLevel_perm : (addToLevel ssts sst).Perm (sst :: ssts) := by
  refine perm_middle.trans ?_
  rw [takeWhile_append_dropWhile]

theorem foldl_addToLevel_perm {new : List Sst} :
    (new.foldl addToLevel ssts).Perm (new ++ ssts) := by
  induction new generalizing ssts with
  | nil => exact List.Perm.refl _
  | cons sst new ih =>
    exact (ih.trans (addToLevel_perm.append_left new)).trans perm_middle

theorem SortedByMin.addToLevel (sorted : SortedByMin ssts) : SortedByMin (addToLevel ssts sst) := by
  induction ssts with
  | nil => simp [LazyLeveling.addToLevel, SortedByMin]
  | cons x ssts ih =>
    obtain ⟨first, rest⟩ := pairwise_cons.mp sorted
    by_cases smaller : compare x.minKey sst.minKey = .lt
    · have cut : LazyLeveling.addToLevel (x :: ssts) sst =
          x :: LazyLeveling.addToLevel ssts sst := by
        simp [LazyLeveling.addToLevel, smaller]
      rw [cut]
      refine pairwise_cons.mpr ⟨fun y mem => ?_, ih rest⟩
      obtain rfl | mem := mem_cons.mp (addToLevel_perm.subset mem)
      · exact Ordering.isLE_of_eq_lt smaller
      · exact first y mem
    · have here : LazyLeveling.addToLevel (x :: ssts) sst = sst :: x :: ssts := by
        simp [LazyLeveling.addToLevel, smaller]
      have at_most : (compare sst.minKey x.minKey).isLE :=
        Std.OrientedCmp.isLE_of_isGE (Ordering.isGE_iff_ne_lt.mpr smaller)
      rw [here]
      refine pairwise_cons.mpr ⟨fun y mem => ?_, sorted⟩
      obtain rfl | mem := mem_cons.mp mem
      · exact at_most
      · exact Std.TransCmp.isLE_trans at_most (first y mem)

variable {new : List Sst}

theorem SortedByMin.foldl_addToLevel (sorted : SortedByMin ssts) :
    SortedByMin (new.foldl LazyLeveling.addToLevel ssts) := by
  induction new generalizing ssts with
  | nil => exact sorted
  | cons sst new ih => exact ih sorted.addToLevel

/-- Adding SSTs keeps a single run exactly where they are apart from it and from one another. -/
theorem singleRun_foldl_addToLevel_iff (run : SingleRun ssts) :
    SingleRun (new.foldl addToLevel ssts) ↔
      new.Pairwise Apart ∧ ∀ a ∈ new, ∀ b ∈ ssts, Apart a b := by
  have perm := (@foldl_addToLevel_perm ssts new).pairwise_iff (R := Apart) fun h => h.symm
  rw [SingleRun, perm, pairwise_append]
  constructor
  · exact fun ⟨_, new_apart, _, cross⟩ => ⟨new_apart, cross⟩
  · exact fun ⟨new_apart, cross⟩ => ⟨run.1.foldl_addToLevel, new_apart, run.2, cross⟩

end Ssts

section Packing

/-- The key is in none of the recorded ranges. -/
def Outside (ssts : List Sst) (key : Bytes) : Prop :=
  ∀ sst ∈ ssts, compare key sst.minKey = .lt ∨ compare sst.maxKey key = .lt

/-- None of the recorded ranges is between the keys. -/
def NoneBetween (ssts : List Sst) (low high : Bytes) : Prop :=
  ∀ sst ∈ ssts, ¬ (compare low sst.minKey = .lt ∧ compare sst.maxKey high = .lt)

/-- Versions in order fit beside the SSTs in files of the target size: each is outside of their
ranges, versions that have room in one file have none of these between them, and those that have
not are of different keys. The key before and what the file has are given. -/
def Packs (target : Nat) (ssts : List Sst) : Option Bytes → Nat → List VersionedEntry → Prop
  | _, _, [] => True
  | last, filled, entry :: rest =>
    Outside ssts entry.key ∧ if target < filled + entry.size then
        last ≠ some entry.key ∧ Packs target ssts (some entry.key) entry.size rest
      else
        (∀ key ∈ last, NoneBetween ssts key entry.key) ∧
          Packs target ssts (some entry.key) (filled + entry.size) rest

/-- The group is below or above each of the SSTs. -/
def Clear (ssts : List Sst) (group : List VersionedEntry) : Prop :=
  ∀ sst ∈ ssts, (∀ e ∈ group, compare e.key sst.minKey = .lt) ∨
    ∀ e ∈ group, compare sst.maxKey e.key = .lt

variable {target size : Nat} {ssts : List Sst} {group rest : List VersionedEntry}
  {entry : VersionedEntry}

theorem Clear.append (clear : Clear ssts group) (sound : ∀ sst ∈ ssts, sst.Sound)
    (ordered : Ordered (group ++ [entry])) (outside : Outside ssts entry.key)
    (between : ∀ key ∈ group.getLast?.map VersionedEntry.key, NoneBetween ssts key entry.key) :
    Clear ssts (group ++ [entry]) := by
  intro sst mem
  have append {P : VersionedEntry → Prop} (old : ∀ e ∈ group, P e) (new : P entry) :
      ∀ e ∈ group ++ [entry], P e := by
    simpa [or_imp, forall_and] using ⟨old, new⟩
  cases last : group.getLast? with
  | none =>
    rw [getLast?_eq_none_iff.mp last]
    simpa using outside sst mem
  | some l =>
    have l_mem := mem_of_getLast? last
    rcases clear sst mem with below | above <;> rcases outside sst mem with low | high
    · exact Or.inl (append below low)
    · exact absurd ⟨below l l_mem, high⟩ (between l.key (by simp [last]) sst mem)
    · have order := ((pairwise_append.mp ordered).2.2 l l_mem entry (by simp)).isLE
      obtain ⟨e, inside, key⟩ := (sound sst mem).mem_max
      have width := ((sound sst mem).bounds inside).1
      rw [key] at width
      have loop := Std.TransCmp.lt_of_isLE_of_lt order (Std.TransCmp.lt_of_lt_of_isLE low width)
      exact absurd (Std.TransCmp.lt_trans loop (above l l_mem)) (by simp)
    · exact Or.inr (append above high)

/-- Versions that pack are cut between no versions of one key, and into clear groups. -/
theorem splitGroups_of_packs (sound : ∀ sst ∈ ssts, sst.Sound) (ordered : Ordered (group ++ rest))
    (fresh : group = [] → size = 0) (clear : Clear ssts group)
    (packs : Packs target ssts (group.getLast?.map VersionedEntry.key) size rest) :
    (splitGroups target rest group size).Pairwise (fun g h => ∀ a ∈ g, ∀ b ∈ h, a.key ≠ b.key) ∧
      ∀ g ∈ splitGroups target rest group size, Clear ssts g := by
  induction rest generalizing group size with
  | nil =>
    rw [splitGroups]
    split
    · exact ⟨List.Pairwise.nil, by simp⟩
    · exact ⟨pairwise_singleton _ _, by simpa using clear⟩
  | cons entry rest ih =>
    obtain ⟨outside, more⟩ := packs
    have regrouped : Ordered ((group ++ [entry]) ++ rest) := by
      simpa using ordered
    have alone : Clear ssts [entry] := by simpa [Clear, Outside] using outside
    rw [splitGroups]
    by_cases big : target < size + entry.size
    · rw [if_pos big] at more
      by_cases empty : group = []
      · subst empty
        obtain rfl := fresh rfl
        rw [if_neg (by simp)]
        exact ih regrouped (by simp) (by simpa using alone) (by simpa using more.2)
      · rw [if_pos ⟨big, empty⟩]
        have later := (pairwise_append.mp ordered).2.1
        obtain ⟨apart, clears⟩ :=
          @ih entry.size [entry] later (by simp) alone (by simpa using more.2)
        refine ⟨pairwise_cons.mpr ⟨?_, apart⟩, by simpa using ⟨clear, clears⟩⟩
        intro h mem a inGroup b inRest same
        have behind : b ∈ entry :: rest := by
          rw [← singleton_append, ← (@splitGroups_spec target rest [entry] entry.size).1]
          exact mem_flatten.mpr ⟨h, mem, inRest⟩
        obtain ⟨l, last⟩ := ne_none_iff_exists'.mp (getLast?_eq_none_iff.not.mpr empty)
        have l_mem := mem_of_getLast? last
        have below : (compare a.key l.key).isLE := by
          obtain ⟨front, eq⟩ := getLast?_eq_some_iff.mp last
          subst eq
          rcases mem_append.mp inGroup with earlier | here
          · have first := (pairwise_append.mp (pairwise_append.mp ordered).1).2.2
            exact (first a earlier l (by simp)).isLE
          · rw [mem_singleton.mp here]
            simp
        have meet := ((pairwise_append.mp ordered).2.2 l l_mem entry (by simp)).isLE
        have above : (compare entry.key b.key).isLE := by
          rcases mem_cons.mp behind with rfl | inside
          · simp
          · exact ((pairwise_cons.mp later).1 b inside).isLE
        rw [← same] at above
        have equal := Std.LawfulEqOrd.eq_of_compare
          (Std.OrientedCmp.isLE_antisymm meet (Std.TransCmp.isLE_trans above below))
        exact more.1 (by simp [last, equal])
    · rw [if_neg big] at more
      rw [if_neg fun both => big both.1]
      refine ih regrouped (by simp) ?_ (by simpa using more.2)
      exact clear.append sound (pairwise_append.mp regrouped).1 outside more.1

end Packing

section Steps

/-- The compactor and the tree that it works on. -/
structure State where
  compactor : Compactor
  tree : LsmTree

open State

inductive Action where
  | addSst (sst : Sst)
  | maybeCompact (gc : GcContext)

/-- An SST is added at level zero, or a compaction is made if the trigger asks for one. -/
def step (s : State) : Action → Option State
  | .addSst sst => some { s with tree := s.tree.addSst 0 sst }
  | .maybeCompact gc =>
    let result := s.compactor.maybeCompact s.tree gc
    some ⟨result.1, result.2.1⟩

def State.start (config : CompactionConfig) (nextSstId : Nat) : State :=
  ⟨⟨config, nextSstId⟩, empty⟩

/-- The groups that a compaction of the level cuts its collected entries into. -/
def State.groups (s : State) (level : Nat) (gc : GcContext) : List (List VersionedEntry) :=
  splitIntoSsts s.compactor.config.sstSizeBytes
    (gc.apply (collectAll ((s.tree level).map (·.entries))))

/-- A compaction into the bottom level finds entries in the level above which, in order and as far
as the collection keeps them, fit beside the SSTs that are there. -/
def FitsBottom (s : State) : Action → Prop
  | .addSst _ => True
  | .maybeCompact gc => s.compactor.config.check s.tree = some 3 →
    ∀ merged, ((s.tree 3).flatMap Sst.entries).Perm merged → Ordered merged →
      Packs s.compactor.config.sstSizeBytes (s.tree bottomLevel) none 0 (gc.apply merged)

/-- The new SSTs hold what the collection keeps of the inputs' entries, each once. -/
def Complete (s : State) : Action → Prop
  | .addSst _ => True
  | .maybeCompact gc => ∀ level ssts, s.compactor.config.check s.tree = some level →
    (s.compactor.maybeCompact s.tree gc).2.2 = some ssts →
    ∃ merged, ((s.tree level).flatMap Sst.entries).Perm merged ∧ Ordered merged ∧
      ssts.flatMap Sst.entries = gc.apply merged

/-- Every SST is sound, and every level sorted by smallest key. -/
structure State.Sound (s : State) : Prop where
  ssts : ∀ level, ∀ sst ∈ s.tree level, sst.Sound
  sorted : ∀ level, SortedByMin (s.tree level)

variable {s s' : State} {a : Action} {config : CompactionConfig} {tree : LsmTree} {level : Nat}

theorem check_lt (found : config.check tree = some level) : level < bottomLevel := by
  rw [check] at found
  split at found
  · obtain rfl := some.inj found
    decide
  · have mem := mem_of_find?_eq_some found
    simp only [mem_cons, not_mem_nil, or_false] at mem
    simp only [bottomLevel]
    omega

theorem foldl_addSst (new : List Sst) : new.foldl (fun tree sst => tree.addSst level sst) tree =
      update tree level (new.foldl addToLevel (tree level)) := by
  induction new generalizing tree with
  | nil => simp
  | cons sst new ih =>
    rw [foldl_cons, ih]
    simp [addSst]

theorem foldl_removeSst (ids : List Nat) : ids.foldl (fun tree id => tree.removeSst level id) tree =
      update tree level (ids.foldl removeFromLevel (tree level)) := by
  induction ids generalizing tree with
  | nil => simp
  | cons id ids ih =>
    rw [foldl_cons, ih]
    simp [removeSst]

/-- All SSTs of the level are removed, one number after the other. -/
theorem foldl_removeFromLevel (ssts : List Sst) :
    (ssts.map (·.sstId)).foldl removeFromLevel ssts = [] := by
  induction ssts with
  | nil => rfl
  | cons sst ssts ih => simp [removeFromLevel, ih]

/-- The SSTs that a compaction of the level makes. -/
def State.made (s : State) (level : Nat) (gc : GcContext) : List Sst :=
  (buildSsts (level + 1) s.compactor.nextSstId (s.groups level gc)).1

/-- What a compaction that is made does to the levels and puts out. -/
theorem maybeCompact_spec {gc : GcContext} (found : s.compactor.config.check s.tree = some level)
    (filled : s.tree level ≠ []) :
    s.compactor.maybeCompact s.tree gc = ({ s.compactor with
          nextSstId := (buildSsts (level + 1) s.compactor.nextSstId (s.groups level gc)).2 },
        update (update s.tree level []) (level + 1)
          ((s.made level gc).foldl addToLevel (s.tree (level + 1))),
        some (s.made level gc)) := by
  have emptied : ((s.tree level).map (·.sstId)).foldl (·.removeSst level) s.tree =
      update s.tree level [] := by
    rw [foldl_removeSst, foldl_removeFromLevel]
  simp only [Compactor.maybeCompact, found, filled, ↓reduceIte, emptied, Compactor.compact,
    check_lt found, foldl_addSst, ne_eq, Nat.add_one_ne_self, not_false_eq_true,
    update_of_ne]
  rfl

variable {gc : GcContext}

theorem maybeCompact_idle (idle : s.compactor.config.check s.tree = none) :
    s.compactor.maybeCompact s.tree gc = (s.compactor, s.tree, none) := by
  simp only [Compactor.maybeCompact, idle]

theorem filled_of_check (found : config.check tree = some level) : tree level ≠ [] := by
  intro empty
  rw [check] at found
  split at found
  · next enough =>
    obtain rfl := some.inj found
    rw [empty, length_nil, effectiveL0Threshold] at enough
    cases strategy : config.l0Strategy <;> simp [strategy] at enough
  · have full := find?_some found
    simp [isFull, totalSizeBytes, empty] at full

theorem groups_spec {gc : GcContext} (sound : s.Sound) :
    (s.groups level gc).flatten = gc.apply (collectAll ((s.tree level).map (·.entries))) ∧
      Ordered (s.groups level gc).flatten ∧ ∀ g ∈ s.groups level gc, g ≠ [] := by
  obtain ⟨flat, filled⟩ := @splitIntoSsts_spec s.compactor.config.sstSizeBytes
    (gc.apply (collectAll ((s.tree level).map (·.entries))))
  refine ⟨flat, ?_, filled⟩
  rw [groups, flat]
  refine ordered_apply (collectAll_spec.2 fun run mem => ?_)
  obtain ⟨sst, inside, rfl⟩ := mem_map.mp mem
  exact (sound.ssts level sst inside).ordered

theorem made_spec {gc : GcContext} (sound : s.Sound) :
    (s.made level gc).map Sst.entries = s.groups level gc ∧ ∀ sst ∈ s.made level gc, sst.Sound := by
  obtain ⟨_, ordered, filled⟩ := groups_spec sound
  exact buildSsts_spec fun g mem => ⟨filled g mem, (pairwise_flatten.mp ordered).1 g mem⟩

theorem State.Sound.merged (sound : s.Sound) (level : Nat) :
    ∃ merged, ((s.tree level).flatMap Sst.entries).Perm merged ∧ Ordered merged ∧
      merged = collectAll ((s.tree level).map (·.entries)) := by
  obtain ⟨perm, order⟩ := @collectAll_spec ((s.tree level).map (·.entries))
  refine ⟨_, ?_, order fun run mem => ?_, rfl⟩
  · exact perm
  · obtain ⟨sst, inside, rfl⟩ := mem_map.mp mem
    exact (sound.ssts level sst inside).ordered

theorem State.Sound.complete (sound : s.Sound) : Complete s a := by
  cases a with
  | addSst sst => trivial
  | maybeCompact gc =>
    intro level ssts found made
    have result := @maybeCompact_spec s level gc found (filled_of_check found)
    obtain rfl : s.made level gc = ssts := by
      rw [result] at made
      exact some.inj made
    obtain ⟨merged, perm, ordered, rfl⟩ := sound.merged level
    refine ⟨_, perm, ordered, ?_⟩
    rw [flatMap_def, (made_spec sound).1, (groups_spec sound).1]

theorem State.Sound.step (sound : s.Sound) (added : ∀ sst, a = .addSst sst → sst.Sound)
    (next : step s a = some s') : s'.Sound := by
  cases a with
  | addSst sst =>
    obtain rfl := some.inj next
    constructor
    · intro level x mem
      by_cases here : level = 0
      · subst here
        obtain rfl | mem := mem_cons.mp (addToLevel_perm.subset mem)
        · exact added x rfl
        · exact sound.ssts 0 x mem
      · simp only [addSst, update_of_ne here] at mem
        exact sound.ssts level x mem
    · intro level
      by_cases here : level = 0
      · subst here
        simpa only [addSst, update_self] using (sound.sorted 0).addToLevel
      · simpa only [addSst, update_of_ne here] using sound.sorted level
  | maybeCompact gc =>
    obtain rfl := some.inj next
    cases found : s.compactor.config.check s.tree with
    | none =>
      rw [maybeCompact_idle found]
      exact sound
    | some source =>
      have result := @maybeCompact_spec s source gc found (filled_of_check found)
      rw [result]
      constructor
      · intro level x mem
        by_cases target : level = source + 1
        · subst target
          simp only [update_self] at mem
          obtain new | old := mem_append.mp (foldl_addToLevel_perm.subset mem)
          · exact (made_spec sound).2 x new
          · exact sound.ssts _ x old
        · simp only [update_of_ne target] at mem
          by_cases emptied : level = source
          · simp [emptied] at mem
          · rw [update_of_ne emptied] at mem
            exact sound.ssts level x mem
      · intro level
        by_cases target : level = source + 1
        · subst target
          simpa only [update_self] using (sound.sorted _).foldl_addToLevel
        · simp only [update_of_ne target]
          by_cases emptied : level = source
          · simp [emptied, SortedByMin]
          · rw [update_of_ne emptied]
            exact sound.sorted level

/-- The new SSTs of a compaction are apart from one another where no key is cut. -/
theorem made_apart_iff (sound : s.Sound) : (s.made level gc).Pairwise Apart ↔
      (s.groups level gc).Pairwise fun g h => ∀ a ∈ g, ∀ b ∈ h, a.key ≠ b.key := by
  obtain ⟨entries, sounds⟩ := @made_spec s level gc sound
  have order := (pairwise_flatten.mp (@groups_spec s level gc sound).2.1).2
  rw [← entries, pairwise_map] at order ⊢
  constructor
  · intro apart
    refine (order.and apart).imp_of_mem fun {a b} ha hb both => ?_
    exact (apart_iff_of_precedes (sounds a ha) (sounds b hb) both.1).mp both.2
  · intro no_shared
    refine (order.and no_shared).imp_of_mem fun {a b} ha hb both => ?_
    exact (apart_iff_of_precedes (sounds a ha) (sounds b hb) both.1).mpr both.2

theorem singleRun_step (sound : s.Sound) (run : SingleRun (s.tree bottomLevel))
    (fits : FitsBottom s a) (next : step s a = some s') : SingleRun (s'.tree bottomLevel) := by
  cases a with
  | addSst sst =>
    obtain rfl := some.inj next
    simpa [addSst, bottomLevel] using run
  | maybeCompact gc =>
    obtain rfl := some.inj next
    cases found : s.compactor.config.check s.tree with
    | none => simpa [maybeCompact_idle found] using run
    | some source =>
      have result := @maybeCompact_spec s source gc found (filled_of_check found)
      have small := check_lt found
      by_cases bottom : source = 3
      · subst bottom
        obtain ⟨merged, perm, ordered, kept⟩ := sound.merged 3
        obtain ⟨entries, sounds⟩ := @made_spec s 3 gc sound
        obtain ⟨apart, clear⟩ := @splitGroups_of_packs _ _ _ [] _ (sound.ssts bottomLevel)
          (by simpa using ordered_apply ordered) (fun _ => rfl) (fun _ _ => by simp)
          (fits found merged perm ordered)
        have here : bottomLevel = 3 + 1 := rfl
        simp only [result, here, update_self]
        refine (singleRun_foldl_addToLevel_iff run).mpr ⟨(made_apart_iff sound).mpr ?_, ?_⟩
        · rw [groups, ← kept]
          exact apart
        · intro sst mem b inside
          have group : sst.entries ∈ s.groups 3 gc := entries ▸ mem_map_of_mem mem
          rw [groups, ← kept] at group
          exact (apart_iff_outside (sounds sst mem)).mpr (clear _ group b inside)
      · have other : bottomLevel ≠ source + 1 ∧ bottomLevel ≠ source := by
          simp only [bottomLevel] at small ⊢
          omega
        simpa [result, update_of_ne other.1, update_of_ne other.2] using run

/-- Every SST as it is recorded, and the bottom level a single run. -/
def State.Shaped (s : State) : Prop :=
  SingleRun (s.tree bottomLevel) ∧ ∀ level, ∀ sst ∈ s.tree level, sst.Sound

/-- The levels keep their shape and compactions lose and double no entry in the runs whose
compactions into the bottom level fit. -/
theorem levels_keep_shape {n : Nat} {acts : List Action}
    (sound : ∀ sst, Action.addSst sst ∈ acts → sst.Sound)
    (fits : Run.Along step FitsBottom (start config n) acts) :
    Run.Throughout step State.Shaped (start config n) acts ∧
      Run.Along step Complete (start config n) acts := by
  have init : (start config n).Sound :=
    ⟨fun level sst mem => absurd mem not_mem_nil, fun level => List.Pairwise.nil⟩
  have first : SingleRun ((start config n).tree bottomLevel) :=
    ⟨List.Pairwise.nil, List.Pairwise.nil⟩
  have added := @Run.along_of_forall _ _ step
    (fun a => ∀ sst, a = .addSst sst → sst.Sound) acts (start config n)
    fun a mem sst eq => sound sst (eq ▸ mem)
  have preserved (s : State) (a : Action) (s' : State)
      (inv : s.Sound ∧ SingleRun (s.tree bottomLevel))
      (guard : FitsBottom s a ∧ ∀ sst, a = .addSst sst → sst.Sound) (next : step s a = some s') :
      s'.Sound ∧ SingleRun (s'.tree bottomLevel) :=
    ⟨inv.1.step guard.2 next, singleRun_step inv.1 inv.2 guard.1 next⟩
  have kept := (fits.and added).of_invariant preserved
    (fun s a inv guard => show (∀ s', step s a = some s' → s'.Shaped) ∧ Complete s a from
      ⟨fun s' next => ?_, inv.1.complete⟩) ⟨init, first⟩
  · exact ⟨Run.throughout_iff_along.mpr ⟨⟨first, init.ssts⟩, kept.mono fun _ _ both => both.1⟩,
      kept.mono fun _ _ both => both.2⟩
  · obtain ⟨sound', run'⟩ := preserved s a s' inv guard next
    exact ⟨run', sound'.ssts⟩

section Rounds

/-- One SST of one version. -/
def oneVersion (level sstId : Nat) (entry : VersionedEntry) : Sst :=
  ⟨⟨sstId, level, entry.key, entry.key, entry.size, 1⟩, [entry]⟩

def largeVersion (key big : Bytes) : VersionedEntry := ⟨key, 5, some big⟩

def olderVersion (key : Bytes) : VersionedEntry := ⟨key, 3, some [7]⟩

def leveledConfig : CompactionConfig := ⟨defaultSstSizeBytes, 10, by decide, .leveled⟩

/-- No snapshot is active, so that the newest version of a key alone is kept. -/
def newestOnly : GcContext := ⟨none, []⟩

/-- Two versions of a key come in, of which the large one is moved down to the bottom. -/
def movedDown (key big : Bytes) : List Action :=
  .addSst (oneVersion 0 0 (largeVersion key big)) :: .addSst (oneVersion 0 1 (olderVersion key)) ::
    List.replicate 4 (.maybeCompact newestOnly)

/-- The bottom level alone has SSTs. -/
def atRest (bottom : List Sst) (n : Nat) : State :=
  ⟨⟨leveledConfig, n⟩, update empty bottomLevel bottom⟩

def loaded (key big : Bytes) (bottom : List Sst) (n : Nat) : State :=
  ⟨⟨leveledConfig, n⟩, update (update empty bottomLevel bottom) 0
    [oneVersion 0 1 (olderVersion key), oneVersion 0 0 (largeVersion key big)]⟩

/-- A version on its way through the levels, over what the bottom level has. -/
def movedTo (x : VersionedEntry) (bottom : List Sst) (n level : Nat) : State :=
  let tree := update empty bottomLevel bottom
  ⟨⟨leveledConfig, n + level⟩, update tree level
    (addToLevel (tree level) (oneVersion level (n + level - 1) x))⟩

/-- The version fills an SST, and the bottom level is small enough for it to go on. -/
structure Moves (x : VersionedEntry) (bottom : List Sst) : Prop where
  large : 2 ^ 26 ≤ x.size
  room : (bottom.map (·.sizeBytes)).sum ≤ 10 * 2 ^ 26

variable {x : VersionedEntry} {bottom : List Sst} {n : Nat} {key big : Bytes}

theorem movedTo_tree (above : level < bottomLevel) {level' : Nat} :
    (movedTo x bottom n level).tree level' =
      if level' = level then [oneVersion level (n + level - 1) x]
      else if level' = bottomLevel then bottom else [] := by
  have other : level ≠ bottomLevel := by omega
  by_cases here : level' = level
  · subst here
    simp [movedTo, update_of_ne other, empty, addToLevel]
  · by_cases last : level' = bottomLevel
    · simp [movedTo, last, other.symm]
    · simp [movedTo, here, last, empty]

theorem check_movedTo (moves : Moves x bottom) (inner : 0 < level ∧ level < bottomLevel) :
    leveledConfig.check (movedTo x bottom n level).tree = some level := by
  have large := moves.large
  have room := moves.room
  have full (other : Nat) (some : 0 < other) (small : other < bottomLevel) :
      leveledConfig.isFull (movedTo x bottom n level).tree other = decide (other = level) := by
    simp only [bottomLevel] at small inner
    simp only [isFull, totalSizeBytes, movedTo_tree inner.2, leveledConfig]
    by_cases here : other = level
    · subst here
      simp only [if_true, oneVersion, Nat.succ_ne_self, if_false, defaultSstSizeBytes]
      split <;> split <;> simp_all <;> omega
    · simp [here, small.ne, bottomLevel]
  have none : (movedTo x bottom n level).tree 0 = [] := by
    rw [movedTo_tree inner.2, if_neg inner.1.ne, if_neg (by decide)]
  rw [check, none, if_neg (by decide)]
  have inside : level = 1 ∨ level = 2 ∨ level = 3 := by
    simp only [bottomLevel] at inner
    omega
  have first := full 1 (by decide) (by decide)
  have second := full 2 (by decide) (by decide)
  have third := full 3 (by decide) (by decide)
  obtain rfl | rfl | rfl := inside <;> simp [first, second, third]

theorem splitIntoSsts_one (target : Nat) : splitIntoSsts target [x] = [[x]] := by
  simp [splitIntoSsts, splitGroups]

/-- A compaction that keeps one version of a level makes one SST of it in the next one. -/
theorem step_of_kept {s : State} (found : s.compactor.config.check s.tree = some level)
    (kept : newestOnly.apply (collectAll ((s.tree level).map (·.entries))) = [x]) :
    step s (.maybeCompact newestOnly) = some ⟨⟨s.compactor.config, s.compactor.nextSstId + 1⟩,
        update (update s.tree level []) (level + 1)
          (addToLevel (s.tree (level + 1)) (oneVersion (level + 1) s.compactor.nextSstId x))⟩ := by
  have groups : s.groups level newestOnly = [[x]] := by
    rw [groups, kept, splitIntoSsts_one]
  rw [step, maybeCompact_spec found (filled_of_check found), made, groups]
  rfl

theorem step_movedTo (moves : Moves x bottom) (inner : 0 < level ∧ level < bottomLevel) :
    step (movedTo x bottom n level) (.maybeCompact newestOnly) =
      some (movedTo x bottom n (level + 1)) := by
  have kept : newestOnly.apply (collectAll
      (((movedTo x bottom n level).tree level).map (·.entries))) = [x] := by
    rw [movedTo_tree inner.2, if_pos rfl]
    simp [oneVersion, collectAll, collectUpTo, nextEntry, GcContext.apply, applyFrom, newestOnly,
      GcContext.shouldKeep]
  have other : level ≠ bottomLevel := by omega
  have emptied : update (update empty bottomLevel bottom) level [] =
      update empty bottomLevel bottom := by
    rw [update_eq_self_iff, update_of_ne other]
    rfl
  rw [step_of_kept (check_movedTo moves inner) kept]
  simp only [movedTo, update_idem, emptied, update_of_ne (Nat.succ_ne_self level)]
  rfl

theorem step_loaded : step (loaded key big bottom n) (.maybeCompact newestOnly) =
    some (movedTo (largeVersion key big) bottom n 1) := by
  have kept : newestOnly.apply (collectAll
      (((loaded key big bottom n).tree 0).map (·.entries))) = [largeVersion key big] := by
    simp [loaded, oneVersion, collectAll, collectUpTo, nextEntry, VersionedEntry.before,
      largeVersion, olderVersion, GcContext.apply, applyFrom, newestOnly, GcContext.shouldKeep]
  have emptied : update (update empty bottomLevel bottom) 0 [] =
      update empty bottomLevel bottom := by
    rw [update_eq_self_iff, update_of_ne (by decide)]
    rfl
  rw [@step_of_kept 0 _ (loaded key big bottom n) rfl kept]
  simp only [loaded, movedTo, update_idem, emptied]
  rfl

theorem step_added : (step (atRest bottom n) (.addSst (oneVersion 0 0 (largeVersion key big)))).bind
        (step · (.addSst (oneVersion 0 1 (olderVersion key)))) =
      some (loaded key big bottom n) := by
  simp [step, atRest, addSst, loaded, addToLevel, empty, bottomLevel, oneVersion,
    largeVersion, olderVersion]

theorem run_compactions (moves : Moves x bottom) (count : Nat) (positive : 0 < level)
    (inner : level + count ≤ bottomLevel) :
    Run.run step (movedTo x bottom n level) (List.replicate count (.maybeCompact newestOnly)) =
      some (movedTo x bottom n (level + count)) := by
  induction count generalizing level with
  | zero => rfl
  | succ count ih =>
    have rest := @ih (level + 1) (by omega) (by omega)
    rw [Run.run, add_assoc, add_comm 1 count] at rest
    rw [replicate_succ, Run.run, foldlM_cons, step_movedTo moves (by omega)]
    exact rest

/-- Behind a round the bottom level has the large version. -/
theorem run_movedDown (moves : Moves (largeVersion key big) bottom) :
    Run.run step (atRest bottom n) (movedDown key big) =
      some (atRest (addToLevel bottom (oneVersion bottomLevel (n + 3) (largeVersion key big)))
        (n + 4)) := by
  have added := @step_added bottom n key big
  have rest := @run_compactions 1 _ bottom n moves 3 (by decide) (by decide)
  obtain ⟨s, first, second⟩ := bind_eq_some_iff.mp added
  rw [Run.run] at rest ⊢
  rw [movedDown, foldlM_cons, first, bind_eq_bind, bind_some,
    foldlM_cons, second, bind_eq_bind, bind_some, replicate_succ,
    foldlM_cons, step_loaded, bind_eq_bind, bind_some, rest]
  simp only [movedTo, atRest, bottomLevel, Nat.reduceAdd, update_idem,
    update_self]
  rfl

theorem fits_compactions (moves : Moves x bottom) (outside : Outside bottom x.key) (count : Nat)
    (positive : 0 < level) (inner : level + count ≤ bottomLevel) :
    Run.Along step FitsBottom (movedTo x bottom n level)
      (List.replicate count (.maybeCompact newestOnly)) := by
  induction count generalizing level with
  | zero => trivial
  | succ count ih =>
    have above : 0 < level ∧ level < bottomLevel := by omega
    refine ⟨fun bottom_next merged perm _ => ?_, fun s' next => ?_⟩
    · obtain rfl : level = 3 :=
        some.inj ((@check_movedTo level x bottom n moves above).symm.trans bottom_next)
      obtain rfl := perm_singleton.mp perm.symm
      rw [movedTo_tree above.2, if_neg (by decide), if_pos rfl]
      simp [GcContext.apply, applyFrom, newestOnly, GcContext.shouldKeep, Packs, outside]
    · rw [step_movedTo moves above] at next
      obtain rfl := some.inj next
      exact ih (by omega) (by omega)

theorem fits_movedDown (moves : Moves (largeVersion key big) bottom) (outside :
    Outside bottom key) :
    Run.Along step FitsBottom (atRest bottom n) (movedDown key big) := by
  refine ⟨trivial, fun s1 h1 => ⟨trivial, fun s2 h2 => ?_⟩⟩
  have added := @step_added bottom n key big
  rw [h1, bind_some, h2] at added
  obtain rfl := some.inj added
  refine ⟨fun top => absurd (show some 0 = some 3 from top) (by decide), fun s3 h3 => ?_⟩
  rw [step_loaded] at h3
  obtain rfl := some.inj h3
  exact fits_compactions moves outside 3 (by decide) (by decide)

theorem sound_movedDown (sst : Sst) (mem : Action.addSst sst ∈ movedDown key big) : sst.Sound := by
  have one (level sstId : Nat) (entry : VersionedEntry) : (oneVersion level sstId entry).Sound :=
    ⟨rfl, rfl, pairwise_singleton _ _⟩
  simp only [movedDown, mem_cons, Action.addSst.injEq, mem_replicate, reduceCtorEq,
    and_false, or_false] at mem
  obtain rfl | rfl := mem <;> exact one _ _ _

theorem start_eq_atRest : start leveledConfig 2 = atRest [] 2 := by
  simp only [start, atRest]
  congr
  exact (update_eq_self bottomLevel empty).symm

theorem moves_large {bottom : List Sst} (length : big.length = 2 ^ 26)
    (room : (bottom.map (·.sizeBytes)).sum ≤ 10 * 2 ^ 26) :
    Moves (largeVersion key big) bottom := by
  refine ⟨?_, room⟩
  simp only [VersionedEntry.size, largeVersion, map_some, getD_some, length]
  omega

/-- The bottom level behind the first of two rounds. -/
theorem moves_again {key' : Bytes} (length : big.length = 2 ^ 26) (short : key.length = 1) :
    Moves (largeVersion key' big)
      (addToLevel [] (oneVersion bottomLevel 5 (largeVersion key big))) :=
  moves_large length (by
    simp [addToLevel, oneVersion, VersionedEntry.size, largeVersion, length, short])

/-- The rounds of two keys. -/
def twoRounds (key key' big : Bytes) : List Action := movedDown key big ++ movedDown key' big

theorem sound_twoRounds {key' : Bytes} (sst : Sst)
    (mem : Action.addSst sst ∈ twoRounds key key' big) : sst.Sound :=
  (mem_append.mp mem).elim (sound_movedDown sst) (sound_movedDown sst)

theorem fits_twoRounds (length : big.length = 2 ^ 26) :
    Run.Along step FitsBottom (start leveledConfig 2) (twoRounds [1] [2] big) := by
  have first := @moves_large [1] big [] length (by simp)
  rw [start_eq_atRest]
  refine Run.Along.append (fits_movedDown first (by simp [Outside])) fun s' ran => ?_
  rw [run_movedDown first] at ran
  obtain rfl := some.inj ran
  refine fits_movedDown (moves_again length rfl) ?_
  simp [Outside, addToLevel, oneVersion, largeVersion]
  decide

theorem not_shaped_twoRounds (length : big.length = 2 ^ 26) :
    ¬ Run.Throughout step State.Shaped (start leveledConfig 2) (twoRounds [1] [1] big) := by
  intro shaped
  rw [start_eq_atRest] at shaped
  have first := @run_movedDown [] 2 [1] big (moves_large length (by simp))
  have second := @run_movedDown _ 6 [1] big (@moves_again [1] big [1] length rfl)
  generalize ended : addToLevel (addToLevel [] (oneVersion bottomLevel 5 (largeVersion [1] big)))
    (oneVersion bottomLevel (6 + 3) (largeVersion [1] big)) = bottom at second
  have ran : Run.run step (atRest [] 2) (twoRounds [1] [1] big) = some (atRest bottom 10) := by
    rw [twoRounds, Run.run, foldlM_append]
    rw [Run.run] at first second
    rw [first, bind_eq_bind, bind_some, second]
  have apart := (shaped _ [] _ (append_nil _) ran).1.2
  simp [atRest, ← ended, addToLevel, oneVersion, largeVersion, Apart] at apart

end Rounds

/-- The second round puts its SST beside that of the first. -/
theorem levels_keep_shape_two_rounds : Run.Throughout step State.Shaped (start leveledConfig 2)
        (twoRounds [1] [2] (List.replicate (2 ^ 26) 0)) ∧
      Run.Along step Complete (start leveledConfig 2)
        (twoRounds [1] [2] (List.replicate (2 ^ 26) 0)) :=
  levels_keep_shape sound_twoRounds (fits_twoRounds length_replicate)

/-- A key that is compacted twice is in two SSTs of the bottom level. -/
theorem levels_keep_shape_fails :
    (∀ sst, Action.addSst sst ∈ twoRounds [1] [1] (List.replicate (2 ^ 26) 0) → sst.Sound) ∧
      ¬ Run.Throughout step State.Shaped (start leveledConfig 2)
        (twoRounds [1] [1] (List.replicate (2 ^ 26) 0)) :=
  ⟨sound_twoRounds, not_shaped_twoRounds length_replicate⟩

end Steps

end GalaxDb.LazyLeveling
