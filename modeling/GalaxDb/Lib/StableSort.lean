import Mathlib.Data.List.Perm.Basic
import Mathlib.Data.List.Nodup

/-!
# Stable sorts

A stable sort puts the items in order and leaves those that the order does not separate as
it found them. Of a list without repetitions there is one, and two orders give the same one
exactly when they invert the same pairs.
-/

namespace GalaxDb.StableSort

open Std List

variable {α : Type*} {before before' : α → α → Prop} {rows sorted sorted' : List α}

/-- `a` stands somewhere ahead of `b`. -/
def Ahead (rows : List α) (a b : α) : Prop := [a, b].Sublist rows

variable {a b : α}

theorem Ahead.mem (ahead : Ahead rows a b) : a ∈ rows ∧ b ∈ rows :=
  ⟨List.Sublist.subset ahead (by simp), List.Sublist.subset ahead (by simp)⟩

theorem ahead_cons {x : α} : Ahead (x :: rows) a b ↔ Ahead rows a b ∨ (a = x ∧ b ∈ rows) := by
  rw [Ahead, Ahead, cons_sublist_cons', singleton_sublist]

theorem ahead_or_ahead (memberA : a ∈ rows) (memberB : b ∈ rows) (apart : a ≠ b) :
    Ahead rows a b ∨ Ahead rows b a := by
  induction rows with
  | nil => cases memberA
  | cons x rest ih =>
    simp only [ahead_cons]
    rcases mem_cons.mp memberA with headA | tailA
    · rcases mem_cons.mp memberB with headB | tailB
      · exact absurd (headA.trans headB.symm) apart
      · exact Or.inl (Or.inr ⟨headA, tailB⟩)
    · rcases mem_cons.mp memberB with headB | tailB
      · exact Or.inr (Or.inr ⟨headB, tailA⟩)
      · exact (ih tailA tailB).imp Or.inl Or.inl

theorem Ahead.not_back (once : rows.Nodup) (ahead : Ahead rows a b) : ¬ Ahead rows b a := by
  induction rows with
  | nil => cases ahead
  | cons x rest ih =>
    obtain ⟨fresh, onceRest⟩ := nodup_cons.mp once
    intro back
    rcases ahead_cons.mp ahead with later | ⟨headA, member⟩
    · rcases ahead_cons.mp back with back | ⟨headB, -⟩
      · exact ih onceRest later back
      · exact fresh (headB ▸ later.mem.2)
    · rcases ahead_cons.mp back with back | ⟨headB, -⟩
      · exact fresh (headA ▸ back.mem.2)
      · exact fresh (headB ▸ member)

theorem Ahead.ne (once : rows.Nodup) (ahead : Ahead rows a b) : a ≠ b := by
  rintro rfl
  exact ahead.not_back once ahead

section Sorts

structure IsStableSort (before : α → α → Prop) (rows sorted : List α) : Prop where
  perm : sorted.Perm rows
  ordered : sorted.Pairwise fun a b => ¬ before b a
  stable : ∀ a b, Ahead rows a b → ¬ before b a → Ahead sorted a b

namespace IsStableSort

variable {a b : α}

theorem mem_iff (sort : IsStableSort before rows sorted) : a ∈ sorted ↔ a ∈ rows :=
  sort.perm.mem_iff

theorem not_before (sort : IsStableSort before rows sorted) (ahead : Ahead sorted a b) :
    ¬ before b a :=
  pairwise_iff_forall_sublist.mp sort.ordered ahead

/-- What stands ahead only after the sort was put there by the order. -/
theorem before_of_overtaken (sort : IsStableSort before rows sorted) (once : rows.Nodup)
    (ahead : Ahead sorted a b) (back : Ahead rows b a) : before a b := by
  by_contra apart
  exact (sort.stable b a back apart).not_back (sort.perm.nodup_iff.mpr once) ahead

theorem eq (once : rows.Nodup) (first : IsStableSort before rows sorted)
    (second : IsStableSort before rows sorted') : sorted = sorted' := by
  have once1 : sorted.Nodup := first.perm.nodup_iff.mpr once
  have once2 : sorted'.Nodup := second.perm.nodup_iff.mpr once
  have same : sorted.Perm sorted' := first.perm.trans second.perm.symm
  have antisymmetric : ∀ a b, a ∈ sorted → b ∈ sorted' → Ahead sorted' a b → Ahead sorted' b a →
      a = b := fun a b _ _ ahead back => absurd back (ahead.not_back once2)
  have itself : sorted'.Pairwise (Ahead sorted') := pairwise_iff_forall_sublist.mpr id
  refine same.eq_of_pairwise antisymmetric ?_ itself
  refine pairwise_iff_forall_sublist.mpr fun {a b} (ahead : Ahead sorted a b) => ?_
  have apart := ahead.ne once1
  obtain ⟨memberA, memberB⟩ := ahead.mem
  rcases ahead_or_ahead (first.mem_iff.mp memberA) (first.mem_iff.mp memberB) apart
    with kept | overtaken
  · exact second.stable a b kept (first.not_before ahead)
  · have less := first.before_of_overtaken once ahead overtaken
    rcases ahead_or_ahead (same.mem_iff.mp memberA) (same.mem_iff.mp memberB) apart with
      there | back
    · exact there
    · exact absurd less (second.not_before back)

theorem congr (sort : IsStableSort before rows sorted)
    (same : ∀ a ∈ rows, ∀ b ∈ rows, before a b ↔ before' a b) :
    IsStableSort before' rows sorted where
  perm := sort.perm
  ordered := sort.ordered.imp_of_mem fun memberA memberB apart less =>
    apart ((same _ (sort.mem_iff.mp memberB) _ (sort.mem_iff.mp memberA)).mpr less)
  stable a b ahead apart := sort.stable a b ahead fun less =>
    apart ((same b ahead.mem.2 a ahead.mem.1).mp less)

/-- An order that inverts the same pairs of the list sorts it the same way. -/
theorem of_same_inversions (once : rows.Nodup)
    (asymmetric : ∀ a ∈ rows, ∀ b ∈ rows, before' a b → ¬ before' b a)
    (sort : IsStableSort before rows sorted)
    (same : ∀ a b, Ahead rows a b → (before b a ↔ before' b a)) :
    IsStableSort before' rows sorted where
  perm := sort.perm
  ordered := by
    refine pairwise_iff_forall_sublist.mpr fun {a b} (ahead : Ahead sorted a b) => ?_
    obtain ⟨memberA, memberB⟩ := ahead.mem
    rcases ahead_or_ahead (sort.mem_iff.mp memberA) (sort.mem_iff.mp memberB)
      (ahead.ne (sort.perm.nodup_iff.mpr once)) with kept | overtaken
    · exact fun less => sort.not_before ahead ((same a b kept).mpr less)
    · have less := sort.before_of_overtaken once ahead overtaken
      exact asymmetric a (sort.mem_iff.mp memberA) b (sort.mem_iff.mp memberB)
        ((same b a overtaken).mp less)
  stable a b ahead apart := sort.stable a b ahead fun less => apart ((same a b ahead).mp less)

theorem eq_iff_same_inversions (once : rows.Nodup)
    (asymmetric : ∀ a ∈ rows, ∀ b ∈ rows, before' a b → ¬ before' b a)
    (sort : IsStableSort before rows sorted)
    (sort' : IsStableSort before' rows sorted') :
    sorted = sorted' ↔ ∀ a b, Ahead rows a b → (before b a ↔ before' b a) := by
  constructor
  · rintro rfl a b ahead
    constructor
    · intro less
      by_contra apart
      exact sort.not_before (sort'.stable a b ahead apart) less
    · intro less
      by_contra apart
      exact sort'.not_before (sort.stable a b ahead apart) less
  · intro same
    exact (sort.of_same_inversions once asymmetric same).eq once sort'

end IsStableSort

variable {cmp cmp' : α → α → Ordering}

theorem isStableSort_mergeSort [TransCmp cmp] (rows : List α) :
    IsStableSort (fun a b => cmp a b = .lt) rows (rows.mergeSort fun a b => cmp a b ≠ .gt) := by
  have order (a b : α) : decide (cmp a b ≠ .gt) = true ↔ ¬ cmp b a = .lt := by
    rw [decide_eq_true_iff, Ne, OrientedCmp.gt_iff_lt]
  have trans (a b c : α) (first : decide (cmp a b ≠ .gt) = true)
      (second : decide (cmp b c ≠ .gt) = true) : decide (cmp a c ≠ .gt) = true := by
    simp only [decide_eq_true_iff, ← Ordering.isLE_iff_ne_gt] at *
    exact TransCmp.isLE_trans first second
  have total (a b : α) : (decide (cmp a b ≠ .gt) || decide (cmp b a ≠ .gt)) = true := by
    rw [Bool.or_eq_true, order, order]
    by_cases less : cmp b a = .lt
    · exact Or.inr fun back => by simp [OrientedCmp.gt_of_lt less] at back
    · exact Or.inl less
  refine ⟨mergeSort_perm .., ?_, fun a b ahead apart => ?_⟩
  · exact (pairwise_mergeSort trans total rows).imp fun h => (order _ _).mp h
  · exact pair_sublist_mergeSort trans total ((order a b).mpr apart) ahead

/-- The sort looks at the comparison of items of the list only. -/
theorem mergeSort_congr (same : ∀ a ∈ rows, ∀ b ∈ rows, cmp a b = cmp' a b) :
    (rows.mergeSort fun a b => cmp a b ≠ .gt) = rows.mergeSort fun a b => cmp' a b ≠ .gt := by
  have mapped := map_mergeSort (r := fun a b => decide (cmp a b ≠ .gt))
    (s := fun a b => decide (cmp' a b ≠ .gt)) (f := id) (l := rows)
    fun a memberA b memberB => by simp [same a memberA b memberB]
  simpa using mapped

end Sorts

/-- What OFFSET and LIMIT leave of a list. -/
def window (offset : Nat) (limit : Option Nat) (l : List α) : List α :=
  match limit with
  | some n => (l.drop offset).take n
  | none => l.drop offset

/-- Consecutive windows of one size are the list from its start. -/
theorem consecutive_windows (l : List α) (size count : Nat) :
    ((List.range count).flatMap fun i => window (i * size) (some size) l) =
      l.take (count * size) := by
  induction count with
  | zero => simp
  | succ count ih =>
    rw [range_succ, flatMap_append, ih, Nat.succ_mul, take_add]
    simp [window]

end GalaxDb.StableSort
