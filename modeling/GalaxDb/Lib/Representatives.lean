import Mathlib.Data.List.Induction
import Mathlib.Data.List.Nodup

/-!
# One representative of each group

Of the items of a group the one with the least key is kept, and all items without a group. What
is kept does not depend on the order of the items.
-/

universe u v w

namespace Representatives

open Std

variable {α : Type u} {κ : Type v} {β : Type w} [Ord β]

/-- The least key of a group. -/
def smallest [DecidableEq κ] (groupOf : α → Option κ) (keyOf : α → β) (items : List α) (group : κ) :
    Option β :=
  items.foldl (fun best a =>
    if groupOf a = some group then
      match best with
      | some b => if compare (keyOf a) b = .lt then some (keyOf a) else some b
      | none => some (keyOf a)
    else best) none

/-- Another item of the group has a smaller key. -/
def Beaten (groupOf : α → Option κ) (keyOf : α → β) (items : List α) (a : α) : Prop :=
  ∃ group, groupOf a = some group ∧
    ∃ b ∈ items, groupOf b = some group ∧ compare (keyOf b) (keyOf a) = .lt

variable {groupOf : α → Option κ} {keyOf : α → β} {items items' : List α} {group : κ} {a : α}

theorem beaten_congr (same : ∀ a, a ∈ items ↔ a ∈ items') :
    Beaten groupOf keyOf items a ↔ Beaten groupOf keyOf items' a := by
  simp only [Beaten, same]

variable [DecidableEq κ]

section Smallest

theorem smallest_snoc : smallest groupOf keyOf (items ++ [a]) group = if groupOf a = some group then
      match smallest groupOf keyOf items group with
      | some b => if compare (keyOf a) b = .lt then some (keyOf a) else some b
      | none => some (keyOf a)
    else smallest groupOf keyOf items group := by
  rw [smallest, List.foldl_append]
  rfl

theorem smallest_eq_none : smallest groupOf keyOf items group = none ↔
    ∀ a ∈ items, groupOf a ≠ some group := by
  induction items using List.reverseRecOn with
  | nil => simp [smallest]
  | append_singleton items a ih =>
    rw [smallest_snoc]
    by_cases inside : groupOf a = some group
    · rw [if_pos inside]
      constructor
      · intro none_least
        split at none_least
        · split at none_least <;> cases none_least
        · cases none_least
      · intro all
        exact absurd inside (all a (by simp))
    · rw [if_neg inside, ih]
      simp [or_imp, forall_and, inside]

variable [TransOrd β]

/-- It is the key of an item of the group, and no other is less. -/
theorem smallest_spec {least : β} (found : smallest groupOf keyOf items group = some least) :
    (∃ a ∈ items, groupOf a = some group ∧ keyOf a = least) ∧
      ∀ a ∈ items, groupOf a = some group → compare (keyOf a) least ≠ .lt := by
  induction items using List.reverseRecOn generalizing least with
  | nil => cases found
  | append_singleton items a ih =>
    rw [smallest_snoc] at found
    by_cases inside : groupOf a = some group
    · rw [if_pos inside] at found
      split at found
      · next b before =>
        obtain ⟨⟨c, mem_c, group_c, key_c⟩, minimal⟩ := ih before
        split at found
        · next less =>
          obtain rfl := Option.some.inj found
          refine ⟨⟨a, by simp, inside, rfl⟩, ?_⟩
          intro d mem_d group_d
          rcases List.mem_append.mp mem_d with earlier | last
          · intro smaller
            exact minimal d earlier group_d (TransCmp.lt_trans smaller less)
          · obtain rfl := List.mem_singleton.mp last
            simp
        · next notLess =>
          obtain rfl := Option.some.inj found
          refine ⟨⟨c, by simp [mem_c], group_c, key_c⟩, ?_⟩
          intro d mem_d group_d
          rcases List.mem_append.mp mem_d with earlier | last
          · exact minimal d earlier group_d
          · obtain rfl := List.mem_singleton.mp last
            exact notLess
      · next nobody =>
        obtain rfl := Option.some.inj found
        refine ⟨⟨a, by simp, inside, rfl⟩, ?_⟩
        intro d mem_d group_d
        rcases List.mem_append.mp mem_d with earlier | last
        · exact absurd group_d (smallest_eq_none.mp nobody d earlier)
        · obtain rfl := List.mem_singleton.mp last
          simp
    · rw [if_neg inside] at found
      obtain ⟨⟨c, mem_c, group_c, key_c⟩, minimal⟩ := ih found
      refine ⟨⟨c, by simp [mem_c], group_c, key_c⟩, ?_⟩
      intro d mem_d group_d
      rcases List.mem_append.mp mem_d with earlier | last
      · exact minimal d earlier group_d
      · obtain rfl := List.mem_singleton.mp last
        exact absurd group_d inside

end Smallest

section Kept

variable [TransOrd β] [LawfulEqOrd β]

/-- The key of an item is the least of its group if and only if nothing beats it. -/
theorem smallest_eq_key (inside : groupOf a = some group) (mem : a ∈ items) :
    smallest groupOf keyOf items group = some (keyOf a) ↔ ¬Beaten groupOf keyOf items a := by
  constructor
  · rintro found ⟨other, same, b, mem_b, group_b, less⟩
    obtain rfl := Option.some.inj (inside.symm.trans same)
    exact (smallest_spec found).2 b mem_b group_b less
  · intro unbeaten
    cases found : smallest groupOf keyOf items group with
    | none => exact absurd inside (smallest_eq_none.mp found a mem)
    | some least =>
      obtain ⟨⟨b, mem_b, group_b, rfl⟩, minimal⟩ := smallest_spec found
      have notLess : compare (keyOf b) (keyOf a) ≠ .lt := fun less =>
        unbeaten ⟨group, inside, b, mem_b, group_b, less⟩
      have notMore := minimal a mem inside
      refine congrArg some (Std.compare_eq_iff_eq.mp ?_)
      rw [@OrientedCmp.eq_swap β compare _ (keyOf a) (keyOf b)] at notMore
      cases order : compare (keyOf b) (keyOf a) with
      | lt => exact absurd order notLess
      | eq => rfl
      | gt =>
        rw [order] at notMore
        exact absurd rfl notMore

end Kept

end Representatives
