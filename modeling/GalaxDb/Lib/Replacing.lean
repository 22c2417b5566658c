import Mathlib.Data.List.Infix

/-!
# Replacing a part of a text

All occurrences of a pattern are replaced from left to right, those that overlap an earlier one
left out. What is put in their place is not searched again.
-/

universe u

namespace Replacing

open List

variable {α : Type u} [DecidableEq α]

/-- The rest of a replaced occurrence is passed over. -/
def replaceAll (pattern new : List α) : Nat → List α → List α
  | _, [] => []
  | skip + 1, _ :: s => replaceAll pattern new skip s
  | 0, c :: s =>
    if pattern.isPrefixOf (c :: s) then new ++ replaceAll pattern new (pattern.length - 1) s
    else c :: replaceAll pattern new 0 s

def replace (pattern new s : List α) : List α := replaceAll pattern new 0 s

variable {pattern new s a : List α} {c d : α}

theorem replaceAll_skip (a s : List α) :
    replaceAll pattern new a.length (a ++ s) = replace pattern new s := by
  induction a with
  | nil => rfl
  | cons c a ih => exact ih

@[simp] theorem replace_nil : replace pattern new [] = [] := rfl

theorem replace_here : replace (c :: pattern) new (c :: pattern ++ s) =
    new ++ replace (c :: pattern) new s := by
  have front : (c :: pattern).isPrefixOf (c :: (pattern ++ s)) = true :=
    isPrefixOf_iff_prefix.mpr (prefix_append (c :: pattern) s)
  rw [replace, cons_append, replaceAll, if_pos front]
  exact congrArg (new ++ ·) (replaceAll_skip pattern s)

theorem replace_cons (absent : ¬ pattern <+: c :: s) :
    replace pattern new (c :: s) = c :: replace pattern new s := by
  rw [replace, replaceAll, if_neg fun front => absent (List.isPrefixOf_iff_prefix.mp front)]
  rfl

theorem replace_cons_of_ne (other : d ≠ c) :
    replace (c :: pattern) new (d :: s) = d :: replace (c :: pattern) new s :=
  replace_cons fun front => other (cons_prefix_cons.mp front).1.symm

/-- A part without the first letter of the pattern stays. -/
theorem replace_append_of_notMem (absent : c ∉ a) :
    replace (c :: pattern) new (a ++ s) = a ++ replace (c :: pattern) new s := by
  induction a with
  | nil => rfl
  | cons d a ih =>
    have other : d ≠ c := fun same => absent (same ▸ mem_cons_self)
    rw [cons_append, replace_cons_of_ne other,
      ih fun mem => absent (mem_cons_of_mem d mem), cons_append]

/-- So does a part without the pattern, up to a letter that the pattern does not have. -/
theorem replace_append_of_separated (separator : d ∉ pattern) (absent : ¬ pattern <:+: a) :
    replace pattern new (a ++ d :: s) = a ++ d :: replace pattern new s := by
  have across {a : List α} (front : pattern <+: a ++ d :: s) : pattern <+: a := by
    rcases prefix_or_prefix_of_prefix front (prefix_append a (d :: s)) with short | long
    · exact short
    · obtain ⟨t, rfl⟩ := long
      obtain ⟨r, eq⟩ := front
      rw [append_assoc, append_cancel_left_eq] at eq
      cases t with
      | nil => simp
      | cons e t =>
        obtain rfl := (cons.inj eq).1
        simp at separator
  induction a with
  | nil =>
    exact replace_cons fun front => absent (across (a := []) front).isInfix
  | cons e a ih =>
    have rest := ih fun inside => absent (inside.trans (suffix_cons e a).isInfix)
    have here : ¬ pattern <+: e :: (a ++ d :: s) := fun front =>
      absent (across (a := e :: a) front).isInfix
    rw [cons_append, replace_cons here, rest, cons_append]

/-- The first occurrence in a part is replaced. -/
theorem replace_first (occurs : (c :: pattern) <:+: a) : ∃ a1 a2, a = a1 ++ c :: a2 ∧
      ∀ s, ∃ r, replace (c :: pattern) new (a ++ s) = a1 ++ new ++ r := by
  induction a with
  | nil => simp at occurs
  | cons e a ih =>
    by_cases front : (c :: pattern) <+: e :: a
    · obtain ⟨rfl, ⟨t, rfl⟩⟩ := cons_prefix_cons.mp front
      refine ⟨[], pattern ++ t, rfl, fun s => ⟨replace (c :: pattern) new (t ++ s), ?_⟩⟩
      rw [← cons_append, append_assoc, replace_here]
      rfl
    · have inside := (infix_cons_iff.mp occurs).resolve_left front
      obtain ⟨a1, a2, rfl, replaced⟩ := ih inside
      refine ⟨e :: a1, a2, rfl, fun s => ?_⟩
      have here : ¬ (c :: pattern) <+: e :: (a1 ++ c :: a2 ++ s) := fun reaches => front <|
        prefix_of_prefix_length_le reaches (prefix_append (e :: (a1 ++ c :: a2)) s)
          (Nat.le_succ_of_le inside.length_le)
      obtain ⟨r, eq⟩ := replaced s
      exact ⟨r, by rw [cons_append, replace_cons here, eq]; rfl⟩

/-- Up to a letter that begins no occurrence, either an occurrence begins or nothing changes. -/
theorem replace_up_to (other : d ≠ c) (a s : List α) :
    (∃ a1 a2 r, a = a1 ++ c :: a2 ∧ replace (c :: pattern) new (a ++ d :: s) = a1 ++ new ++ r) ∨
      ∃ r, replace (c :: pattern) new (a ++ d :: s) = a ++ d :: r := by
  induction a with
  | nil => exact .inr ⟨_, replace_cons_of_ne other⟩
  | cons e a ih =>
    by_cases front : (c :: pattern) <+: e :: (a ++ d :: s)
    · obtain ⟨rfl, ⟨r, eq⟩⟩ := cons_prefix_cons.mp front
      refine .inl ⟨[], a, replace (c :: pattern) new r, rfl, ?_⟩
      rw [cons_append, ← eq, ← cons_append, replace_here]
      rfl
    · rw [cons_append, replace_cons front]
      rcases ih with ⟨a1, a2, r, rfl, eq⟩ | ⟨r, eq⟩
      · exact .inl ⟨e :: a1, a2, r, rfl, by rw [eq]; rfl⟩
      · exact .inr ⟨r, by rw [eq]; rfl⟩

end Replacing
