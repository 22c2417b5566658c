import Mathlib.Data.Finset.Card
import Mathlib.Logic.Function.Basic

/-!
# Trees of parent pointers

A node that is its own parent is a root. In a forest every node climbs to a root; two nodes
are in the same tree if they climb to the same one. Pointing a node at its root keeps the
trees, pointing a root at another root merges two of them.
-/

universe u

namespace Forest

open Function

variable {α : Type u}

/-- From a node to its root, by the number of steps. -/
inductive Climbs (parent : α → α) : Nat → α → α → Prop where
  | root {r : α} : parent r = r → Climbs parent 0 r r
  | step {d : Nat} {x r : α} : parent x ≠ x → Climbs parent d (parent x) r →
      Climbs parent (d + 1) x r

def RootOf (parent : α → α) (x r : α) : Prop := ∃ d, Climbs parent d x r

/-- Every node has a root. -/
def Grounded (parent : α → α) : Prop := ∀ x, ∃ r, RootOf parent x r

def SameTree (parent : α → α) (x y : α) : Prop := ∃ r, RootOf parent x r ∧ RootOf parent y r

variable {parent : α → α} {x y r s : α} {d e : Nat}

theorem Climbs.unique (h : Climbs parent d x r) (h' : Climbs parent e x s) : d = e ∧ r = s := by
  induction h generalizing e with
  | root fixed =>
    cases h' with
    | root _ => exact ⟨rfl, rfl⟩
    | step moves _ => exact absurd fixed moves
  | step moves _ ih =>
    cases h' with
    | root fixed => exact absurd fixed moves
    | step _ rest =>
      obtain ⟨rfl, rfl⟩ := ih rest
      exact ⟨rfl, rfl⟩

theorem Climbs.fixed (h : Climbs parent d x r) : parent r = r := by
  induction h with
  | root fixed => exact fixed
  | step _ _ ih => exact ih

theorem RootOf.unique (h : RootOf parent x r) (h' : RootOf parent x s) : r = s := by
  obtain ⟨_, h⟩ := h
  obtain ⟨_, h'⟩ := h'
  exact (h.unique h').2

theorem RootOf.fixed (h : RootOf parent x r) : parent r = r := by
  obtain ⟨_, h⟩ := h
  exact h.fixed

theorem rootOf_self (fixed : parent r = r) : RootOf parent r r := ⟨0, .root fixed⟩

theorem RootOf.step (moves : parent x ≠ x) (h : RootOf parent (parent x) r) :
    RootOf parent x r := by
  obtain ⟨d, h⟩ := h
  exact ⟨d + 1, .step moves h⟩

theorem RootOf.parent_iff : RootOf parent (parent x) r ↔ RootOf parent x r := by
  by_cases fixed : parent x = x
  · rw [fixed]
  · constructor
    · exact RootOf.step fixed
    · rintro ⟨d, h⟩
      cases h with
      | root same => exact absurd same fixed
      | step _ rest => exact ⟨_, rest⟩

/-- What is closed under parents has the roots of its nodes. -/
theorem Climbs.closed {S : α → Prop} (closed : ∀ x, S x → S (parent x))
    (h : Climbs parent d x r) (inside : S x) : S r := by
  induction h with
  | root _ => exact inside
  | step _ _ ih => exact ih (closed _ inside)

/-- The nodes on the way have all the smaller depths. -/
theorem Climbs.exists_depth {S : α → Prop} (closed : ∀ x, S x → S (parent x))
    (h : Climbs parent d x r) (inside : S x) : ∀ i ≤ d, ∃ y, S y ∧ Climbs parent i y r := by
  induction h with
  | root fixed =>
    intro i le
    obtain rfl : i = 0 := by omega
    exact ⟨_, inside, .root fixed⟩
  | @step d x r moves rest ih =>
    intro i le
    by_cases top : i = d + 1
    · exact ⟨x, inside, top ▸ .step moves rest⟩
    · exact ih (closed x inside) i (by omega)

/-- A climb inside a finite set meets every node once. -/
theorem Climbs.depth_lt {S : Finset α} (closed : ∀ x ∈ S, parent x ∈ S)
    (h : Climbs parent d x r) (inside : x ∈ S) : d < S.card := by
  have : Nonempty α := ⟨x⟩
  have on_way : ∀ i, i ≤ d → ∃ y, y ∈ S ∧ Climbs parent i y r := h.exists_depth closed inside
  choose! node member climbs using on_way
  have injective : Set.InjOn node (Finset.range (d + 1) : Finset Nat) := by
    intro i at_i j at_j same
    have hi := climbs i (by simpa [Nat.lt_succ_iff] using at_i)
    have hj := climbs j (by simpa [Nat.lt_succ_iff] using at_j)
    rw [same] at hi
    exact (hi.unique hj).1
  have count := Finset.card_le_card_of_injOn node
    (fun i at_i => member i (by simpa [Nat.lt_succ_iff] using at_i)) injective
  rw [Finset.card_range] at count
  omega

theorem SameTree.refl (grounded : Grounded parent) (x : α) : SameTree parent x x := by
  obtain ⟨r, h⟩ := grounded x
  exact ⟨r, h, h⟩

theorem SameTree.symm (h : SameTree parent x y) : SameTree parent y x := by
  obtain ⟨r, hx, hy⟩ := h
  exact ⟨r, hy, hx⟩

theorem SameTree.trans {z : α} (h : SameTree parent x y) (h' : SameTree parent y z) :
    SameTree parent x z := by
  obtain ⟨r, hx, hy⟩ := h
  obtain ⟨s, hy', hz⟩ := h'
  obtain rfl := hy.unique hy'
  exact ⟨r, hx, hz⟩

/-- Nodes are in one tree if and only if their roots are the same. -/
theorem sameTree_iff (hx : RootOf parent x r) (hy : RootOf parent y s) :
    SameTree parent x y ↔ r = s := by
  constructor
  · rintro ⟨t, hx', hy'⟩
    rw [hx.unique hx', hy.unique hy']
  · rintro rfl
    exact ⟨r, hx, hy⟩

theorem sameTree_congr {parent' : α → α} (same : ∀ x r, RootOf parent' x r ↔ RootOf parent x r) :
    SameTree parent' x y ↔ SameTree parent x y := by
  simp only [SameTree, same]

section Updates

variable [DecidableEq α] {c a b : α}

/-- Pointing a node at its root makes no climb longer. -/
theorem Climbs.redirect (below : RootOf parent c r) (h : Climbs parent d x s) :
    ∃ e ≤ d, Climbs (update parent c r) e x s := by
  induction h with
  | @root t fixed =>
    refine ⟨0, Nat.le_refl 0, .root ?_⟩
    by_cases at_c : t = c
    · subst at_c
      rw [update_self]
      exact below.unique (rootOf_self fixed)
    · rw [update_of_ne at_c, fixed]
  | @step d x s moves rest ih =>
    by_cases at_c : x = c
    · subst at_c
      obtain rfl := below.unique ⟨_, .step moves rest⟩
      have apart : r ≠ x := by
        rintro rfl
        exact moves below.fixed
      have top : Climbs (update parent x r) 0 r r :=
        .root (by rw [update_of_ne apart, below.fixed])
      refine ⟨1, by omega, .step ?_ ?_⟩
      · rwa [update_self]
      · rwa [update_self]
    · obtain ⟨e, le, climbs⟩ := ih
      refine ⟨e + 1, by omega, .step ?_ ?_⟩
      · rwa [update_of_ne at_c]
      · rwa [update_of_ne at_c]

/-- Pointing a node at its root changes no root. -/
theorem rootOf_redirect (grounded : Grounded parent) (below : RootOf parent c r) :
    RootOf (update parent c r) x s ↔ RootOf parent x s := by
  constructor
  · intro h
    obtain ⟨t, d, climbs⟩ := grounded x
    obtain ⟨e, _, now⟩ := climbs.redirect below
    obtain rfl := h.unique ⟨e, now⟩
    exact ⟨d, climbs⟩
  · rintro ⟨d, h⟩
    obtain ⟨e, _, now⟩ := h.redirect below
    exact ⟨e, now⟩

theorem grounded_redirect (grounded : Grounded parent) (below : RootOf parent c r) :
    Grounded (update parent c r) := by
  intro x
  obtain ⟨s, h⟩ := grounded x
  exact ⟨s, (rootOf_redirect grounded below).mpr h⟩

/-- Pointing a root at another one gives its tree the other root. -/
theorem rootOf_link (root_a : parent a = a) (root_b : parent b = b) (apart : a ≠ b)
    (h : RootOf parent x r) :
    RootOf (update parent a b) x (if r = a then b else r) := by
  obtain ⟨d, h⟩ := h
  induction h with
  | @root t fixed =>
    by_cases at_a : t = a
    · subst at_a
      rw [if_pos rfl]
      refine (RootOf.parent_iff (x := t)).mp ?_
      rw [update_self]
      exact rootOf_self (by rw [update_of_ne apart.symm, root_b])
    · rw [if_neg at_a]
      exact rootOf_self (by rw [update_of_ne at_a, fixed])
  | @step d x t moves _ ih =>
    have inner : x ≠ a := by
      rintro rfl
      exact moves root_a
    refine (RootOf.parent_iff (x := x)).mp ?_
    rwa [update_of_ne inner]

theorem grounded_link (grounded : Grounded parent) (root_a : parent a = a)
    (root_b : parent b = b) (apart : a ≠ b) : Grounded (update parent a b) := by
  intro x
  obtain ⟨s, h⟩ := grounded x
  exact ⟨_, rootOf_link root_a root_b apart h⟩

/-- Linking merges the trees of the two roots and no others. -/
theorem sameTree_link (grounded : Grounded parent) (root_a : parent a = a) (root_b : parent b = b)
    (apart : a ≠ b) : SameTree (update parent a b) x y ↔ SameTree parent x y ∨
      (SameTree parent x a ∨ SameTree parent x b) ∧
        (SameTree parent y a ∨ SameTree parent y b) := by
  obtain ⟨r, hx⟩ := grounded x
  obtain ⟨s, hy⟩ := grounded y
  rw [sameTree_iff (rootOf_link root_a root_b apart hx) (rootOf_link root_a root_b apart hy),
    sameTree_iff hx hy, sameTree_iff hx (rootOf_self root_a), sameTree_iff hx (rootOf_self root_b),
    sameTree_iff hy (rootOf_self root_a), sameTree_iff hy (rootOf_self root_b)]
  grind

end Updates

end Forest
