import Mathlib.Data.List.Perm.Basic

/-!
# Priority queues

A queue is given by its pushes and pops on a list of what it has, in whatever order the list is.
A pop takes one of the greatest, and which one of several is not said, so what is proved of every
queue holds for each way to break ties.
-/

universe u

/-- Pushes and pops of a priority queue. -/
structure PriorityQueue (γ : Type u) (le : γ → γ → Prop) where
  push : γ → List γ → List γ
  pop : List γ → Option (γ × List γ)
  push_perm : ∀ x heap, (push x heap).Perm (x :: heap)
  pop_isSome : ∀ {heap}, heap ≠ [] → (pop heap).isSome
  pop_perm : ∀ {heap top rest}, pop heap = some (top, rest) → heap.Perm (top :: rest)
  pop_greatest : ∀ {heap top rest}, pop heap = some (top, rest) → ∀ x ∈ rest, le x top

namespace PriorityQueue

variable {γ : Type u} {le : γ → γ → Prop}

theorem pop_eq_none (queue : PriorityQueue γ le) {heap : List γ} :
    queue.pop heap = none ↔ heap = [] := by
  constructor
  · intro none
    by_contra some
    have popped := queue.pop_isSome some
    rw [none] at popped
    cases popped
  · rintro rfl
    cases popped : queue.pop [] with
    | none => rfl
    | some found => exact absurd (queue.pop_perm popped) (by simp)

section First

variable [DecidableRel le]

/-- The first greatest element, and the others in their order. -/
def takeFirst (le : γ → γ → Prop) [DecidableRel le] : List γ → Option (γ × List γ)
  | [] => none
  | x :: rest =>
    match takeFirst le rest with
    | none => some (x, rest)
    | some (y, others) => if le y x then some (x, rest) else some (y, x :: others)

theorem takeFirst_spec (total : ∀ a b, le a b ∨ le b a) (trans : ∀ a b c, le a b → le b c → le a c)
    {heap rest : List γ} {top : γ} (taken : takeFirst le heap = some (top, rest)) :
    heap.Perm (top :: rest) ∧ ∀ x ∈ rest, le x top := by
  induction heap generalizing top rest with
  | nil => cases taken
  | cons x heap ih =>
    rw [takeFirst] at taken
    split at taken
    · rename_i none
      obtain ⟨rfl, rfl⟩ := Prod.mk.inj (Option.some.inj taken)
      cases heap with
      | nil => simp
      | cons y heap =>
        rw [takeFirst] at none
        split at none
        · cases none
        · split at none <;> cases none
    · rename_i y others found
      obtain ⟨perm, greatest⟩ := ih found
      split at taken
      · rename_i below
        obtain ⟨rfl, rfl⟩ := Prod.mk.inj (Option.some.inj taken)
        refine ⟨List.Perm.refl _, fun z mem => ?_⟩
        rcases List.mem_cons.mp (perm.subset mem) with rfl | mem
        · exact below
        · exact trans z y x (greatest z mem) below
      · rename_i above
        obtain ⟨rfl, rfl⟩ := Prod.mk.inj (Option.some.inj taken)
        refine ⟨(perm.cons x).trans (List.Perm.swap _ _ _), fun z mem => ?_⟩
        rcases List.mem_cons.mp mem with rfl | mem
        · exact (total y z).resolve_left above
        · exact greatest z mem

/-- A queue that takes the first of the greatest. -/
def first (total : ∀ a b, le a b ∨ le b a) (trans : ∀ a b c, le a b → le b c → le a c) :
    PriorityQueue γ le where
  push x heap := heap ++ [x]
  pop := takeFirst le
  push_perm x heap := List.perm_append_comm
  pop_isSome := by
    intro heap some
    cases heap with
    | nil => exact absurd rfl some
    | cons x heap =>
      rw [takeFirst]
      split
      · rfl
      · split <;> rfl
  pop_perm taken := (takeFirst_spec total trans taken).1
  pop_greatest taken := (takeFirst_spec total trans taken).2

end First

end PriorityQueue
