import Mathlib.Data.List.Basic

/-!
# Arrays with checked accesses

An array of a fixed length. An access outside it gives no result; inside it, what an access
does is told by the list of the elements around the index.
-/

universe u v

namespace Arrays

variable {β : Type u} {n : Nat}

/-- `a[i] = x`. -/
def store (a : Vector β n) (i : Nat) (x : β) : Option (Vector β n) :=
  if h : i < n then some (a.set i x h) else none

def swap (a : Vector β n) (i j : Nat) : Option (Vector β n) := do
  let x ← a[i]?
  let y ← a[j]?
  let a ← store a i y
  store a j x

/-- `a[..k]`. -/
def front (a : Vector β n) (k : Nat) : Option (List β) :=
  if k ≤ n then some (a.toList.take k) else none

variable {a : Vector β n} {before after : List β} {x y : β}

theorem lt_of_split (split : a.toList = before ++ x :: after) : before.length < n := by
  have total := congrArg List.length split
  simp only [Vector.length_toList, List.length_append, List.length_cons] at total
  omega

theorem read_split (split : a.toList = before ++ x :: after) : a[before.length]? = some x := by
  rw [← Vector.getElem?_toList, split]
  simp

theorem store_split (y : β) (split : a.toList = before ++ x :: after) :
    ∃ a', store a before.length y = some a' ∧ a'.toList = before ++ y :: after := by
  refine ⟨_, dif_pos (lt_of_split split), ?_⟩
  rw [Vector.toList_set, split]
  simp

theorem swap_split (split : a.toList = before ++ x :: y :: after) :
    ∃ a', swap a before.length (before.length + 1) = some a' ∧
      a'.toList = before ++ y :: x :: after := by
  have split' : a.toList = (before ++ [x]) ++ y :: after := by simp [split]
  have second := read_split split'
  obtain ⟨a1, first, split1⟩ := store_split y split
  have split1' : a1.toList = (before ++ [y]) ++ y :: after := by simp [split1]
  obtain ⟨a2, last, split2⟩ := store_split x split1'
  simp only [List.length_append, List.length_singleton] at second last
  refine ⟨a2, ?_, by simpa using split2⟩
  simp only [swap, read_split split, second, first, Option.bind_eq_bind, Option.bind_some, last]

theorem front_split (split : a.toList = before ++ after) : front a before.length = some before := by
  have total := congrArg List.length split
  simp only [Vector.length_toList, List.length_append] at total
  rw [front, if_pos (by omega), split, List.take_left]

/-- What an array holds after a store. -/
theorem store_at {i : Nat} (inside : i < n) (x : β) :
    ∃ a', store a i x = some a' ∧ ∀ j, a'[j]? = if j = i then some x else a[j]? := by
  refine ⟨_, dif_pos inside, ?_⟩
  intro j
  by_cases same : i = j
  · subst same
    simp
  · simp [same, Ne.symm same]

section Loops

variable {σ : Type u} {γ : Type v} {f : σ → Nat → Option σ}

/-- A loop over the positions of a list, with an invariant of what lies before and after. -/
theorem exists_foldlM_range (Inv : σ → List γ → List γ → Prop)
    (step : ∀ s done x rest, Inv s done (x :: rest) →
      ∃ s', f s done.length = some s' ∧ Inv s' (done ++ [x]) rest) :
    ∀ {rest done : List γ} {s : σ}, Inv s done rest →
      ∃ s', (List.range' done.length rest.length).foldlM f s = some s' ∧
        Inv s' (done ++ rest) [] := by
  intro rest
  induction rest with
  | nil =>
    intro done s kept
    exact ⟨s, rfl, by rwa [List.append_nil]⟩
  | cons x rest ih =>
    intro done s kept
    obtain ⟨s1, now, kept1⟩ := step s done x rest kept
    obtain ⟨s2, later, kept2⟩ := ih kept1
    rw [List.length_append, List.length_singleton] at later
    refine ⟨s2, ?_, by simpa using kept2⟩
    rw [List.length_cons, List.range'_succ, List.foldlM_cons, now]
    exact later

end Loops

end Arrays
