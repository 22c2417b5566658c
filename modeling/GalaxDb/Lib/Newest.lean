import Mathlib.Tactic.Linarith
import Mathlib.Data.List.Basic

/-!
# Newest rows of a key

A row is a key, a write time and a value; a row without a value is a tombstone.
Readers of a multi-version store look for the newest row of a key among a list of
rows whose order carries no meaning, so everything here is stated by membership.
-/

universe u v

structure Row (κ : Type u) (ν : Type v) where
  key : κ
  ts : Nat
  val : Option ν
  deriving DecidableEq

namespace Row

variable {κ : Type u} {ν : Type v}

def Newest (rows : List (Row κ ν)) (k : κ) (r : Row κ ν) : Prop :=
  r ∈ rows ∧ r.key = k ∧ ∀ r' ∈ rows, r'.key = k → r'.ts ≤ r.ts

instance [DecidableEq κ] [DecidableEq ν] (rows : List (Row κ ν)) (k : κ) (r : Row κ ν) :
    Decidable (Newest rows k r) :=
  inferInstanceAs (Decidable (r ∈ rows ∧ r.key = k ∧ ∀ r' ∈ rows, r'.key = k → r'.ts ≤ r.ts))

/-- No key has two different rows with the same write time. -/
def Distinct (rows : List (Row κ ν)) : Prop :=
  ∀ r ∈ rows, ∀ r' ∈ rows, r.key = r'.key → r.ts = r'.ts → r = r'

instance [DecidableEq κ] [DecidableEq ν] (rows : List (Row κ ν)) : Decidable (Distinct rows) :=
  inferInstanceAs (Decidable (∀ r ∈ rows, ∀ r' ∈ rows, r.key = r'.key → r.ts = r'.ts → r = r'))

/-- The rows a snapshot taken at time `t` may read. -/
def visible (t : Nat) (rows : List (Row κ ν)) : List (Row κ ν) :=
  rows.filter (fun r => r.ts ≤ t)

variable {rows : List (Row κ ν)} {a n r : Row κ ν} {k : κ}

@[simp] theorem mem_visible {t : Nat} : r ∈ visible t rows ↔ r ∈ rows ∧ r.ts ≤ t := by
  simp [visible]

variable {rows' : List (Row κ ν)}

theorem newest_congr (same : ∀ r, r ∈ rows ↔ r ∈ rows') : Newest rows k r ↔ Newest rows' k r := by
  simp [Newest, same]

theorem newest_unique (distinct : Distinct rows) {r' : Row κ ν} (h : Newest rows k r)
    (h' : Newest rows k r') : r = r' := by
  refine distinct r h.1 r' h'.1 (h.2.1.trans h'.2.1.symm) ?_
  exact (h'.2.2 r h.1 h.2.1).antisymm (h.2.2 r' h'.1 h'.2.1)

theorem newest_cons_of_le (hn : Newest rows k n) (ha : a.key = k → a.ts ≤ n.ts) :
    Newest (a :: rows) k n := by
  refine ⟨List.mem_cons_of_mem a hn.1, hn.2.1, ?_⟩
  intro r hr hk
  rcases List.mem_cons.mp hr with rfl | hr
  · exact ha hk
  · exact hn.2.2 r hr hk

theorem newest_cons_self (h : ∀ r ∈ rows, r.key = a.key → r.ts ≤ a.ts) :
    Newest (a :: rows) a.key a := by
  refine ⟨List.mem_cons_self, rfl, ?_⟩
  intro r hr hk
  rcases List.mem_cons.mp hr with rfl | hr
  · exact le_rfl
  · exact h r hr hk

/-- One more row changes the newest row of its key only when nothing newer was there. -/
theorem newest_snoc : Newest (rows ++ [a]) k n ↔
      (Newest rows k n ∧ (a.key = k → a.ts ≤ n.ts)) ∨
        (n = a ∧ a.key = k ∧ ∀ r ∈ rows, r.key = k → r.ts ≤ a.ts) := by
  constructor
  · rintro ⟨hn, hk, hmax⟩
    have old : ∀ r ∈ rows, r.key = k → r.ts ≤ n.ts :=
      fun r hr => hmax r (List.mem_append_left _ hr)
    rcases List.mem_append.mp hn with hn | hn
    · exact Or.inl ⟨⟨hn, hk, old⟩, hmax a (by simp)⟩
    · obtain rfl := List.mem_singleton.mp hn
      exact Or.inr ⟨rfl, hk, old⟩
  · rintro (⟨⟨hn, hk, hmax⟩, ha⟩ | ⟨rfl, hk, hmax⟩)
    · refine ⟨List.mem_append_left _ hn, hk, ?_⟩
      intro r hr
      rcases List.mem_append.mp hr with hr | hr
      · exact hmax r hr
      · exact List.mem_singleton.mp hr ▸ ha
    · refine ⟨by simp, hk, ?_⟩
      intro r hr
      rcases List.mem_append.mp hr with hr | hr
      · exact hmax r hr
      · exact fun _ => List.mem_singleton.mp hr ▸ le_rfl

theorem newest_snoc_other (hk : a.key ≠ k) : Newest (rows ++ [a]) k n ↔ Newest rows k n := by
  simp [newest_snoc, hk]

theorem newest_snoc_older {m : Row κ ν} (hm : Newest rows a.key m) (older : a.ts < m.ts) :
    Newest (rows ++ [a]) k n ↔ Newest rows k n := by
  rw [newest_snoc]
  constructor
  · rintro (h | ⟨_, rfl, hmax⟩)
    · exact h.1
    · exact absurd (hmax m hm.1 hm.2.1) older.not_ge
  · intro h
    refine Or.inl ⟨h, ?_⟩
    rintro rfl
    exact (Nat.le_of_lt older).trans (h.2.2 m hm.1 hm.2.1)

theorem newest_snoc_newer (distinct : Distinct (rows ++ [a]))
    (newer : ∀ r ∈ rows, r.key = a.key → r.ts ≤ a.ts) : Newest (rows ++ [a]) a.key n ↔ n = a := by
  rw [newest_snoc]
  constructor
  · rintro (⟨hn, ha⟩ | h)
    · refine distinct n (List.mem_append_left _ hn.1) a (by simp) hn.2.1 ?_
      exact (newer n hn.1 hn.2.1).antisymm (ha rfl)
    · exact h.1
  · rintro rfl
    exact Or.inr ⟨rfl, rfl, newer⟩

theorem Distinct.sublist (h : Distinct rows) (sub : ∀ r ∈ rows', r ∈ rows) : Distinct rows' :=
  fun r hr r' hr' => h r (sub r hr) r' (sub r' hr')

theorem exists_newest (h : ∃ r ∈ rows, r.key = k) : ∃ n, Newest rows k n := by
  induction rows with
  | nil => obtain ⟨r, hr, _⟩ := h; cases hr
  | cons a rest ih =>
    by_cases later : ∃ r ∈ rest, r.key = k
    · obtain ⟨n, hn⟩ := ih later
      by_cases ha : a.key = k → a.ts ≤ n.ts
      · exact ⟨n, newest_cons_of_le hn ha⟩
      · obtain ⟨hak, hlt⟩ := Classical.not_imp.mp ha
        subst hak
        refine ⟨a, newest_cons_self ?_⟩
        intro r hr hk
        exact (hn.2.2 r hr hk).trans (by omega)
    · obtain ⟨r, hr, hk⟩ := h
      have hra : r = a := by
        rcases List.mem_cons.mp hr with h | h
        · exact h
        · exact False.elim (later ⟨r, h, hk⟩)
      subst hra hk
      refine ⟨r, newest_cons_self ?_⟩
      intro s hs hks
      exact False.elim (later ⟨s, hs, hks⟩)

end Row
