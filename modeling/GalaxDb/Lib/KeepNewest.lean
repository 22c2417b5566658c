import Mathlib.Data.List.Induction
import Std.Data.ExtTreeMap.Lemmas

/-!
# Keeping the newest item of each key

Items with a key and a time are folded into a map. An item takes the place of what its key
has unless that is newer, so of several newest items the last one stays.
-/

universe u v

namespace KeepNewest

open Std List

variable {κ : Type u} {α : Type v} (key : α → κ) (time : α → Nat)

/-- The item is the last one of the newest items of its key. -/
def Decides (items : List α) (a : α) : Prop :=
  ∃ before after, items = before ++ a :: after ∧
    (∀ b ∈ before, key b = key a → time b ≤ time a) ∧ ∀ b ∈ after, key b = key a → time b < time a

variable {key time} {items : List α} {a b : α}

theorem Decides.mem (h : Decides key time items a) : a ∈ items := by
  obtain ⟨before, after, rfl, _, _⟩ := h
  simp

theorem Decides.newest (h : Decides key time items a) (mem : b ∈ items) (same : key b = key a) :
    time b ≤ time a := by
  obtain ⟨before, after, rfl, older, newer⟩ := h
  obtain first | rest := mem_append.mp mem
  · exact older b first same
  · obtain rfl | last := mem_cons.mp rest
    · exact Nat.le_refl _
    · exact Nat.le_of_lt (newer b last same)

theorem decides_snoc : Decides key time (items ++ [b]) a ↔
      (Decides key time items a ∧ (key b = key a → time b < time a)) ∨
        (a = b ∧ ∀ c ∈ items, key c = key b → time c ≤ time b) := by
  constructor
  · rintro ⟨before, after, split, older, newer⟩
    cases after using List.reverseRecOn with
    | nil =>
      obtain ⟨rfl, rfl⟩ := append_singleton_inj.mp split
      exact Or.inr ⟨rfl, older⟩
    | append_singleton after c =>
      rw [← cons_append, ← append_assoc] at split
      obtain ⟨rfl, rfl⟩ := append_singleton_inj.mp split
      refine Or.inl ⟨⟨before, after, rfl, older, ?_⟩, newer b (by simp)⟩
      exact fun c mem => newer c (mem_append_left _ mem)
  · rintro (⟨⟨before, after, rfl, older, newer⟩, last⟩ | ⟨rfl, older⟩)
    · refine ⟨before, after ++ [b], by simp, older, fun c mem => ?_⟩
      obtain inside | same := mem_append.mp mem
      · exact newer c inside
      · exact mem_singleton.mp same ▸ last
    · exact ⟨items, [], rfl, older, by simp⟩

section Fold

variable [Ord κ] [TransOrd κ] [LawfulEqOrd κ]

variable (key time) in
def keep (kept : ExtTreeMap κ α compare) (a : α) : ExtTreeMap κ α compare :=
  match kept[key a]? with
  | some b => if time a < time b then kept else kept.insert (key a) a
  | none => kept.insert (key a) a

theorem foldl_keep_eq_none {k : κ} (free : (items.foldl (keep key time) ∅)[k]? = none) :
    ∀ c ∈ items, key c ≠ k := by
  induction items using List.reverseRecOn with
  | nil => simp
  | append_singleton items b ih =>
    rw [foldl_append, foldl_cons, foldl_nil, keep] at free
    generalize items.foldl (keep key time) ∅ = kept at ih free
    have inserted (free : (kept.insert (key b) b)[k]? = none) : ∀ c ∈ items ++ [b], key c ≠ k := by
      rw [ExtTreeMap.getElem?_insert] at free
      split at free
      · cases free
      · next apart =>
        have other : key b ≠ k := fun same => apart (LawfulEqCmp.compare_eq_iff_eq.mpr same)
        intro c mem
        obtain inside | same := mem_append.mp mem
        · exact ih free c inside
        · exact mem_singleton.mp same ▸ other
    cases found : kept[key b]? with
    | none => exact inserted (by simpa only [found] using free)
    | some c =>
      simp only [found] at free
      split at free
      · intro d mem
        obtain inside | same := mem_append.mp mem
        · exact ih free d inside
        · rw [mem_singleton.mp same]
          rintro rfl
          simp [free] at found
      · exact inserted free

/-- What a fold over the items leaves for a key is the item that decides. -/
theorem foldl_keep_iff {k : κ} :
    (items.foldl (keep key time) ∅)[k]? = some a ↔ Decides key time items a ∧ key a = k := by
  induction items using List.reverseRecOn generalizing k a with
  | nil => simp [Decides]
  | append_singleton items b ih =>
    have absent := @foldl_keep_eq_none κ α key time items _ _ _ (key b)
    rw [foldl_append, foldl_cons, foldl_nil, decides_snoc]
    generalize items.foldl (keep key time) ∅ = kept at ih absent
    have replaced (older : ∀ c ∈ items, key c = key b → time c ≤ time b) :
        (kept.insert (key b) b)[k]? = some a ↔
          ((Decides key time items a ∧ (key b = key a → time b < time a)) ∨
            (a = b ∧ ∀ c ∈ items, key c = key b → time c ≤ time b)) ∧ key a = k := by
      rw [ExtTreeMap.getElem?_insert]
      split
      · next same =>
        obtain rfl := LawfulEqCmp.compare_eq_iff_eq.mp same
        constructor
        · intro found
          obtain rfl := Option.some.inj found
          exact ⟨Or.inr ⟨rfl, older⟩, rfl⟩
        · rintro ⟨⟨decides, newer⟩ | ⟨rfl, _⟩, same⟩
          · exact absurd (newer same.symm) (Nat.not_lt_of_le (older a decides.mem same))
          · rfl
      · next apart =>
        have other : key b ≠ k := fun same => apart (LawfulEqCmp.compare_eq_iff_eq.mpr same)
        rw [ih]
        constructor
        · rintro ⟨decides, rfl⟩
          exact ⟨Or.inl ⟨decides, fun same => absurd same other⟩, rfl⟩
        · rintro ⟨⟨decides, _⟩ | ⟨rfl, _⟩, same⟩
          · exact ⟨decides, same⟩
          · exact absurd same other
    rw [keep]
    cases found : kept[key b]? with
    | none => exact replaced fun c mem same => absurd same (absent found c mem)
    | some c =>
      obtain ⟨decides, same⟩ := ih.mp found
      by_cases older : time b < time c
      · simp only [older, ↓reduceIte]
        rw [ih]
        constructor
        · rintro ⟨decides', rfl⟩
          refine ⟨Or.inl ⟨decides', fun same' => ?_⟩, rfl⟩
          have le := decides'.newest decides.mem (same.trans same')
          omega
        · rintro ⟨⟨decides', _⟩ | ⟨rfl, newest⟩, rfl⟩
          · exact ⟨decides', rfl⟩
          · exact absurd older (Nat.not_lt_of_le (newest c decides.mem same))
      · simp only [older, ↓reduceIte]
        refine replaced fun d mem same' => ?_
        have le := decides.newest mem (same'.trans same.symm)
        omega

end Fold

end KeepNewest
