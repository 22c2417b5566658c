import Mathlib.Data.List.Dedup
import Mathlib.Data.List.Perm.Basic

/-!
# Lists told apart by their images

Two lists without repetitions have the same images, repetitions counted, when they are
permutations of each other or when the items that only one has are matched with those that
only the other has, image by image.
-/

namespace GalaxDb.Matching

open List

variable {α β : Type*} {f : α → β}

theorem exists_matched {m m' : List α} (same : (m.map f).Perm (m'.map f)) :
    ∃ matched, matched.Perm m' ∧ List.Forall₂ (fun a b => f a = f b) m matched := by
  have images : List.Forall₂ (fun y b => y = f b) (m'.map f) m' := by
    rw [forall₂_map_left_iff]
    exact forall₂_same.mpr fun _ _ => rfl
  obtain ⟨matched, pairs, reordered⟩ := perm_comp_forall₂ same images
  rw [forall₂_map_left_iff] at pairs
  exact ⟨matched, reordered, pairs⟩

theorem map_perm_of_matched {m m' matched : List α} (reordered : matched.Perm m')
    (pairs : List.Forall₂ (fun a b => f a = f b) m matched) : (m.map f).Perm (m'.map f) := by
  have same : m.map f = matched.map f := by
    rw [← forall₂_eq_eq_eq, forall₂_map_left_iff, forall₂_map_right_iff]
    exact pairs
  rw [same]
  exact reordered.map f

section Exchange

variable [DecidableEq α]

/-- The items of the first list that the second does not have. -/
def only (l l' : List α) : List α := l.filter fun a => a ∉ l'

/-- Some items are exchanged for others with the same images. -/
def Exchanged (f : α → β) (l l' : List α) : Prop :=
  only l l' ≠ [] ∧ ∃ matched, matched.Perm (only l' l) ∧
    List.Forall₂ (fun a b => a ≠ b ∧ f a = f b) (only l l') matched

variable {l l' : List α}

theorem mem_only {a : α} : a ∈ only l l' ↔ a ∈ l ∧ a ∉ l' := by
  simp [only]

/-- The items in common and those of the first list alone. -/
theorem perm_common_only (l l' : List α) : (l.filter (fun a => a ∈ l') ++ only l l').Perm l := by
  have parts := filter_append_perm (fun a => decide (a ∈ l')) l
  simpa [only, decide_not] using parts

theorem common_perm (distinct : l.Nodup) (distinct' : l'.Nodup) :
    (l.filter fun a => a ∈ l').Perm (l'.filter fun a => a ∈ l) := by
  rw [perm_ext_iff_of_nodup (distinct.filter _) (distinct'.filter _)]
  simp [and_comm]

theorem map_perm_iff_only (distinct : l.Nodup) (distinct' : l'.Nodup) :
    (l.map f).Perm (l'.map f) ↔ ((only l l').map f).Perm ((only l' l).map f) := by
  have left := (perm_common_only l l').map f
  have right := (perm_common_only l' l).map f
  have common := (common_perm distinct distinct').map f
  rw [map_append] at left right
  constructor
  · intro same
    have joined := (left.trans same).trans right.symm
    exact (perm_append_left_iff _).mp (joined.trans (common.symm.append_right _))
  · intro same
    exact (left.symm.trans (common.append same)).trans right

theorem perm_iff_only (distinct : l.Nodup) (distinct' : l'.Nodup)
    (lengths : (only l l').length = (only l' l).length) : l.Perm l' ↔ only l l' = [] := by
  constructor
  · intro same
    rw [eq_nil_iff_forall_not_mem]
    intro a member
    obtain ⟨inside, outside⟩ := mem_only.mp member
    exact outside (same.mem_iff.mp inside)
  · intro none
    have none' : only l' l = [] := eq_nil_of_length_eq_zero (by rw [← lengths, none]; rfl)
    have left := perm_common_only l l'
    have right := perm_common_only l' l
    rw [none, append_nil] at left
    rw [none', append_nil] at right
    exact (left.symm.trans (common_perm distinct distinct')).trans right

/-- The images tell the lists apart unless items are exchanged. -/
theorem images_iff_not_exchanged (distinct : l.Nodup) (distinct' : l'.Nodup) :
    ((l.map f).Perm (l'.map f) ↔ l.Perm l') ↔ ¬ Exchanged f l l' := by
  have apart : ∀ a ∈ only l l', ∀ b ∈ only l' l, a ≠ b := by
    rintro a ha b hb rfl
    exact (mem_only.mp ha).2 (mem_only.mp hb).1
  have exchanged : Exchanged f l l' ↔ (l.map f).Perm (l'.map f) ∧ ¬ l.Perm l' := by
    constructor
    · rintro ⟨nonempty, matched, reordered, pairs⟩
      have lengths := pairs.length_eq.trans reordered.length_eq
      refine ⟨(map_perm_iff_only distinct distinct').mpr
        (map_perm_of_matched reordered (pairs.imp fun _ _ h => h.2)), ?_⟩
      rwa [perm_iff_only distinct distinct' lengths]
    · rintro ⟨images, different⟩
      have images := (map_perm_iff_only distinct distinct').mp images
      obtain ⟨matched, reordered, pairs⟩ := exists_matched images
      have lengths := pairs.length_eq.trans reordered.length_eq
      refine ⟨(perm_iff_only distinct distinct' lengths).not.mp different, matched, reordered, ?_⟩
      rw [forall₂_iff_zip]
      refine ⟨pairs.length_eq, fun {a b} both => ⟨?_, forall₂_zip pairs both⟩⟩
      obtain ⟨ha, hb⟩ := of_mem_zip both
      exact apart a ha b (reordered.mem_iff.mp hb)
  have forth : l.Perm l' → (l.map f).Perm (l'.map f) := fun same => same.map f
  tauto

end Exchange

end GalaxDb.Matching
