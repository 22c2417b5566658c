import Mathlib.Algebra.GroupWithZero.Nat
import Mathlib.Data.List.Basic
import Mathlib.Data.List.Infix

/-!
# Byte positions in a text

A text is its list of characters. A position in it counts the bytes of its UTF-8 form, and a
text can be cut at a position only where a character ends.
-/

namespace GalaxDb.Utf8

/-- The number of bytes of the UTF-8 form. -/
def byteLen (s : List Char) : Nat := (s.map Char.utf8Size).sum

@[simp] theorem byteLen_nil : byteLen [] = 0 := rfl

@[simp] theorem byteLen_cons (c : Char) (s : List Char) :
    byteLen (c :: s) = c.utf8Size + byteLen s := by
  simp [byteLen]

@[simp] theorem byteLen_append (s t : List Char) : byteLen (s ++ t) = byteLen s + byteLen t := by
  simp [byteLen]

/-- An ASCII character is one byte. -/
theorem utf8Size_of_narrow {c : Char} (narrow : c.toNat < 128) : c.utf8Size = 1 := by
  rw [Char.utf8Size, if_pos]
  exact Nat.le_of_lt_succ narrow

theorem byteLen_eq_zero {s : List Char} : byteLen s = 0 ↔ s = [] := by
  cases s with
  | nil => simp
  | cons c s =>
    have := c.utf8Size_pos
    simp
    omega

/-- The text before and the text from position `n`; nothing where `n` lies beyond the end or
inside a character. -/
def splitAtByte : List Char → Nat → Option (List Char × List Char)
  | s, 0 => some ([], s)
  | [], _ + 1 => none
  | c :: s, n + 1 =>
    if c.utf8Size ≤ n + 1 then
      (splitAtByte s (n + 1 - c.utf8Size)).map fun parts => (c :: parts.1, parts.2)
    else none

theorem splitAtByte_append (a b : List Char) : splitAtByte (a ++ b) (byteLen a) = some (a, b) := by
  induction a with
  | nil => cases b <;> rfl
  | cons c a ih =>
    obtain ⟨n, size⟩ := Nat.exists_eq_succ_of_ne_zero (Nat.ne_of_gt c.utf8Size_pos)
    have position : byteLen (c :: a) = (n + byteLen a) + 1 := by
      rw [byteLen_cons, size]
      omega
    rw [position, List.cons_append, splitAtByte, if_pos (by omega)]
    have rest : n + byteLen a + 1 - c.utf8Size = byteLen a := by omega
    rw [rest, ih]
    rfl

theorem splitAtByte_eq_some {s a b : List Char} {n : Nat} :
    splitAtByte s n = some (a, b) ↔ s = a ++ b ∧ byteLen a = n := by
  constructor
  · intro split
    induction s generalizing n a with
    | nil =>
      cases n with
      | zero =>
        obtain ⟨rfl, rfl⟩ := Prod.mk.inj (Option.some.inj split)
        exact ⟨rfl, rfl⟩
      | succ n => cases split
    | cons c s ih =>
      cases n with
      | zero =>
        obtain ⟨rfl, rfl⟩ := Prod.mk.inj (Option.some.inj split)
        exact ⟨rfl, rfl⟩
      | succ n =>
        rw [splitAtByte] at split
        split_ifs at split with fits
        obtain ⟨⟨front, back⟩, inner, eq⟩ := Option.map_eq_some_iff.mp split
        obtain ⟨rfl, rfl⟩ := Prod.mk.inj eq
        obtain ⟨rfl, size⟩ := ih inner
        refine ⟨rfl, ?_⟩
        rw [byteLen_cons, size]
        omega
  · rintro ⟨rfl, rfl⟩
    exact splitAtByte_append a b

theorem not_mem_of_mem_splitOn {α : Type*} [DecidableEq α] {a : α} {part s : List α}
    (there : part ∈ s.splitOn a) : a ∉ part := by
  induction s generalizing part with
  | nil =>
    obtain rfl : part = [] := by simpa using there
    exact List.not_mem_nil
  | cons b s ih =>
    rw [List.splitOn_cons_eq_if_modifyHead] at there
    by_cases here : b = a
    · rw [if_pos (by simpa using here)] at there
      rcases List.mem_cons.mp there with rfl | later
      · exact List.not_mem_nil
      · exact ih later
    · rw [if_neg (by simpa using here)] at there
      cases parts : s.splitOn a with
      | nil => exact absurd parts (List.splitOn_ne_nil a s)
      | cons first rest =>
        rw [parts, List.modifyHead_cons] at there
        rcases List.mem_cons.mp there with rfl | later
        · intro inside
          rcases List.mem_cons.mp inside with same | inside
          · exact here same.symm
          · exact ih (parts ▸ List.mem_cons_self) inside
        · exact ih (parts ▸ List.mem_cons_of_mem _ later)

end GalaxDb.Utf8
