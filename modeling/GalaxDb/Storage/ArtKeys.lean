import GalaxDb.Storage.Art

/-!
# Keys the radix tree can tell apart

Reading zero past the end of a key makes a key look like its own extension by zero
bytes. Two keys clash when one continues the other with a zero byte; keys that do not
clash differ at some position the tree reads.
-/

namespace GalaxDb

/-- One key is the other followed by a zero byte and anything else. -/
def Clash (a b : Bytes) : Prop := a ++ [0] <+: b ∨ b ++ [0] <+: a

instance (a b : Bytes) : Decidable (Clash a b) :=
  inferInstanceAs (Decidable (_ ∨ _))

/-- The tree reads the same `depth` first bytes from both keys. -/
def Agree (depth : Nat) (a b : Bytes) : Prop := ∀ i < depth, byteAt a i = byteAt b i

variable {a b l p : Bytes} {d : Nat}

theorem Clash.symm (h : Clash a b) : Clash b a := Or.symm h

theorem Clash.cons {a b : Bytes} (x : UInt8) (h : Clash a b) : Clash (x :: a) (x :: b) := by
  rcases h with h | h
  · exact Or.inl (List.cons_prefix_cons.mpr ⟨rfl, h⟩)
  · exact Or.inr (List.cons_prefix_cons.mpr ⟨rfl, h⟩)

theorem not_clash_self (a : Bytes) : ¬ Clash a a := by
  rintro (h | h) <;> simpa using h.length_le

@[simp] theorem byteAt_nil (i : Nat) : byteAt [] i = 0 := by simp [byteAt]

@[simp] theorem byteAt_cons_zero (b : UInt8) (l : Bytes) : byteAt (b :: l) 0 = b := by
  simp [byteAt]

@[simp] theorem byteAt_cons_succ (b : UInt8) (l : Bytes) (i : Nat) :
    byteAt (b :: l) (i + 1) = byteAt l i := by
  simp [byteAt]

@[simp] theorem byteAt_append (t l : Bytes) (i : Nat) :
    byteAt (t ++ l) (t.length + i) = byteAt l i := by
  rw [byteAt, byteAt, List.getElem?_append_right (Nat.le_add_right _ _), Nat.add_sub_cancel_left]

theorem byteAt_drop (l : Bytes) (d i : Nat) : byteAt (l.drop d) i = byteAt l (d + i) := by
  simp [byteAt]

theorem byteAt_of_startsWith (h : p <+: l) {i : Nat} (hi : i < p.length) :
    byteAt l i = byteAt p i := by
  obtain ⟨rest, rfl⟩ := h
  simp [byteAt, List.getElem?_append_left hi]

theorem Agree.succ (h : Agree d a b) (hd : byteAt a d = byteAt b d) : Agree (d + 1) a b := by
  intro i hi
  rcases Nat.lt_succ_iff_lt_or_eq.mp hi with hi | rfl
  · exact h i hi
  · exact hd

/-- Keys that agree so far and continue with the same compressed path agree past it. -/
theorem Agree.extend (h : Agree d a b) (ha : p <+: a.drop d) (hb : p <+: b.drop d) :
    Agree (d + p.length) a b := by
  intro i hi
  by_cases below : i < d
  · exact h i below
  · have hip : i - d < p.length := by omega
    have hid : d + (i - d) = i := by omega
    have hra := byteAt_of_startsWith ha hip
    have hrb := byteAt_of_startsWith hb hip
    rw [byteAt_drop, hid] at hra hrb
    rw [hra, hrb]

/-- Different keys that do not clash and agree up to `d` really share their `d` first bytes. -/
theorem Agree.split (h : Agree d a b) (hne : a ≠ b) (hc : ¬ Clash a b) :
    ∃ t a' b', a = t ++ a' ∧ b = t ++ b' ∧ t.length = d ∧ a' ≠ b' ∧ ¬ Clash a' b' := by
  induction d generalizing a b with
  | zero => exact ⟨[], a, b, rfl, rfl, rfl, hne, hc⟩
  | succ d ih =>
    have head := h 0 (Nat.succ_pos d)
    cases a with
    | nil =>
      cases b with
      | nil => exact False.elim (hne rfl)
      | cons y b =>
        have hy : y = 0 := by simpa using head.symm
        subst hy
        exact False.elim (hc (Or.inl ⟨b, rfl⟩))
    | cons x a =>
      cases b with
      | nil =>
        have hx : x = 0 := by simpa using head
        subst hx
        exact False.elim (hc (Or.inr ⟨a, rfl⟩))
      | cons y b =>
        have hxy : x = y := by simpa using head
        subst hxy
        have tailAgree : Agree d a b := by
          intro i hi
          simpa using h (i + 1) (by omega)
        have tailNe : a ≠ b := fun hab => hne (by rw [hab])
        have tailClash : ¬ Clash a b := fun hab => hc (hab.cons x)
        obtain ⟨t, a', b', rfl, rfl, ht, rest⟩ := ih tailAgree tailNe tailClash
        exact ⟨x :: t, a', b', rfl, rfl, by simp [ht], rest⟩

theorem commonPrefixLen_lt_iff : commonPrefixLen p l < p.length ↔ ¬ p <+: l := by
  induction p generalizing l with
  | nil => simp [commonPrefixLen]
  | cons x p ih =>
    cases l with
    | nil => simp [commonPrefixLen]
    | cons y l =>
      by_cases hxy : x = y
      · subst hxy
        simp [commonPrefixLen, ih, List.cons_prefix_cons]
      · simp [commonPrefixLen, hxy, List.cons_prefix_cons]

theorem take_commonPrefixLen (a b : Bytes) :
    a.take (commonPrefixLen a b) = b.take (commonPrefixLen a b) := by
  induction a generalizing b with
  | nil => simp [commonPrefixLen]
  | cons x a ih =>
    cases b with
    | nil => simp [commonPrefixLen]
    | cons y b =>
      by_cases hxy : x = y
      · simp [commonPrefixLen, hxy, ih]
      · simp [commonPrefixLen, hxy]

theorem commonPrefixLen_le (a b : Bytes) :
    commonPrefixLen a b ≤ a.length ∧ commonPrefixLen a b ≤ b.length := by
  induction a generalizing b with
  | nil => simp [commonPrefixLen]
  | cons x a ih =>
    cases b with
    | nil => simp [commonPrefixLen]
    | cons y b =>
      by_cases hxy : x = y
      · simpa [commonPrefixLen, hxy] using ih b
      · simp [commonPrefixLen, hxy]

/-- A path left before its end is left at the same place by every key that follows it. -/
theorem commonPrefixLen_of_startsWith {k : Bytes} (h : p <+: l)
    (hlt : commonPrefixLen p k < p.length) : commonPrefixLen l k = commonPrefixLen p k := by
  induction p generalizing l k with
  | nil => simp at hlt
  | cons x p ih =>
    obtain ⟨rest, rfl⟩ := h
    cases k with
    | nil => simp [commonPrefixLen]
    | cons y k =>
      by_cases hxy : x = y
      · have tail : commonPrefixLen p k < p.length := by simpa [commonPrefixLen, hxy] using hlt
        simp [commonPrefixLen, hxy, ih (List.prefix_append p rest) tail]
      · simp [commonPrefixLen, hxy]

/-- Past their common prefix, different keys that do not clash read different bytes. -/
theorem byteAt_commonPrefixLen_ne (hne : a ≠ b) (hc : ¬ Clash a b) :
    byteAt a (commonPrefixLen a b) ≠ byteAt b (commonPrefixLen a b) := by
  induction a generalizing b with
  | nil =>
    cases b with
    | nil => exact False.elim (hne rfl)
    | cons y b =>
      intro h
      have hy : 0 = y := by simpa [commonPrefixLen] using h
      exact hc (Or.inl ⟨b, by simp [← hy]⟩)
  | cons x a ih =>
    cases b with
    | nil =>
      intro h
      have hx : x = 0 := by simpa [commonPrefixLen] using h
      exact hc (Or.inr ⟨a, by simp [hx]⟩)
    | cons y b =>
      by_cases hxy : x = y
      · subst hxy
        have tailNe : a ≠ b := fun hab => hne (by rw [hab])
        have tailClash : ¬ Clash a b := fun hab => hc (hab.cons x)
        simpa [commonPrefixLen] using ih tailNe tailClash
      · simp [commonPrefixLen, hxy]

end GalaxDb
