import GalaxDb.Lib.Bytes
import Mathlib.Data.Nat.Digits.Defs
import Mathlib.Tactic.Ring

/-!
# Bits of a byte string

A byte string is read as one little-endian number, so that a run of bits is a quotient
followed by a remainder. A run that stays within one byte can be read from, and written
into, that byte alone.
-/

namespace Bytes

theorem ofLe_lt (l : Bytes) : ofLe l < 256 ^ l.length := by
  induction l with
  | nil => simp [ofLe]
  | cons b l ih =>
    have low := b.toNat_lt
    simp only [ofLe, List.length_cons, pow_succ]
    omega

theorem ofLe_take_lt (w : Nat) (s : Bytes) : ofLe (s.take w) < 256 ^ w := by
  have bound := ofLe_lt (s.take w)
  have short : (s.take w).length ≤ w := List.length_take_le w s
  exact bound.trans_le (Nat.pow_le_pow_right (by decide) short)

theorem toLe_ofLe (l : Bytes) : toLe l.length (ofLe l) = l := by
  induction l with
  | nil => rfl
  | cons b l ih =>
    have low := b.toNat_lt
    have first : (b.toNat + 256 * ofLe l) % 256 = b.toNat := by omega
    have rest : (b.toNat + 256 * ofLe l) / 256 = ofLe l := by omega
    simp only [ofLe, List.length_cons, toLe, first, rest, ih, UInt8.ofNat_toNat]

variable {l : Bytes} {b : UInt8}

theorem toLe_eq_of_length {w : Nat} (width : l.length = w) : toLe w (ofLe l) = l := by
  subst width
  exact toLe_ofLe l

@[simp] theorem ofLe_replicate_zero (n : Nat) : ofLe (List.replicate n 0) = 0 := by
  induction n with
  | zero => rfl
  | succ n ih => simp [List.replicate_succ, ofLe, ih]

variable {bit i taken : Nat}

theorem byte_eq (at_i : l[i]? = some b) : ofLe l / 256 ^ i % 256 = b.toNat := by
  induction l generalizing i with
  | nil => simp at at_i
  | cons c l ih =>
    have low := c.toNat_lt
    cases i with
    | zero =>
      simp only [List.getElem?_cons_zero, Option.some.injEq] at at_i
      subst at_i
      simp only [ofLe, pow_zero, Nat.div_one]
      omega
    | succ i =>
      have rest : (c.toNat + 256 * ofLe l) / 256 = ofLe l := by omega
      rw [ofLe, pow_succ', ← Nat.div_div_eq_div_mul, rest]
      exact ih (by simpa using at_i)

/-- Bits within one byte. -/
theorem bits_of_byte (at_byte : l[bit / 8]? = some b) (within : bit % 8 + taken ≤ 8) :
    ofLe l / 2 ^ bit % 2 ^ taken = b.toNat / 2 ^ (bit % 8) % 2 ^ taken := by
  have whole : (2 : Nat) ^ bit = 256 ^ (bit / 8) * 2 ^ (bit % 8) := by
    rw [show (256 : Nat) = 2 ^ 8 by rfl, ← Nat.pow_mul, ← Nat.pow_add, Nat.div_add_mod]
  have cut : (2 : Nat) ^ taken ∣ 2 ^ (8 - bit % 8) := Nat.pow_dvd_pow 2 (by omega)
  have byte : (256 : Nat) = 2 ^ (bit % 8) * 2 ^ (8 - bit % 8) := by
    rw [← Nat.pow_add, show bit % 8 + (8 - bit % 8) = 8 by omega]
  rw [whole, ← Nat.div_div_eq_div_mul, ← byte_eq at_byte]
  generalize ofLe l / 256 ^ (bit / 8) = high
  calc high / 2 ^ (bit % 8) % 2 ^ taken
      = high / 2 ^ (bit % 8) % 2 ^ (8 - bit % 8) % 2 ^ taken := (Nat.mod_mod_of_dvd _ cut).symm
    _ = high % 256 / 2 ^ (bit % 8) % 2 ^ taken := by rw [byte, Nat.mod_mul_right_div_self]

theorem ofLe_modify (f : UInt8 → UInt8) (at_i : l[i]? = some b) :
    ofLe (l.modify i f) + b.toNat * 256 ^ i = ofLe l + (f b).toNat * 256 ^ i := by
  induction l generalizing i with
  | nil => simp at at_i
  | cons c l ih =>
    cases i with
    | zero =>
      simp only [List.getElem?_cons_zero, Option.some.injEq] at at_i
      subst at_i
      simp only [List.modify_cons, ↓reduceIte, ofLe, pow_zero, mul_one]
      omega
    | succ i =>
      have rest := ih (i := i) (by simpa using at_i)
      simp only [List.modify_cons, Nat.add_one_ne_zero, ↓reduceIte, Nat.add_one_sub_one, ofLe,
        pow_succ']
      calc c.toNat + 256 * ofLe (l.modify i f) + b.toNat * (256 * 256 ^ i)
          = c.toNat + 256 * (ofLe (l.modify i f) + b.toNat * 256 ^ i) := by ring
        _ = c.toNat + 256 * (ofLe l + (f b).toNat * 256 ^ i) := by rw [rest]
        _ = c.toNat + 256 * ofLe l + (f b).toNat * (256 * 256 ^ i) := by ring

/-- Or-ing bits into the byte that holds the first free bit adds them to the number. -/
theorem ofLe_or_bits {x : Nat} (room : bit / 8 < l.length) (free : ofLe l < 2 ^ bit)
    (small : x < 2 ^ taken) (within : bit % 8 + taken ≤ 8) :
    ofLe (l.modify (bit / 8) (· ||| UInt8.ofNat (x * 2 ^ (bit % 8)))) = ofLe l + x * 2 ^ bit := by
  obtain ⟨b, at_byte⟩ : ∃ b, l[bit / 8]? = some b := ⟨_, List.getElem?_eq_getElem room⟩
  have whole : (2 : Nat) ^ bit = 256 ^ (bit / 8) * 2 ^ (bit % 8) := by
    rw [show (256 : Nat) = 2 ^ 8 by rfl, ← pow_mul, ← pow_add, Nat.div_add_mod]
  have clear : b.toNat < 2 ^ (bit % 8) := by
    have high : ofLe l / 256 ^ (bit / 8) < 2 ^ (bit % 8) := by
      rw [Nat.div_lt_iff_lt_mul (Nat.pow_pos (by omega)), mul_comm, ← whole]
      exact free
    rw [← byte_eq at_byte]
    exact lt_of_le_of_lt (Nat.mod_le _ _) high
  have fits : x * 2 ^ (bit % 8) < 256 := by
    calc x * 2 ^ (bit % 8) < 2 ^ taken * 2 ^ (bit % 8) :=
          (Nat.mul_lt_mul_right (Nat.pow_pos (by omega))).mpr small
      _ = 2 ^ (bit % 8 + taken) := by rw [pow_add, mul_comm]
      _ ≤ 2 ^ 8 := Nat.pow_le_pow_right (by omega) within
  have joined : (b ||| UInt8.ofNat (x * 2 ^ (bit % 8))).toNat = b.toNat + x * 2 ^ (bit % 8) := by
    rw [UInt8.toNat_or, UInt8.toNat_ofNat', Nat.mod_eq_of_lt fits, Nat.or_comm, mul_comm,
      ← Nat.two_pow_add_eq_or_of_lt clear, add_comm]
  have changed := ofLe_modify (· ||| UInt8.ofNat (x * 2 ^ (bit % 8))) at_byte
  simp only [joined, add_mul] at changed
  rw [whole, mul_comm (256 ^ (bit / 8)), ← mul_assoc]
  omega

end Bytes
