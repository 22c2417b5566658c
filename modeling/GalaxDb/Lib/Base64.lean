import GalaxDb.Lib.Bytes

/-!
# Base64

The standard alphabet, with padding. Decoding takes what encoding gives and nothing that has
bits set in the padding.
-/

namespace Base64Text

/-- The character of a number below 64. -/
def symbol (n : Nat) : UInt8 :=
  UInt8.ofNat (if n < 26 then 65 + n else if n < 52 then 71 + n else if n < 62 then n - 4
    else if n = 62 then 43 else 47)

def value (b : UInt8) : Option Nat :=
  let n := b.toNat
  if 65 ≤ n ∧ n ≤ 90 then some (n - 65)
  else if 97 ≤ n ∧ n ≤ 122 then some (n - 71)
  else if 48 ≤ n ∧ n ≤ 57 then some (n + 4)
  else if n = 43 then some 62
  else if n = 47 then some 63
  else none

def encode : Bytes → Bytes
  | [] => []
  | [a] => [symbol (a.toNat / 4), symbol (a.toNat % 4 * 16), 61, 61]
  | [a, b] =>
    [symbol (a.toNat / 4), symbol (a.toNat % 4 * 16 + b.toNat / 16), symbol (b.toNat % 16 * 4), 61]
  | a :: b :: c :: rest =>
    symbol (a.toNat / 4) :: symbol (a.toNat % 4 * 16 + b.toNat / 16) ::
      symbol (b.toNat % 16 * 4 + c.toNat / 64) :: symbol (c.toNat % 64) :: encode rest

def decode : Bytes → Option Bytes
  | [] => some []
  | a :: b :: c :: d :: rest => do
    let x ← value a
    let y ← value b
    if rest = [] ∧ c = 61 ∧ d = 61 then
      if y % 16 = 0 then some [UInt8.ofNat (x * 4 + y / 16)] else none
    else
      let z ← value c
      if rest = [] ∧ d = 61 then
        if z % 4 =
          0 then some [UInt8.ofNat (x * 4 + y / 16), UInt8.ofNat (y % 16 * 16 + z / 4)] else none
      else
        let w ← value d
        let later ← decode rest
        some (UInt8.ofNat (x * 4 + y / 16) :: UInt8.ofNat (y % 16 * 16 + z / 4) ::
          UInt8.ofNat (z % 4 * 64 + w) :: later)
  | _ => none

variable {n : Nat}

theorem value_symbol (h : n < 64) : value (symbol n) = some n := by
  have all : ∀ n : Fin 64, value (symbol n.val) = some n.val := by decide
  exact all ⟨n, h⟩

theorem symbol_ne_padding (h : n < 64) : symbol n ≠ 61 := by
  have all : ∀ n : Fin 64, symbol n.val ≠ 61 := by decide
  exact all ⟨n, h⟩

theorem symbol_ne_comma (h : n < 64) : symbol n ≠ 44 := by
  have all : ∀ n : Fin 64, symbol n.val ≠ 44 := by decide
  exact all ⟨n, h⟩

theorem ofNat_eq {b : UInt8} (h : n = b.toNat) : UInt8.ofNat n = b := by
  rw [h, UInt8.ofNat_toNat]

theorem decode_encode (b : Bytes) : decode (encode b) = some b := by
  induction b using encode.induct with
  | case1 => rfl
  | case2 a =>
    have small := a.toNat_lt
    simp only [encode, decode]
    rw [value_symbol (by omega), value_symbol (by omega)]
    simp only [Option.bind_eq_bind, Option.bind_some, and_self, if_true]
    rw [if_pos (by omega), ofNat_eq (b := a) (by omega)]
  | case3 a b =>
    have small := a.toNat_lt
    have small' := b.toNat_lt
    simp only [encode, decode]
    rw [value_symbol (by omega), value_symbol (by omega), value_symbol (by omega)]
    simp only [Option.bind_eq_bind, Option.bind_some, true_and, and_true]
    rw [if_neg (symbol_ne_padding (by omega)), if_pos trivial, if_pos (by omega),
      ofNat_eq (b := a) (by omega), ofNat_eq (b := b) (by omega)]
  | case4 a b c rest ih =>
    have small := a.toNat_lt
    have small' := b.toNat_lt
    have small'' := c.toNat_lt
    have last : symbol (c.toNat % 64) ≠ 61 := symbol_ne_padding (by omega)
    simp only [encode, decode]
    rw [value_symbol (by omega), value_symbol (by omega), value_symbol (by omega),
      value_symbol (by omega), ih]
    simp only [Option.bind_eq_bind, Option.bind_some]
    rw [if_neg fun h => last h.2.2, if_neg fun h => last h.2,
      ofNat_eq (b := a) (by omega), ofNat_eq (b := b) (by omega), ofNat_eq (b := c) (by omega)]

theorem not_mem_encode (b : Bytes) : 44 ∉ encode b := by
  induction b using encode.induct with
  | case1 => exact List.not_mem_nil
  | case2 a =>
    have small := a.toNat_lt
    simp only [encode, List.mem_cons, not_or]
    refine ⟨?_, ?_, by decide, by decide, List.not_mem_nil⟩
    · exact (symbol_ne_comma (by omega)).symm
    · exact (symbol_ne_comma (by omega)).symm
  | case3 a b =>
    have small := a.toNat_lt
    have small' := b.toNat_lt
    simp only [encode, List.mem_cons, not_or]
    refine ⟨?_, ?_, ?_, by decide, List.not_mem_nil⟩
    · exact (symbol_ne_comma (by omega)).symm
    · exact (symbol_ne_comma (by omega)).symm
    · exact (symbol_ne_comma (by omega)).symm
  | case4 a b c rest ih =>
    have small := a.toNat_lt
    have small' := b.toNat_lt
    have small'' := c.toNat_lt
    simp only [encode, List.mem_cons, not_or]
    refine ⟨?_, ?_, ?_, ?_, ih⟩
    · exact (symbol_ne_comma (by omega)).symm
    · exact (symbol_ne_comma (by omega)).symm
    · exact (symbol_ne_comma (by omega)).symm
    · exact (symbol_ne_comma (by omega)).symm

end Base64Text
