import GalaxDb.Lib.Decoding
import Mathlib.Data.Int.Init

/-!
# Signed arithmetic of a build

A debug build checks every operation on 64-bit integers and stops where the result does not
fit; a release build goes on with the low 64 bits.
-/

namespace GalaxDb

inductive Build where
  | debug
  | release
  deriving DecidableEq

namespace Decoded

variable {ε : Type} {b : Build} {n : Int}

theorem bind_assoc {α β γ : Type} (x : Decoded ε α) (f : α → Decoded ε β) (g : β → Decoded ε γ) :
    (x >>= f >>= g) = x >>= fun a => f a >>= g := by
  cases x <;> rfl

def InI64 (n : Int) : Prop := -2 ^ 63 ≤ n ∧ n < 2 ^ 63

instance (n : Int) : Decidable (InI64 n) := inferInstanceAs (Decidable (_ ∧ _))

/-- The result of an operation on `i64`. -/
def i64 (b : Build) (n : Int) : Decoded ε Int :=
  if InI64 n then .ok n
  else
    match b with
    | .debug => .fault .overflow
    | .release => .ok (n.bmod (2 ^ 64))

theorem i64_of_fits (fits : InI64 n) : (i64 b n : Decoded ε Int) = .ok n := if_pos fits

theorem i64_debug_of_not_fits (big : ¬ InI64 n) :
    (i64 .debug n : Decoded ε Int) = .fault .overflow := if_neg big

/-- An operation whose result fits is passed over. -/
theorem i64_bind {α : Type} (f : Int → Decoded ε α) (fits : InI64 n) : (i64 b n >>= f) = f n := by
  rw [i64_of_fits fits, ok_bind]

/-- In a debug build the operations that run are the ones that fit. -/
theorem i64_debug_bind_safe {α : Type} {f : Int → Decoded ε α} :
    (i64 .debug n >>= f).Safe ↔ InI64 n ∧ (f n).Safe := by
  by_cases fits : InI64 n
  · rw [i64_bind f fits, and_iff_right fits]
  · rw [i64_debug_of_not_fits fits, fault_bind]
    simp [fits]

theorem i64_safe_iff : (i64 b n : Decoded ε Int).Safe ↔ b = .release ∨ InI64 n := by
  unfold i64
  cases b <;> split_ifs with fits <;> simp [fits]

end Decoded

end GalaxDb
