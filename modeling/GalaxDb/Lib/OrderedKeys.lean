import GalaxDb.Lib.Bytes

/-!
# Keys in the order of their values

Integers of a fixed width, most significant byte first, compare bytewise as numbers. A
byte string may be followed by more bytes once its zeros are escaped and two zeros end it:
the escape keeps the order, and the end is the first zero that a zero follows.
-/

namespace Bytes

/-- The `w` low bytes of `n`, most significant first. -/
def toBe : Nat → Nat → Bytes
  | 0, _ => []
  | w + 1, n => UInt8.ofNat (n / 256 ^ w % 256) :: toBe w n

theorem toBe_mod (w n : Nat) : toBe w (n % 256 ^ w) = toBe w n := by
  induction w generalizing n with
  | zero => rfl
  | succ w ih =>
    have low : n % 256 ^ (w + 1) % 256 ^ w = n % 256 ^ w :=
      Nat.mod_mod_of_dvd n ⟨256, pow_succ ..⟩
    have high : n % 256 ^ (w + 1) / 256 ^ w % 256 = n / 256 ^ w % 256 := by
      rw [pow_succ, Nat.mod_mul_right_div_self, Nat.mod_mod]
    rw [toBe, toBe, high, ← ih (n % 256 ^ (w + 1)), low, ih]

theorem compare_uint8_ofNat {a b : Nat} (ha : a < 256) (hb : b < 256) :
    compare (UInt8.ofNat a) (UInt8.ofNat b) = compare a b := by
  have values : (UInt8.ofNat a).toNat = a ∧ (UInt8.ofNat b).toNat = b := by
    constructor
    · simpa using ha
    · simpa using hb
  have order : UInt8.ofNat a < UInt8.ofNat b ↔ a < b := by
    rw [UInt8.lt_iff_toNat_lt, values.1, values.2]
  have same : UInt8.ofNat a = UInt8.ofNat b ↔ a = b := by
    rw [← UInt8.toNat_inj, values.1, values.2]
  simp only [compare, compareOfLessAndEq, order, same]

/-- The quotients decide, and the remainders where they are equal. -/
theorem compare_div_then_mod (p m n : Nat) :
    (compare (m / p) (n / p)).then (compare (m % p) (n % p)) = compare m n := by
  have first := Nat.div_add_mod m p
  have second := Nat.div_add_mod n p
  rcases lt_trichotomy (m / p) (n / p) with below | same | above
  · have less : m < n := Nat.lt_of_div_lt_div below
    rw [Nat.compare_eq_lt.mpr below, Nat.compare_eq_lt.mpr less]
    rfl
  · rw [same, Nat.compare_eq_eq.mpr rfl, Ordering.eq_then]
    rw [same] at first
    rcases lt_trichotomy (m % p) (n % p) with low | equal | high
    · rw [Nat.compare_eq_lt.mpr low, Nat.compare_eq_lt.mpr (by omega)]
    · rw [Nat.compare_eq_eq.mpr equal, Nat.compare_eq_eq.mpr (by omega)]
    · rw [Nat.compare_eq_gt.mpr high, Nat.compare_eq_gt.mpr (by omega)]
  · have more : n < m := Nat.lt_of_div_lt_div above
    rw [Nat.compare_eq_gt.mpr above, Nat.compare_eq_gt.mpr more]
    rfl

theorem compare_toBe {w m n : Nat} (hm : m < 256 ^ w) (hn : n < 256 ^ w) :
    compare (toBe w m) (toBe w n) = compare m n := by
  induction w generalizing m n with
  | zero =>
    obtain rfl : m = 0 := by simpa using hm
    obtain rfl : n = 0 := by simpa using hn
    rfl
  | succ w ih =>
    have positive : 0 < 256 ^ w := Nat.pow_pos (by decide)
    have top : ∀ a, a < 256 ^ (w + 1) → a / 256 ^ w < 256 := fun a ha =>
      (Nat.div_lt_iff_lt_mul positive).mpr (by rw [pow_succ, mul_comm] at ha; exact ha)
    rw [toBe, toBe, List.compare_cons_cons, compare_uint8_ofNat (Nat.mod_lt _ (by decide))
        (Nat.mod_lt _ (by decide)), Nat.mod_eq_of_lt (top m hm), Nat.mod_eq_of_lt (top n hn),
      ← toBe_mod w m, ← toBe_mod w n, ih (Nat.mod_lt _ positive) (Nat.mod_lt _ positive)]
    exact compare_div_then_mod _ m n

theorem toBe_inj {w m n : Nat} (hm : m < 256 ^ w) (hn : n < 256 ^ w) (same : toBe w m = toBe w n) :
    m = n := by
  have order := compare_toBe hm hn
  rw [same, Std.compare_self] at order
  exact Nat.compare_eq_eq.mp order.symm

@[simp] theorem toBe_length (w n : Nat) : (toBe w n).length = w := by
  induction w with
  | zero => rfl
  | succ w ih => rw [toBe, List.length_cons, ih]

theorem toBe_snoc (w n : Nat) : toBe (w + 1) n = toBe w (n / 256) ++ [UInt8.ofNat (n % 256)] := by
  induction w generalizing n with
  | zero => simp [toBe]
  | succ w ih =>
    rw [toBe, ih, toBe, List.cons_append, Nat.div_div_eq_div_mul, ← pow_succ']

/-- The number with these bytes, most significant first. -/
def ofBe (s : Bytes) : Nat := ofLe s.reverse

theorem reverse_toBe (w n : Nat) : (toBe w n).reverse = toLe w n := by
  induction w generalizing n with
  | zero => rfl
  | succ w ih => rw [toBe_snoc, List.reverse_append, ih, toLe, List.reverse_singleton,
      List.singleton_append]

theorem ofBe_toBe (w n : Nat) : ofBe (toBe w n) = n % 256 ^ w := by
  rw [ofBe, reverse_toBe, ofLe_toLe]

def escapeZeros (s : Bytes) : Bytes := s.flatMap fun b => if b = 0 then [0, 255] else [b]

theorem escapeZeros_cons (b : UInt8) (s : Bytes) :
    escapeZeros (b :: s) = (if b = 0 then [0, 255] else [b]) ++ escapeZeros s := rfl

theorem compare_escapeZeros (s s' : Bytes) :
    compare (escapeZeros s) (escapeZeros s') = compare s s' := by
  induction s generalizing s' with
  | nil =>
    cases s' with
    | nil => rfl
    | cons b s' => by_cases zero : b = 0 <;> simp [escapeZeros, zero]
  | cons a s ih =>
    cases s' with
    | nil => by_cases zero : a = 0 <;> simp [escapeZeros, zero]
    | cons b s' =>
      rw [escapeZeros_cons, escapeZeros_cons, List.compare_cons_cons, ← ih s']
      by_cases same : a = b
      · subst same
        by_cases zero : a = 0 <;> simp [zero, List.compare_cons_cons]
      · have decided : compare a b ≠ .eq := fun eq => same (Std.LawfulEqOrd.eq_of_compare eq)
        have heads (rest rest' : Bytes) : compare (a :: rest) (b :: rest') = compare a b := by
          rw [List.compare_cons_cons]
          cases order : compare a b with
          | eq => exact absurd order decided
          | lt => rfl
          | gt => rfl
        have tails : (compare a b).then (compare (escapeZeros s) (escapeZeros s')) =
            compare a b := by
          rw [← List.compare_cons_cons]
          exact heads _ _
        rw [tails]
        by_cases left : a = 0 <;> by_cases right : b = 0
        · exact absurd (left.trans right.symm) same
        · rw [if_pos left, if_neg right]
          simpa [left] using heads _ _
        · rw [if_neg left, if_pos right]
          simpa [right] using heads _ _
        · rw [if_neg left, if_neg right]
          exact heads _ _

theorem escapeZeros_injective : Function.Injective escapeZeros := by
  intro s s' same
  have order := compare_escapeZeros s s'
  rw [same, Std.compare_self] at order
  exact Std.LawfulEqOrd.eq_of_compare order.symm

/-- The bytes before and after the first zero that a zero follows; a zero before any
other byte is skipped with it. -/
def splitTerminated : Bytes → Option (Bytes × Bytes)
  | [] => none
  | [_] => none
  | a :: b :: rest =>
    if a = 0 then
      if b = 0 then some ([], rest)
      else (splitTerminated rest).map fun p => (a :: b :: p.1, p.2)
    else (splitTerminated (b :: rest)).map fun p => (a :: p.1, p.2)

theorem splitTerminated_cons {a : UInt8} (nonzero : a ≠ 0) (rest : Bytes) :
    splitTerminated (a :: rest) = (splitTerminated rest).map fun p => (a :: p.1, p.2) := by
  cases rest with
  | nil => rfl
  | cons b rest => rw [splitTerminated, if_neg nonzero]

theorem splitTerminated_escapeZeros (s rest : Bytes) :
    splitTerminated (escapeZeros s ++ 0 :: 0 :: rest) = some (escapeZeros s, rest) := by
  induction s with
  | nil => rfl
  | cons b s ih =>
    rw [escapeZeros_cons]
    by_cases zero : b = 0
    · simp [zero, splitTerminated, ih]
    · simp [zero, splitTerminated_cons zero, ih]

/-- Escaped texts with a terminator are in the order of the texts, and then of what follows. -/
theorem compare_terminated (s s' rest rest' : Bytes) :
    compare (escapeZeros s ++ 0 :: 0 :: rest) (escapeZeros s' ++ 0 :: 0 :: rest') =
      (compare s s').then (compare rest rest') := by
  have below {b : UInt8} (nonzero : b ≠ 0) : compare 0 b = .lt := by
    have positive : (0 : UInt8) < b := UInt8.pos_iff_ne_zero.mpr nonzero
    simp [compare, compareOfLessAndEq, positive]
  have above {b : UInt8} (nonzero : b ≠ 0) : compare b 0 = .gt :=
    Std.OrientedCmp.gt_of_lt (below nonzero)
  have escaped (s rest : Bytes) {b : UInt8} (nonzero : b ≠ 0) :
      escapeZeros (b :: s) ++ 0 :: 0 :: rest = b :: (escapeZeros s ++ 0 :: 0 :: rest) := by
    rw [escapeZeros_cons, if_neg nonzero]
    rfl
  have marked (s rest : Bytes) :
      escapeZeros (0 :: s) ++ 0 :: 0 :: rest = 0 :: 255 :: (escapeZeros s ++ 0 :: 0 :: rest) := rfl
  have ends (rest : Bytes) : escapeZeros [] ++ 0 :: 0 :: rest = 0 :: 0 :: rest := rfl
  induction s generalizing s' with
  | nil =>
    cases s' with
    | nil => simp [ends, List.compare_cons_cons]
    | cons b s' =>
      by_cases zero : b = 0
      · subst zero
        rw [ends, marked, List.compare_cons_cons, List.compare_cons_cons,
          below (b := 255) (by decide)]
        simp
      · rw [ends, escaped s' rest' zero, List.compare_cons_cons, below zero]
        simp
  | cons a s ih =>
    cases s' with
    | nil =>
      by_cases zero : a = 0
      · subst zero
        rw [ends, marked, List.compare_cons_cons, List.compare_cons_cons,
          above (b := 255) (by decide)]
        simp
      · rw [ends, escaped s rest zero, List.compare_cons_cons, above zero]
        simp
    | cons b s' =>
      by_cases left : a = 0 <;> by_cases right : b = 0
      · subst left right
        rw [marked, marked, List.compare_cons_cons, List.compare_cons_cons, ih]
        simp [List.compare_cons_cons]
      · subst left
        rw [marked, escaped s' rest' right, List.compare_cons_cons, List.compare_cons_cons,
          below right]
        rfl
      · subst right
        rw [marked, escaped s rest left, List.compare_cons_cons, List.compare_cons_cons, above left]
        rfl
      · rw [escaped s rest left, escaped s' rest' right, List.compare_cons_cons,
          List.compare_cons_cons, ih, Ordering.then_assoc]

/-- A zero that is not followed by its mark, before anything else than a zero, lies behind
the end of the escaped bytes. -/
theorem escapeZeros_ends_before {raw s rest rest' : Bytes} {b : UInt8} (nonzero : b ≠ 0)
    (unmarked : b ≠ 255) (same : escapeZeros raw ++ 0 :: 0 :: rest = s ++ 0 :: b :: rest') :
    escapeZeros raw ++ [0, 0] <+: s ++ [0] := by
  induction raw generalizing s with
  | nil =>
    rw [show escapeZeros [] = [] from rfl] at same ⊢
    match s with
    | [] => simp_all
    | [x] =>
      obtain ⟨rfl, -⟩ : 0 = x ∧ rest = b :: rest' := by simpa using same
      exact List.prefix_refl _
    | x :: y :: s =>
      obtain ⟨rfl, rfl, -⟩ : 0 = x ∧ 0 = y ∧ rest = s ++ 0 :: b :: rest' := by simpa using same
      exact List.prefix_append [0, 0] _
  | cons a raw ih =>
    rw [escapeZeros_cons] at same ⊢
    by_cases zero : a = 0
    · rw [if_pos zero] at same ⊢
      match s with
      | [] => simp_all
      | [x] => simp_all
      | x :: y :: s =>
        obtain ⟨rfl, rfl, behind⟩ : 0 = x ∧ 255 = y ∧
            escapeZeros raw ++ 0 :: 0 :: rest = s ++ 0 :: b :: rest' := by simpa using same
        simpa [List.cons_prefix_cons] using ih behind
    · rw [if_neg zero] at same ⊢
      match s with
      | [] => simp_all
      | x :: s =>
        obtain ⟨rfl, behind⟩ : a = x ∧
            escapeZeros raw ++ 0 :: 0 :: rest = s ++ 0 :: b :: rest' := by simpa using same
        simpa [List.cons_prefix_cons] using ih behind

end Bytes
