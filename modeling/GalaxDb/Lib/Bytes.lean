import Mathlib.Data.List.Infix
import Mathlib.Tactic.Linarith

/-!
# Byte strings

Little-endian integers and the bytewise order. A prefix cuts one interval out of
the bytewise order, so a scan of ordered keys may start at the prefix and stop at
the first key that no longer extends it.
-/

abbrev Bytes := List UInt8

namespace Bytes

open List

instance lawfulBEq : LawfulBEq Bytes := inferInstance

/-- An ASCII text as bytes. -/
def ascii (s : String) : Bytes := s.toList.map fun c => c.toNat.toUInt8

/-- The `w` low bytes of `n`, least significant first. -/
def toLe : Nat → Nat → Bytes
  | 0, _ => []
  | w + 1, n => UInt8.ofNat (n % 256) :: toLe w (n / 256)

def ofLe : Bytes → Nat
  | [] => 0
  | b :: rest => b.toNat + 256 * ofLe rest

@[simp] theorem toLe_length (w n : Nat) : (toLe w n).length = w := by
  induction w generalizing n with
  | zero => rfl
  | succ w ih => simp [toLe, ih]

theorem ofLe_toLe (w n : Nat) : ofLe (toLe w n) = n % 256 ^ w := by
  induction w generalizing n with
  | zero => simp [toLe, ofLe, Nat.mod_one]
  | succ w ih =>
    have hlow : (UInt8.ofNat (n % 256)).toNat = n % 256 := by
      simp
    rw [toLe, ofLe, ih, hlow, Nat.pow_succ', Nat.mod_mul]

theorem ofLe_toLe_of_lt {w n : Nat} (h : n < 256 ^ w) : ofLe (toLe w n) = n := by
  rw [ofLe_toLe, Nat.mod_eq_of_lt h]

theorem toLe_mod (w n : Nat) : toLe w (n % 256 ^ w) = toLe w n := by
  induction w generalizing n with
  | zero => rfl
  | succ w ih =>
    have low : n % 256 ^ (w + 1) % 256 = n % 256 :=
      Nat.mod_mod_of_dvd n ⟨256 ^ w, by rw [Nat.pow_succ']⟩
    have high : n % 256 ^ (w + 1) / 256 = n / 256 % 256 ^ w := by
      rw [Nat.pow_succ', Nat.mod_mul_right_div_self]
    rw [toLe, toLe, low, high, ih]

/-- A byte string never precedes its own prefix. -/
theorem not_lt_of_startsWith {p k : Bytes} (h : p <+: k) : compare k p ≠ .lt := by
  induction p generalizing k with
  | nil => cases k <;> simp
  | cons a p ih =>
    obtain ⟨rest, rfl⟩ := h
    have hk := ih (k := p ++ rest) (prefix_append p rest)
    simpa [List.compare_cons_cons] using hk

/-- Between a prefix and one of its extensions every string extends the prefix. -/
theorem prefix_of_between {p a b : Bytes} (hp : compare a p ≠ .lt)
    (hab : compare a b ≠ .gt) (hb : p <+: b) : p <+: a := by
  induction p generalizing a b with
  | nil => exact nil_prefix
  | cons x p ih =>
    obtain ⟨rest, rfl⟩ := hb
    cases a with
    | nil => simp at hp
    | cons y a =>
      have hyx : y = x := by
        cases hc : compare y x with
        | lt => simp [hc] at hp
        | gt => simp [hc] at hab
        | eq => exact Std.LawfulEqOrd.eq_of_compare hc
      subst hyx
      have tail := ih (a := a) (b := p ++ rest) (by simpa using hp) (by simpa using hab)
        (prefix_append p rest)
      exact cons_prefix_cons.mpr ⟨rfl, tail⟩

/-- Over keys in ascending order, seeking to the prefix and stopping at the first key
that does not extend it collects exactly the keys that extend it. -/
theorem prefix_range_eq_filter {α : Type*} (key : α → Bytes) (pfx : Bytes) (l : List α)
    (ordered : l.Pairwise (fun a b => compare (key a) (key b) = .lt)) :
    (l.dropWhile (fun e => compare (key e) pfx == .lt)).takeWhile
      (fun e => pfx.isPrefixOf (key e)) = l.filter (fun e => pfx.isPrefixOf (key e)) := by
  induction l with
  | nil => rfl
  | cons e rest ih =>
    obtain ⟨first, rest_ordered⟩ := pairwise_cons.mp ordered
    by_cases before : compare (key e) pfx = .lt
    · have outside : ¬ pfx.isPrefixOf (key e) :=
        fun h => not_lt_of_startsWith (List.isPrefixOf_iff_prefix.mp h) before
      simp [before, outside, ih rest_ordered]
    · have above : ∀ x ∈ rest, compare (key x) pfx ≠ .lt := by
        intro x hx hlt
        exact before (Std.TransCmp.lt_trans (first x hx) hlt)
      have seek : rest.dropWhile (fun e => compare (key e) pfx == .lt) = rest := by
        cases rest with
        | nil => rfl
        | cons x rest => simp [above x]
      have tail := ih rest_ordered
      rw [seek] at tail
      by_cases inside : pfx.isPrefixOf (key e)
      · simp [before, inside, tail]
      · have stop : ∀ x ∈ rest, ¬ pfx.isPrefixOf (key x) := by
          intro x hx h
          refine inside (List.isPrefixOf_iff_prefix.mpr ?_)
          exact prefix_of_between before (by simp [first x hx]) (List.isPrefixOf_iff_prefix.mp h)
        simpa [before, inside] using stop

/-- Lists in strictly ascending key order are equal when they have the same elements. -/
theorem eq_of_ordered_of_mem_iff {α : Type*} (key : α → Bytes) {l l' : List α}
    (ordered : l.Pairwise (fun a b => compare (key a) (key b) = .lt))
    (ordered' : l'.Pairwise (fun a b => compare (key a) (key b) = .lt))
    (same : ∀ a, a ∈ l ↔ a ∈ l') : l = l' := by
  have irrefl : ∀ a b : α, compare (key a) (key b) = .lt → a ≠ b := by
    rintro a b h rfl
    simp at h
  have nodup : l.Nodup := ordered.imp fun {a b} => irrefl a b
  have nodup' : l'.Nodup := ordered'.imp fun {a b} => irrefl a b
  refine List.Perm.eq_of_pairwise ?_ ordered ordered'
    ((perm_ext_iff_of_nodup nodup nodup').mpr same)
  intro a b _ _ hab hba
  exact absurd (Std.TransCmp.lt_trans hab hba) (by simp)

/-- The bytes with zeros from the `n`th one on. -/
def zeroFrom (n : Nat) (l : Bytes) : Bytes := l.take n ++ List.replicate (l.length - n) 0

@[simp] theorem length_zeroFrom (n : Nat) (l : Bytes) : (zeroFrom n l).length = l.length := by
  simp only [zeroFrom, length_append, length_take, length_replicate]
  omega

@[simp] theorem zeroFrom_nil (n : Nat) : zeroFrom n [] = [] := by simp [zeroFrom]

theorem zeroFrom_zero (l : Bytes) : zeroFrom 0 l = List.replicate l.length 0 := by simp [zeroFrom]

theorem zeroFrom_succ (n : Nat) (b : UInt8) (l : Bytes) :
    zeroFrom (n + 1) (b :: l) = b :: zeroFrom n l := by
  simp [zeroFrom]

theorem take_zeroFrom (n k : Nat) (l : Bytes) : (zeroFrom n l).take k = zeroFrom n (l.take k) := by
  induction k generalizing n l with
  | zero => simp
  | succ k ih =>
    cases l with
    | nil => simp
    | cons b l =>
      cases n with
      | zero =>
        simp only [zeroFrom_zero, take_replicate, length_take]
      | succ n => rw [zeroFrom_succ, take_succ_cons, take_succ_cons, zeroFrom_succ, ih]

theorem drop_zeroFrom (n k : Nat) (l : Bytes) :
    (zeroFrom n l).drop k = zeroFrom (n - k) (l.drop k) := by
  induction k generalizing n l with
  | zero => simp
  | succ k ih =>
    cases l with
    | nil => simp
    | cons b l =>
      cases n with
      | zero =>
        simp only [zeroFrom_zero, drop_replicate, length_drop, Nat.zero_sub]
      | succ n =>
        rw [zeroFrom_succ, drop_succ_cons, drop_succ_cons, ih, Nat.succ_sub_succ]

theorem zeroFrom_of_length_le {n : Nat} {l : Bytes} (whole : l.length ≤ n) : zeroFrom n l = l := by
  rw [zeroFrom, take_of_length_le whole, Nat.sub_eq_zero_of_le whole, replicate_zero,
    append_nil]

/-- Blanking the high bytes of a number makes it no greater. -/
theorem ofLe_zeroFrom_le (n : Nat) (l : Bytes) : ofLe (zeroFrom n l) ≤ ofLe l := by
  induction l generalizing n with
  | nil => simp
  | cons b l ih =>
    cases n with
    | zero =>
      have zeros : ∀ k, ofLe (List.replicate k 0) = 0 := by
        intro k
        induction k with
        | zero => rfl
        | succ k ih => simp [replicate_succ, ofLe, ih]
      rw [zeroFrom_zero, zeros]
      exact Nat.zero_le _
    | succ n =>
      have later := ih n
      rw [zeroFrom_succ]
      simp only [ofLe]
      omega

end Bytes
