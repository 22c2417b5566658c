import GalaxDb.Lib.Bytes
import Mathlib.Algebra.Order.Field.Rat
import Mathlib.Data.Fintype.Card
import Mathlib.Data.List.FinRange

/-!
# Signatures and their bands

A signature has 128 slots, and two signatures are as similar as the share of slots on which
they agree. They are cut into 32 bands of four slots; signatures that differ in fewer slots
than there are bands agree on all of some band.
-/

namespace GalaxDb.Versioning

open Bytes

def numHashes : Nat := 128

def bands : Nat := 32

def rowsPerBand : Nat := 4

structure MinHashSignature where
  slots : Vector UInt32 numHashes
  deriving DecidableEq

def MinHashSignature.slot (s : MinHashSignature) (i : Fin numHashes) : UInt32 := s.slots[i]

def matchingSlots (a b : MinHashSignature) : Nat :=
  (List.finRange numHashes).countP fun i => a.slot i == b.slot i

/-- The quotient by a power of two is exact as a float. -/
def estimateJaccard (a b : MinHashSignature) : Rat := matchingSlots a b / numHashes

/-- The float nearest to 0.8. -/
def nearDuplicateJaccardThreshold : Rat := 3602879701896397 / 2 ^ 52

/-- The slot of a row of a band. -/
def slotOf (band : Fin bands) (row : Fin rowsPerBand) : Fin numHashes :=
  ⟨band * rowsPerBand + row, by
    have in_bands := band.2
    have in_band := row.2
    simp only [bands, rowsPerBand, numHashes] at *
    omega⟩

/-- The slots of a band, little-endian. -/
def bandBytes (s : MinHashSignature) (band : Fin bands) : Bytes :=
  (List.finRange rowsPerBand).flatMap fun row => toLe 4 (s.slot (slotOf band row)).toNat

def bandHashes (xxh3 : Bytes → UInt64) (s : MinHashSignature) : List UInt64 :=
  (List.finRange bands).map fun band => xxh3 (bandBytes s band)

section Agreement

variable {a b : MinHashSignature}

theorem matchingSlots_self (a : MinHashSignature) : matchingSlots a a = numHashes := by
  simp [matchingSlots]

theorem matchingSlots_comm : matchingSlots a b = matchingSlots b a := by
  simp only [matchingSlots, Bool.beq_comm]

/-- At the threshold: 103 of the 128 slots. -/
theorem threshold_le_iff :
    nearDuplicateJaccardThreshold ≤ estimateJaccard a b ↔ 103 ≤ matchingSlots a b := by
  rw [estimateJaccard, nearDuplicateJaccardThreshold, numHashes, le_div_iff₀ (by norm_num)]
  constructor
  · intro enough
    by_contra few
    have few : matchingSlots a b ≤ 102 := by omega
    have cast : (matchingSlots a b : Rat) ≤ 102 := by exact_mod_cast few
    have gap : (102 : Rat) < 3602879701896397 / 2 ^ 52 * (128 : Nat) := by norm_num
    exact absurd (lt_of_le_of_lt cast gap) (not_lt.mpr enough)
  · intro enough
    have cast : (103 : Rat) ≤ matchingSlots a b := by exact_mod_cast enough
    refine le_trans ?_ cast
    norm_num

/-- The slots on which the signatures disagree. -/
def mismatches (a b : MinHashSignature) : Finset (Fin numHashes) :=
  Finset.univ.filter fun i => a.slot i ≠ b.slot i

theorem card_mismatches : (mismatches a b).card + matchingSlots a b = numHashes := by
  have matching : matchingSlots a b = (Finset.univ.filter fun i => a.slot i = b.slot i).card := by
    have once := (List.nodup_finRange numHashes).filter fun i => a.slot i == b.slot i
    rw [matchingSlots, List.countP_eq_length_filter, ← List.toFinset_card_of_nodup once]
    simp
  rw [matching, mismatches, Nat.add_comm, Finset.card_filter_add_card_filter_not]
  simp

/-- Every band without agreement spoils a slot of its own, so 32 of them are needed to spoil
all bands. -/
theorem exists_band (few : (mismatches a b).card < bands) :
    ∃ band, ∀ row, a.slot (slotOf band row) = b.slot (slotOf band row) := by
  by_contra none_agrees
  push Not at none_agrees
  choose row differs using none_agrees
  have injective : Function.Injective fun band => slotOf band (row band) := by
    intro band band' same
    have value := congrArg Fin.val same
    have small := (row band).2
    have small' := (row band').2
    simp only [slotOf, rowsPerBand] at value small small'
    exact Fin.ext (by omega)
  have count := Finset.card_le_card_of_injOn (s := (Finset.univ : Finset (Fin bands)))
    (t := mismatches a b) (fun band => slotOf band (row band))
    (fun band _ => by simpa [mismatches] using differs band) injective.injOn
  rw [Finset.card_univ, Fintype.card_fin] at count
  omega

/-- Signatures above the threshold share the hash of a band. -/
theorem exists_common_band (xxh3 : Bytes → UInt64) (near : 103 ≤ matchingSlots a b) :
    ∃ (band : Nat) (hash : UInt64), (bandHashes xxh3 a)[band]? = some hash ∧
      (bandHashes xxh3 b)[band]? = some hash := by
  have few : (mismatches a b).card < bands := by
    have total := @card_mismatches a b
    simp only [numHashes, bands] at *
    omega
  obtain ⟨band, agrees⟩ := exists_band few
  have bytes : bandBytes a band = bandBytes b band := by simp only [bandBytes, agrees]
  refine ⟨band, xxh3 (bandBytes a band), ?_, ?_⟩
  · simp [bandHashes]
  · simp [bandHashes, bytes]

end Agreement

end GalaxDb.Versioning
