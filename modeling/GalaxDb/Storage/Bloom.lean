import GalaxDb.Lib.Bits
import Mathlib.Data.Nat.Bitwise

/-!
# Bloom filters

A filter sets the bits of every key that is inserted, so a key whose bits are not all set was
not inserted. The bits of a key come from two hashes of it, modulo the number of bits; a filter
that was read with no bits but with hash functions divides by zero. The hash function is
arbitrary, and the sizes that the code computes in floating point are given.
-/

namespace GalaxDb

open Bytes List

namespace Bloom

/-- The ways in which an operation ends without a result. -/
inductive Fault where
  | assertion
  | divisionByZero
  | indexOutOfBounds
  | unreadable
  deriving DecidableEq

structure BloomFilter where
  bits : Bytes
  numBits : UInt64
  numHashes : UInt32
  deriving DecidableEq

/-- The number of bytes for a number of bits. -/
def byteLen (numBits : UInt64) : Nat := (numBits.toNat + 7) / 8

/-- A false-positive rate: whether it is between 0 and 1, and what the formulas make of it and
of a number of keys. -/
structure Rate where
  inside : Bool
  bits : UInt64 → UInt64
  hashes : UInt64 → UInt32

section Operations

variable (xxh3_64 : Bytes → UInt64)

def BloomFilter.sized (m : UInt64) (k : UInt32) : BloomFilter :=
  ⟨List.replicate (byteLen m) 0, m, k⟩

def BloomFilter.new (numKeys : UInt64) (rate : Rate) : Except Fault BloomFilter :=
  if numKeys = 0 ∨ ¬ rate.inside then .error .assertion
  else .ok (.sized (max (rate.bits numKeys) 8) (max (rate.hashes numKeys) 1))

/-- The last argument is the formula for the hash functions. -/
def BloomFilter.withBitsPerKey (numKeys : UInt64) (bitsPerKey : UInt32)
    (hashes : UInt32 → UInt32) : Except Fault BloomFilter :=
  if numKeys = 0 ∨ bitsPerKey = 0 then .error .assertion
  else .ok (.sized (max (numKeys * bitsPerKey.toUInt64) 8) (max (hashes bitsPerKey) 1))

def hashPair (key : Bytes) : UInt64 × UInt64 := (xxh3_64 key, xxh3_64 (key ++ [0x47]))

def BloomFilter.bitIndex (filter : BloomFilter) (h1 h2 : UInt64) (i : Nat) : Except Fault UInt64 :=
  if filter.numBits = 0 then .error .divisionByZero
  else .ok ((h1 + UInt64.ofNat i * h2) % filter.numBits)

def setBit (bits : Bytes) (index : UInt64) : Except Fault Bytes :=
  let byteIdx := index.toNat / 8
  let bitIdx := index.toNat % 8
  match bits[byteIdx]? with
  | some byte => .ok (bits.set byteIdx (byte ||| 1 <<< UInt8.ofNat bitIdx))
  | none => .error .indexOutOfBounds

def getBit (bits : Bytes) (index : UInt64) : Except Fault Bool :=
  let byteIdx := index.toNat / 8
  let bitIdx := index.toNat % 8
  match bits[byteIdx]? with
  | some byte => .ok (byte >>> UInt8.ofNat bitIdx &&& 1 == 1)
  | none => .error .indexOutOfBounds

/-- The bits of the hash functions `i` are set in turn. -/
def BloomFilter.setAll (filter : BloomFilter) (h1 h2 : UInt64) (bits : Bytes) :
    List Nat → Except Fault Bytes
  | [] => .ok bits
  | i :: rest => do
    let index ← filter.bitIndex h1 h2 i
    let bits ← setBit bits index
    filter.setAll h1 h2 bits rest

def BloomFilter.insert (filter : BloomFilter) (key : Bytes) : Except Fault BloomFilter := do
  let (h1, h2) := hashPair xxh3_64 key
  let bits ← filter.setAll h1 h2 filter.bits (List.range filter.numHashes.toNat)
  .ok { filter with bits := bits }

/-- The first bit that is not set ends the check. -/
def BloomFilter.testAll (filter : BloomFilter) (h1 h2 : UInt64) : List Nat → Except Fault Bool
  | [] => .ok true
  | i :: rest => do
    let index ← filter.bitIndex h1 h2 i
    if ← getBit filter.bits index then filter.testAll h1 h2 rest else .ok false

def BloomFilter.mayContain (filter : BloomFilter) (key : Bytes) : Except Fault Bool :=
  let (h1, h2) := hashPair xxh3_64 key
  filter.testAll h1 h2 (List.range filter.numHashes.toNat)

def BloomFilter.serialize (filter : BloomFilter) : Bytes :=
  toLe 8 filter.numBits.toNat ++ (toLe 4 filter.numHashes.toNat ++ filter.bits)

def BloomFilter.deserialize (data : Bytes) : Option BloomFilter :=
  if data.length < 12 then none
  else
    let numBits := UInt64.ofNat (ofLe (data.take 8))
    let numHashes := UInt32.ofNat (ofLe ((data.drop 8).take 4))
    let expected := byteLen numBits
    if data.length < 12 + expected then none
    else some ⟨(data.drop 12).take expected, numBits, numHashes⟩

structure SstBloomFilter where
  sstId : UInt64
  level : UInt64
  filter : BloomFilter
  deriving DecidableEq

/-- What both ways to build a filter do with the keys of the file. -/
def SstBloomFilter.fill (sstId level : UInt64) (keys : List Bytes) (filter : BloomFilter) :
    Except Fault SstBloomFilter :=
  (keys.foldlM (BloomFilter.insert xxh3_64) filter).map fun filter => ⟨sstId, level, filter⟩

def keyCount (keys : List Bytes) : UInt64 := max (UInt64.ofNat keys.length) 1

def SstBloomFilter.build (sstId level : UInt64) (keys : List Bytes) (rate : Rate) :
    Except Fault SstBloomFilter := do
  let filter ← BloomFilter.new (keyCount keys) rate
  SstBloomFilter.fill xxh3_64 sstId level keys filter

def SstBloomFilter.buildWithBitsPerKey (sstId level : UInt64) (keys : List Bytes)
    (bitsPerKey : UInt32) (hashes : UInt32 → UInt32) : Except Fault SstBloomFilter := do
  let filter ← BloomFilter.withBitsPerKey (keyCount keys) bitsPerKey hashes
  SstBloomFilter.fill xxh3_64 sstId level keys filter

def SstBloomFilter.checkKey (sst : SstBloomFilter) (key : Bytes) : Except Fault Bool :=
  sst.filter.mayContain xxh3_64 key

/-- The level is cut to 32 bits. -/
def SstBloomFilter.serialize (sst : SstBloomFilter) : Bytes :=
  toLe 8 sst.sstId.toNat ++ (toLe 4 sst.level.toNat ++ sst.filter.serialize)

def SstBloomFilter.deserialize (data : Bytes) : Option SstBloomFilter :=
  if data.length < 12 then none
  else
    (BloomFilter.deserialize (data.drop 12)).map fun filter =>
      ⟨UInt64.ofNat (ofLe (data.take 8)), UInt64.ofNat (ofLe ((data.drop 8).take 4)), filter⟩

end Operations

section Bits

variable {bits : Bytes}

/-- The bit is set. -/
def HasBit (bits : Bytes) (index : UInt64) : Prop := getBit bits index = .ok true

variable {index : UInt64} {i : Nat}

theorem testBit_shifted (b : UInt8) (bit : i < 8) :
    (b >>> UInt8.ofNat i &&& 1 == 1) = b.toNat.testBit i := by
  have small : i % 8 = i := Nat.mod_eq_of_lt bit
  have value : (b >>> UInt8.ofNat i &&& 1).toNat = b.toNat >>> i % 2 := by
    simp [UInt8.toNat_shiftRight, Nat.and_one_is_mod, small]
  rw [Nat.testBit_eq_decide_div_mod_eq, ← Nat.shiftRight_eq_div_pow, ← value, Bool.eq_iff_iff,
    beq_iff_eq, decide_eq_true_iff, ← UInt8.toNat_inj]
  rfl

theorem testBit_raised (b : UInt8) {j : Nat} (bit : i < 8) :
    (b ||| 1 <<< UInt8.ofNat i).toNat.testBit j = (decide (i = j) || b.toNat.testBit j) := by
  have small : i % 8 = i := Nat.mod_eq_of_lt bit
  have fits : 2 ^ i % 256 = 2 ^ i :=
    Nat.mod_eq_of_lt (Nat.pow_lt_pow_right (m := i) (n := 8) (by decide) bit)
  have raised : ((1 : UInt8) <<< UInt8.ofNat i).toNat = 2 ^ i := by
    simp [UInt8.toNat_shiftLeft, small, Nat.shiftLeft_eq, fits]
  rw [UInt8.toNat_or, Nat.testBit_or, raised, Nat.testBit_two_pow, Bool.or_comm]

theorem hasBit_iff : HasBit bits index ↔
    ∃ byte, bits[index.toNat / 8]? = some byte ∧ byte.toNat.testBit (index.toNat % 8) = true := by
  rw [HasBit, getBit]
  cases found : bits[index.toNat / 8]? with
  | none => simp
  | some byte => simp [testBit_shifted byte (Nat.mod_lt _ (by decide : 0 < 8))]

theorem getBit_ok (inside : index.toNat / 8 < bits.length) :
    ∃ set, getBit bits index = .ok set := by
  rw [getBit, getElem?_eq_getElem inside]
  exact ⟨_, rfl⟩

/-- Setting a bit sets this bit and no other. -/
theorem setBit_spec (inside : index.toNat / 8 < bits.length) :
    ∃ bits', setBit bits index = .ok bits' ∧ bits'.length = bits.length ∧
      ∀ j, HasBit bits' j ↔ j = index ∨ HasBit bits j := by
  obtain ⟨byte, found⟩ : ∃ byte, bits[index.toNat / 8]? = some byte :=
    ⟨_, getElem?_eq_getElem inside⟩
  refine ⟨bits.set (index.toNat / 8) (byte ||| 1 <<< UInt8.ofNat (index.toNat % 8)), ?_,
    length_set, fun j => ?_⟩
  · rw [setBit, found]
  rw [hasBit_iff, hasBit_iff]
  by_cases same : index.toNat / 8 = j.toNat / 8
  · have here : j = index ↔ index.toNat % 8 = j.toNat % 8 := by
      rw [← UInt64.toNat_inj]
      omega
    rw [← same, getElem?_set_self inside, found, here]
    simp only [Option.some.injEq, exists_eq_left', Bool.or_eq_true, decide_eq_true_eq,
      testBit_raised _ (Nat.mod_lt index.toNat (by decide : 0 < 8))]
  · have other : j ≠ index := fun eq => same (by rw [eq])
    rw [getElem?_set_ne same]
    simp [other]

end Bits

section Keys

variable {xxh3_64 : Bytes → UInt64} {filter : BloomFilter} {h1 h2 : UInt64} {key : Bytes}

/-- There is a byte for each of the bits. -/
def BloomFilter.Sized (filter : BloomFilter) : Prop :=
  filter.bits.length = byteLen filter.numBits

/-- No hash function divides by zero. -/
def BloomFilter.Divides (filter : BloomFilter) : Prop :=
  filter.numBits ≠ 0 ∨ filter.numHashes = 0

def BloomFilter.position (filter : BloomFilter) (h1 h2 : UInt64) (i : Nat) : UInt64 :=
  (h1 + UInt64.ofNat i * h2) % filter.numBits

theorem bitIndex_eq (some_bit : filter.numBits ≠ 0) (i : Nat) :
    filter.bitIndex h1 h2 i = .ok (filter.position h1 h2 i) :=
  if_neg some_bit

theorem position_inside (some_bit : filter.numBits ≠ 0) (i : Nat) :
    (filter.position h1 h2 i).toNat / 8 < byteLen filter.numBits := by
  have positive : 0 < filter.numBits.toNat :=
    pos_of_ne_zero fun zero => some_bit (UInt64.toNat_inj.mp zero)
  have below : (filter.position h1 h2 i).toNat < filter.numBits.toNat := by
    exact Nat.mod_lt _ positive
  rw [byteLen]
  omega

theorem setAll_spec {l : List Nat} (some_bit : l ≠ [] → filter.numBits ≠ 0) {bits : Bytes}
    (size : bits.length = byteLen filter.numBits) :
    ∃ bits', filter.setAll h1 h2 bits l = .ok bits' ∧ bits'.length = bits.length ∧
      ∀ j, HasBit bits' j ↔ (∃ i ∈ l, j = filter.position h1 h2 i) ∨ HasBit bits j := by
  induction l generalizing bits with
  | nil => exact ⟨bits, rfl, rfl, by simp⟩
  | cons i l ih =>
    have here := some_bit (by simp)
    obtain ⟨bits1, set, length1, has1⟩ :=
      setBit_spec (lt_of_lt_of_eq (@position_inside filter h1 h2 here i) size.symm)
    obtain ⟨bits2, rest, length2, has2⟩ := ih (fun _ => here) (length1.trans size)
    refine ⟨bits2, ?_, length2.trans length1, fun j => ?_⟩
    · simp only [BloomFilter.setAll, bitIndex_eq here, bind, Except.bind, set, rest]
    · simp only [has2, has1, mem_cons, or_and_right, exists_or, exists_eq_left, or_assoc,
        or_left_comm]

theorem testAll_spec {l : List Nat} (some_bit : l ≠ [] → filter.numBits ≠ 0)
    (size : filter.Sized) : ∃ all, filter.testAll h1 h2 l = .ok all ∧
      (all = true ↔ ∀ i ∈ l, HasBit filter.bits (filter.position h1 h2 i)) := by
  induction l with
  | nil => exact ⟨true, rfl, by simp⟩
  | cons i l ih =>
    have here := some_bit (by simp)
    obtain ⟨set, got⟩ :=
      getBit_ok (lt_of_lt_of_eq (@position_inside filter h1 h2 here i) size.symm)
    obtain ⟨all, rest, iff⟩ := ih fun _ => here
    have has : HasBit filter.bits (filter.position h1 h2 i) ↔ set = true := by
      rw [HasBit, got, Except.ok.injEq]
    simp only [BloomFilter.testAll, bitIndex_eq here, bind, Except.bind, got, forall_mem_cons,
      has, ← iff]
    cases set with
    | true => exact ⟨all, rest, by simp⟩
    | false => exact ⟨false, rfl, by simp⟩

/-- All the bits of the key are set. -/
def Contains (xxh3_64 : Bytes → UInt64) (filter : BloomFilter) (key : Bytes) : Prop :=
  ∀ i < filter.numHashes.toNat, HasBit filter.bits
    (filter.position (hashPair xxh3_64 key).1 (hashPair xxh3_64 key).2 i)

theorem BloomFilter.Divides.some_bit (divides : filter.Divides)
    (some_hash : List.range filter.numHashes.toNat ≠ []) : filter.numBits ≠ 0 := by
  rcases divides with some_bit | none
  · exact some_bit
  · rw [none] at some_hash
    exact absurd rfl some_hash

theorem mayContain_spec (size : filter.Sized) (divides : filter.Divides) (key : Bytes) :
    ∃ answer, filter.mayContain xxh3_64 key = .ok answer ∧
      (answer = true ↔ Contains xxh3_64 filter key) := by
  obtain ⟨answer, tested, iff⟩ := @testAll_spec filter (hashPair xxh3_64 key).1
    (hashPair xxh3_64 key).2 _ divides.some_bit size
  exact ⟨answer, tested, by simpa [Contains] using iff⟩

/-- An insert keeps the keys that the filter contains, and adds one. -/
theorem insert_spec (size : filter.Sized) (divides : filter.Divides) (key : Bytes) :
    ∃ filter', filter.insert xxh3_64 key = .ok filter' ∧ filter'.Sized ∧ filter'.Divides ∧
      Contains xxh3_64 filter' key ∧
      ∀ other, Contains xxh3_64 filter other → Contains xxh3_64 filter' other := by
  obtain ⟨bits, set, length, has⟩ := @setAll_spec filter (hashPair xxh3_64 key).1
    (hashPair xxh3_64 key).2 _ divides.some_bit _ size
  refine ⟨{ filter with bits := bits }, ?_, length.trans size, divides, ?_, ?_⟩
  · simp only [BloomFilter.insert, set, bind, Except.bind]
  · intro i below
    exact (has _).mpr (Or.inl ⟨i, mem_range.mpr below, rfl⟩)
  · intro other contained i below
    exact (has _).mpr (Or.inr (contained i below))

end Keys

section Files

variable {filter : BloomFilter}

theorem deserialize_serialize (size : filter.Sized) :
    BloomFilter.deserialize filter.serialize = some filter := by
  obtain ⟨bits, numBits, numHashes⟩ := filter
  have first : (BloomFilter.serialize ⟨bits, numBits, numHashes⟩).take 8 = toLe 8 numBits.toNat :=
    take_left' (toLe_length _ _)
  have second : (BloomFilter.serialize ⟨bits, numBits, numHashes⟩).drop 8 =
      toLe 4 numHashes.toNat ++ bits :=
    drop_left' (toLe_length _ _)
  have third : (BloomFilter.serialize ⟨bits, numBits, numHashes⟩).drop 12 = bits := by
    exact drop_left' (toLe_length _ _)
  have length : (BloomFilter.serialize ⟨bits, numBits, numHashes⟩).length = 12 + bits.length := by
    simp [BloomFilter.serialize]
    omega
  have sized : bits.length = byteLen numBits := size
  rw [BloomFilter.deserialize, if_neg (by omega), first, second, third,
    take_left' (toLe_length _ _), ofLe_toLe_of_lt numBits.toNat_lt,
    ofLe_toLe_of_lt numHashes.toNat_lt, UInt64.ofNat_toNat, UInt32.ofNat_toNat]
  simp [length, ← sized]

/-- The filter of a file comes back, whatever becomes of the level. -/
theorem deserialize_serialize_sst (size : filter.Sized) (sstId level : UInt64) :
    (SstBloomFilter.deserialize (SstBloomFilter.serialize ⟨sstId, level, filter⟩)).map
      SstBloomFilter.filter = some filter := by
  have rest : (SstBloomFilter.serialize ⟨sstId, level, filter⟩).drop 12 = filter.serialize := by
    rw [← drop_drop (i := 4) (j := 8), SstBloomFilter.serialize,
      drop_left' (toLe_length _ _), drop_left' (toLe_length _ _)]
  have long : ¬ (SstBloomFilter.serialize ⟨sstId, level, filter⟩).length < 12 := by
    simp [SstBloomFilter.serialize]
    omega
  rw [SstBloomFilter.deserialize, if_neg long, rest, deserialize_serialize size]
  rfl

/-- A filter that was read has a byte for each of its bits. -/
theorem sized_of_deserialize {data : Bytes} (read : BloomFilter.deserialize data = some filter) :
    filter.Sized ∧ 12 ≤ data.length ∧ filter.numBits = UInt64.ofNat (ofLe (data.take 8)) ∧
      filter.numHashes = UInt32.ofNat (ofLe ((data.drop 8).take 4)) := by
  simp only [BloomFilter.deserialize] at read
  split_ifs at read with short cut
  obtain rfl := Option.some.inj read
  refine ⟨?_, not_lt.mp short, rfl, rfl⟩
  rw [BloomFilter.Sized, length_take, length_drop]
  exact min_eq_left (by omega)

end Files

section Runs

variable (xxh3_64 : Bytes → UInt64)

/-- A key is inserted, or the filter is written and read back, alone or with its file. -/
inductive Action where
  | insert (key : Bytes)
  | reopen
  | reopenSst (sstId level : UInt64)

def Action.key? : Action → Option Bytes
  | .insert key => some key
  | _ => none

def BloomFilter.apply (filter : BloomFilter) : Action → Except Fault BloomFilter
  | .insert key => filter.insert xxh3_64 key
  | .reopen =>
    match BloomFilter.deserialize filter.serialize with
    | some filter => .ok filter
    | none => .error .unreadable
  | .reopenSst sstId level =>
    match SstBloomFilter.deserialize (SstBloomFilter.serialize ⟨sstId, level, filter⟩) with
    | some sst => .ok sst.filter
    | none => .error .unreadable

/-- Every key is answered, and those that were inserted with yes. -/
structure BloomFilter.Answers (filter : BloomFilter) (keys : List Bytes) : Prop where
  total : ∀ key, ∃ answer, filter.mayContain xxh3_64 key = .ok answer
  found : ∀ key ∈ keys, filter.mayContain xxh3_64 key = .ok true

/-- Every run from the filter goes through and has no false negatives, of the keys that the
filter already held and those that the run inserts. -/
def BloomFilter.Sound (filter : BloomFilter) (held : List Bytes) : Prop :=
  ∀ acts : List Action, ∃ last, acts.foldlM (BloomFilter.apply xxh3_64) filter = .ok last ∧
    last.Answers xxh3_64 (held ++ acts.filterMap Action.key?)

/-- The ways to get a filter. -/
inductive Origin where
  | new (numKeys : UInt64) (rate : Rate)
  | withBitsPerKey (numKeys : UInt64) (bitsPerKey : UInt32) (hashes : UInt32 → UInt32)
  | deserialize (data : Bytes)
  | build (sstId level : UInt64) (keys : List Bytes) (rate : Rate)
  | buildWithBitsPerKey (sstId level : UInt64) (keys : List Bytes) (bitsPerKey : UInt32)
      (hashes : UInt32 → UInt32)
  | deserializeSst (data : Bytes)

/-- The filter, if any, with the keys that it holds. -/
def Origin.made : Origin → Except Fault (Option (BloomFilter × List Bytes))
  | .new numKeys rate => (BloomFilter.new numKeys rate).map fun filter => some (filter, [])
  | .withBitsPerKey numKeys bitsPerKey hashes =>
    (BloomFilter.withBitsPerKey numKeys bitsPerKey hashes).map fun filter => some (filter, [])
  | .deserialize data => .ok ((BloomFilter.deserialize data).map fun filter => (filter, []))
  | .build sstId level keys rate =>
    (SstBloomFilter.build xxh3_64 sstId level keys rate).map fun sst => some (sst.filter, keys)
  | .buildWithBitsPerKey sstId level keys bitsPerKey hashes =>
    (SstBloomFilter.buildWithBitsPerKey xxh3_64 sstId level keys bitsPerKey hashes).map fun sst =>
      some (sst.filter, keys)
  | .deserializeSst data =>
    .ok ((SstBloomFilter.deserialize data).map fun sst => (sst.filter, []))

/-- Nothing but an assertion on the arguments keeps the filter from being made, and it is sound. -/
def Origin.Faithful (o : Origin) : Prop :=
  match o.made xxh3_64 with
  | .error fault => fault = .assertion
  | .ok none => True
  | .ok (some (filter, keys)) => filter.Sound xxh3_64 keys

/-- The stored filter has bits, or no hash functions. -/
def storedDivides (data : Bytes) : Prop :=
  data.length < 12 ∨ ofLe (data.take 8) ≠ 0 ∨ ofLe ((data.drop 8).take 4) = 0

instance (data : Bytes) : Decidable (storedDivides data) :=
  inferInstanceAs (Decidable (_ ∨ _ ∨ _))

/-- A filter that is read is not one without bits and with hash functions. -/
def Origin.Divides : Origin → Prop
  | .deserialize data => storedDivides data
  | .deserializeSst data => storedDivides (data.drop 12)
  | _ => True

variable {xxh3_64} {filter : BloomFilter} {keys : List Bytes}

/-- The invariant of a run: the filter is well formed and contains the keys. -/
structure BloomFilter.Holds (xxh3_64 : Bytes → UInt64) (filter : BloomFilter)
    (keys : List Bytes) : Prop where
  size : filter.Sized
  divides : filter.Divides
  contains : ∀ key ∈ keys, Contains xxh3_64 filter key

theorem BloomFilter.Holds.answers (holds : filter.Holds xxh3_64 keys) :
    filter.Answers xxh3_64 keys := by
  constructor
  · intro key
    obtain ⟨answer, answered, -⟩ := mayContain_spec holds.size holds.divides key
    exact ⟨answer, answered⟩
  · intro key mem
    obtain ⟨answer, answered, iff⟩ := mayContain_spec holds.size holds.divides key
    rw [answered, iff.mpr (holds.contains key mem)]

theorem BloomFilter.Holds.insert (holds : filter.Holds xxh3_64 keys) (key : Bytes) :
    ∃ next, filter.insert xxh3_64 key = .ok next ∧ next.Holds xxh3_64 (keys ++ [key]) := by
  obtain ⟨next, inserted, size, divides, here, kept⟩ := insert_spec holds.size holds.divides key
  refine ⟨next, inserted, size, divides, fun other mem => ?_⟩
  rcases mem_append.mp mem with old | new
  · exact kept other (holds.contains other old)
  · rwa [mem_singleton.mp new]

theorem BloomFilter.Holds.apply (holds : filter.Holds xxh3_64 keys) (a : Action) :
    ∃ next, filter.apply xxh3_64 a = .ok next ∧ next.Holds xxh3_64 (keys ++ a.key?.toList) := by
  cases a with
  | insert key => exact holds.insert key
  | reopen =>
    refine ⟨filter, ?_, by simpa [Action.key?] using holds⟩
    rw [BloomFilter.apply, deserialize_serialize holds.size]
  | reopenSst sstId level =>
    refine ⟨filter, ?_, by simpa [Action.key?] using holds⟩
    obtain ⟨sst, read, same⟩ :=
      Option.map_eq_some_iff.mp (deserialize_serialize_sst holds.size sstId level)
    rw [BloomFilter.apply, read, ← same]

theorem BloomFilter.Holds.sound (holds : filter.Holds xxh3_64 keys) :
    filter.Sound xxh3_64 keys := by
  intro acts
  induction acts generalizing filter keys with
  | nil => exact ⟨filter, rfl, by simpa using holds.answers⟩
  | cons a acts ih =>
    obtain ⟨next, applied, held⟩ := holds.apply a
    obtain ⟨last, ran, answers⟩ := ih held
    refine ⟨last, by rw [foldlM_cons, applied]; exact ran, ?_⟩
    cases key : a.key? <;> simpa [key] using answers

/-- The keys of a file are inserted in turn. -/
theorem BloomFilter.Holds.fill (holds : filter.Holds xxh3_64 keys) (more : List Bytes)
    (sstId level : UInt64) : ∃ sst, SstBloomFilter.fill xxh3_64 sstId level more filter = .ok sst ∧
      sst.filter.Holds xxh3_64 (keys ++ more) := by
  induction more generalizing filter keys with
  | nil => exact ⟨⟨sstId, level, filter⟩, rfl, by simpa using holds⟩
  | cons key more ih =>
    obtain ⟨next, inserted, held⟩ := holds.insert key
    obtain ⟨sst, filled, held⟩ := ih held
    refine ⟨sst, ?_, by simpa using held⟩
    rw [SstBloomFilter.fill, foldlM_cons, inserted]
    exact filled

theorem holds_sized {m : UInt64} {k : UInt32} (some_bit : m ≠ 0) :
    (BloomFilter.sized m k).Holds xxh3_64 [] :=
  ⟨length_replicate, Or.inl some_bit, by simp⟩

theorem max_eight_ne_zero (m : UInt64) : max m 8 ≠ 0 := by
  have cases : max m 8 = if m ≤ 8 then 8 else m := rfl
  rw [cases]
  split
  · decide
  · rename_i large
    rintro rfl
    exact large (by decide)

theorem holds_new (numKeys : UInt64) (rate : Rate) :
    BloomFilter.new numKeys rate = .error .assertion ∨
      ∃ filter, BloomFilter.new numKeys rate = .ok filter ∧ filter.Holds xxh3_64 [] := by
  rw [BloomFilter.new]
  split
  · exact Or.inl rfl
  · exact Or.inr ⟨_, rfl, holds_sized (max_eight_ne_zero _)⟩

theorem holds_withBitsPerKey (numKeys : UInt64) (bitsPerKey : UInt32) (hashes : UInt32 → UInt32) :
    BloomFilter.withBitsPerKey numKeys bitsPerKey hashes = .error .assertion ∨
      ∃ filter, BloomFilter.withBitsPerKey numKeys bitsPerKey hashes = .ok filter ∧
        filter.Holds xxh3_64 [] := by
  rw [BloomFilter.withBitsPerKey]
  split
  · exact Or.inl rfl
  · exact Or.inr ⟨_, rfl, holds_sized (max_eight_ne_zero _)⟩

/-- Without bits the first hash function divides by zero. -/
theorem not_sound_of_no_bits (faulty : ¬ filter.Divides) : ¬ filter.Sound xxh3_64 keys := by
  intro sound
  obtain ⟨last, ran, answers⟩ := sound []
  obtain rfl := Except.ok.inj ran
  rw [BloomFilter.Divides, not_or, not_not] at faulty
  obtain ⟨answer, answered⟩ := answers.total []
  obtain ⟨n, count⟩ : ∃ n, filter.numHashes.toNat = n + 1 :=
    Nat.exists_eq_succ_of_ne_zero fun zero => faulty.2 (UInt32.toNat_inj.mp zero)
  rw [BloomFilter.mayContain, count, range_succ_eq_map] at answered
  simp [BloomFilter.testAll, BloomFilter.bitIndex, faulty.1, bind, Except.bind] at answered

/-- Reading a filter that is there. -/
theorem sound_of_deserialize {data : Bytes} (read : BloomFilter.deserialize data = some filter) :
    filter.Sound xxh3_64 [] ↔ storedDivides data := by
  obtain ⟨size, long, numBits, numHashes⟩ := sized_of_deserialize read
  have bits : filter.numBits = 0 ↔ ofLe (data.take 8) = 0 := by
    rw [numBits, ← UInt64.toNat_inj, UInt64.toNat_ofNat_of_lt' (ofLe_take_lt 8 data)]
    rfl
  have hashes : filter.numHashes = 0 ↔ ofLe ((data.drop 8).take 4) = 0 := by
    rw [numHashes, ← UInt32.toNat_inj, UInt32.toNat_ofNat_of_lt' (ofLe_take_lt 4 _)]
    rfl
  have divides : storedDivides data ↔ filter.Divides := by
    rw [storedDivides, BloomFilter.Divides, Ne, Ne, bits, hashes]
    exact or_iff_right long.not_gt
  rw [divides]
  constructor
  · intro sound
    by_contra faulty
    exact not_sound_of_no_bits faulty sound
  · intro divides
    exact BloomFilter.Holds.sound ⟨size, divides, by simp⟩

/-- Bytes without bits are read whenever they have a header. -/
theorem stored_exact (data : Bytes) :
    (∀ filter, BloomFilter.deserialize data = some filter → filter.Sound xxh3_64 []) ↔
      storedDivides data := by
  cases read : BloomFilter.deserialize data with
  | some filter => simpa using sound_of_deserialize read
  | none =>
    refine iff_of_true (by simp) ?_
    by_contra faulty
    simp only [storedDivides, not_or, not_not, Nat.not_lt] at faulty
    obtain ⟨long, none, -⟩ := faulty
    have empty : byteLen (UInt64.ofNat (ofLe (data.take 8))) = 0 := by
      rw [none]
      rfl
    simp only [BloomFilter.deserialize, empty] at read
    rw [if_neg long.not_gt, if_neg long.not_gt] at read
    cases read

/-- A filter answers for every key, and with yes for those inserted, exactly if it was not read
from bytes that say no bits and some hash functions. -/
theorem filters_exact (xxh3_64 : Bytes → UInt64) (o : Origin) : o.Faithful xxh3_64 ↔ o.Divides := by
  cases o with
  | new numKeys rate =>
    refine iff_of_true ?_ trivial
    rcases @holds_new xxh3_64 numKeys rate with failed | ⟨filter, made, holds⟩
    · simp [Origin.Faithful, Origin.made, failed, Except.map]
    · simpa [Origin.Faithful, Origin.made, made, Except.map] using holds.sound
  | withBitsPerKey numKeys bitsPerKey hashes =>
    refine iff_of_true ?_ trivial
    rcases @holds_withBitsPerKey xxh3_64 numKeys bitsPerKey hashes with
      failed | ⟨filter, made, holds⟩
    · simp [Origin.Faithful, Origin.made, failed, Except.map]
    · simpa [Origin.Faithful, Origin.made, made, Except.map] using holds.sound
  | deserialize data =>
    rw [Origin.Divides, ← @stored_exact xxh3_64]
    cases read : BloomFilter.deserialize data <;> simp [Origin.Faithful, Origin.made, read]
  | build sstId level keys rate =>
    refine iff_of_true ?_ trivial
    rcases @holds_new xxh3_64 (keyCount keys) rate with failed | ⟨filter, made, holds⟩
    · simp [Origin.Faithful, Origin.made, SstBloomFilter.build, failed, bind, Except.bind,
        Except.map]
    · obtain ⟨sst, filled, held⟩ := holds.fill keys sstId level
      simpa [Origin.Faithful, Origin.made, SstBloomFilter.build, made, filled, bind, Except.bind,
        Except.map] using held.sound
  | buildWithBitsPerKey sstId level keys bitsPerKey hashes =>
    refine iff_of_true ?_ trivial
    rcases @holds_withBitsPerKey xxh3_64 (keyCount keys) bitsPerKey hashes with
      failed | ⟨filter, made, holds⟩
    · simp [Origin.Faithful, Origin.made, SstBloomFilter.buildWithBitsPerKey, failed, bind,
        Except.bind, Except.map]
    · obtain ⟨sst, filled, held⟩ := holds.fill keys sstId level
      simpa [Origin.Faithful, Origin.made, SstBloomFilter.buildWithBitsPerKey, made, filled, bind,
        Except.bind, Except.map] using held.sound
  | deserializeSst data =>
    rw [Origin.Divides, ← @stored_exact xxh3_64]
    by_cases short : data.length < 12
    · have nothing : data.drop 12 = [] := drop_eq_nil_of_le short.le
      simp [Origin.Faithful, Origin.made, SstBloomFilter.deserialize, short, nothing,
        BloomFilter.deserialize]
    · cases read : BloomFilter.deserialize (data.drop 12) <;>
        simp [Origin.Faithful, Origin.made, SstBloomFilter.deserialize, short, read]

/-- One hash function and no bits. -/
theorem bitless_filter_divides_by_zero :
    ¬ (Origin.deserialize (toLe 8 0 ++ toLe 4 1)).Faithful fun _ => 0 := by
  intro sound
  have made : (Origin.deserialize (toLe 8 0 ++ toLe 4 1)).made (fun _ => 0) =
      .ok (some (⟨[], 0, 1⟩, [])) := by decide +kernel
  rw [Origin.Faithful, made] at sound
  exact not_sound_of_no_bits (by simp [BloomFilter.Divides]) sound

end Runs

end Bloom

end GalaxDb
