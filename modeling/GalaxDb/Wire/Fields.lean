import GalaxDb.Auth.Scram
import GalaxDb.Lib.Decoding

/-!
# Fields of wire messages

Integers are big-endian and signed, strings end at a zero byte. A reader takes the body of a
message and a position in it, and gives the position behind what it has read.
-/

namespace GalaxDb.Wire

open Bytes Sql List

def replacementCharacter : Bytes := [0xEF, 0xBF, 0xBD]

/-- Whether `a` starts a character, and how many of the bytes behind it belong to it, or to
what is replaced in its place. -/
def charBehind (a : UInt8) (rest : Bytes) : Bool × Nat :=
  let second (low high : UInt8) : Bool := rest.head?.any fun b => low ≤ b && b ≤ high
  let continued (i : Nat) : Bool := rest[i]?.any Auth.isContinuation
  if a < 0x80 then (true, 0)
  else if 0xC2 ≤ a && a ≤ 0xDF then (if continued 0 then (true, 1) else (false, 0))
  else if 0xE0 ≤ a && a ≤ 0xEF then
    if ¬ second (if a = 0xE0 then 0xA0 else 0x80) (if a = 0xED then 0x9F else 0xBF) then (false, 0)
    else if continued 1 then (true, 2) else (false, 1)
  else if 0xF0 ≤ a && a ≤ 0xF4 then
    if ¬ second (if a = 0xF0 then 0x90 else 0x80) (if a = 0xF4 then 0x8F else 0xBF) then (false, 0)
    else if ¬ continued 1 then (false, 1)
    else if continued 2 then (true, 3) else (false, 2)
  else (false, 0)

/-- `from_utf8_lossy`, character by character; `n` bounds their number. -/
def lossy : Nat → Bytes → Bytes
  | n + 1, a :: rest =>
    let (whole, taken) := charBehind a rest
    (if whole then a :: rest.take taken else replacementCharacter) ++ lossy n (rest.drop taken)
  | _, _ => []

def fromUtf8Lossy (s : Bytes) : Bytes := lossy s.length s

theorem charBehind_of_isUtf8 {a : UInt8} {rest : Bytes} (valid : Auth.isUtf8 (a :: rest)) :
    ∃ taken, charBehind a rest = (true, taken) ∧ Auth.isUtf8 (rest.drop taken) := by
  unfold Auth.isUtf8 at valid
  by_cases one : a < 0x80
  · rw [if_pos one] at valid
    exact ⟨0, by simp [charBehind, one], valid⟩
  rw [if_neg one] at valid
  match rest with
  | [] => cases valid
  | b :: rest =>
    by_cases two : (0xC2 ≤ a && a ≤ 0xDF) = true
    · simp only [if_pos two] at valid
      rw [Bool.and_eq_true] at valid
      exact ⟨1, by simp [charBehind, one, two, valid.1], valid.2⟩
    simp only [if_neg two] at valid
    match rest with
    | [] => cases valid
    | c :: rest =>
      by_cases three : (0xE0 ≤ a && a ≤ 0xEF) = true
      · simp only [if_pos three] at valid
        simp only [Bool.and_eq_true] at valid
        obtain ⟨⟨⟨⟨low, high⟩, first⟩, second⟩, later⟩ := valid
        refine ⟨2, ?_, later⟩
        have bounds :
            ((if a = 0xE0 then 0xA0 else 0x80) ≤ b ∧ b ≤ if a = 0xED then 0x9F else 0xBF) := by
          simp only [Auth.isContinuation, Bool.and_eq_true, decide_eq_true_eq] at first
          split_ifs at low high ⊢ <;> simp_all
        simp [charBehind, one, two, three, bounds, second]
      simp only [if_neg three] at valid
      match rest with
      | [] => cases valid
      | d :: rest =>
        simp only [Bool.and_eq_true] at valid
        obtain ⟨⟨⟨⟨⟨⟨four, low⟩, high⟩, first⟩, second⟩, third⟩, later⟩ := valid
        refine ⟨3, ?_, later⟩
        have bounds :
            ((if a = 0xF0 then 0x90 else 0x80) ≤ b ∧ b ≤ if a = 0xF4 then 0x8F else 0xBF) := by
          simp only [Auth.isContinuation, Bool.and_eq_true, decide_eq_true_eq] at first
          split_ifs at low high ⊢ <;> simp_all
        simp [charBehind, one, two, three, four, bounds, second, third]

theorem lossy_of_isUtf8 {n : Nat} {s : Bytes} (enough : s.length ≤ n) (valid : Auth.isUtf8 s) :
    lossy n s = s := by
  induction n generalizing s with
  | zero =>
    obtain rfl : s = [] := length_eq_zero_iff.mp (by omega)
    rfl
  | succ n ih =>
    cases s with
    | nil => rfl
    | cons a rest =>
      obtain ⟨taken, whole, behind⟩ := charBehind_of_isUtf8 valid
      have later := ih (s := rest.drop taken) (by
        rw [length_drop]
        rw [length_cons] at enough
        omega) behind
      rw [lossy, whole]
      simp [later]

theorem fromUtf8Lossy_of_isUtf8 {s : Bytes} (valid : Auth.isUtf8 s) : fromUtf8Lossy s = s :=
  lossy_of_isUtf8 le_rfl valid

def writeI16 (x : Int16) : Bytes := toBe 2 x.toBitVec.toNat

def writeI32 (x : Int32) : Bytes := toBe 4 x.toBitVec.toNat

@[simp] theorem writeI16_length (x : Int16) : (writeI16 x).length = 2 := toBe_length ..

@[simp] theorem writeI32_length (x : Int32) : (writeI32 x).length = 4 := toBe_length ..

def i16FromBe (s : Bytes) : Int16 := .ofBitVec (.ofNat 16 (ofBe s))

def i32FromBe (s : Bytes) : Int32 := .ofBitVec (.ofNat 32 (ofBe s))

@[simp] theorem i16FromBe_writeI16 (x : Int16) : i16FromBe (writeI16 x) = x := by
  have small : x.toBitVec.toNat % 256 ^ 2 = x.toBitVec.toNat := Nat.mod_eq_of_lt x.toBitVec.isLt
  rw [i16FromBe, writeI16, ofBe_toBe, small, BitVec.ofNat_toNat, BitVec.setWidth_eq,
    Int16.ofBitVec_toBitVec]

@[simp] theorem i32FromBe_writeI32 (x : Int32) : i32FromBe (writeI32 x) = x := by
  have small : x.toBitVec.toNat % 256 ^ 4 = x.toBitVec.toNat := Nat.mod_eq_of_lt x.toBitVec.isLt
  rw [i32FromBe, writeI32, ofBe_toBe, small, BitVec.ofNat_toNat, BitVec.setWidth_eq,
    Int32.ofBitVec_toBitVec]

section Readers

open Decoded

variable {buf : Bytes} {pos : Nat}

/-- The loop up to the next zero or the end; `n` bounds its steps. -/
def skipToNul (buf : Bytes) : Nat → Nat → Decoded Bytes Nat
  | 0, pos => .ok pos
  | n + 1, pos =>
    if pos < buf.length then do
      let b ← getByte buf pos
      if b ≠ 0 then skipToNul buf n (pos + 1) else return pos
    else .ok pos

def readCstr (buf : Bytes) (pos : Nat) : Decoded Bytes (Bytes × Nat) := do
  let last ← skipToNul buf buf.length pos
  if last ≥ buf.length then .error (ascii "unterminated C string in message")
  else do
    let s ← getSlice buf pos last
    return (fromUtf8Lossy s, last + 1)

def readI16 (buf : Bytes) (pos : Nat) : Decoded Bytes (Int16 × Nat) :=
  if pos + 2 > buf.length then .error (ascii "truncated i16 in message")
  else do
    let b0 ← getByte buf pos
    let b1 ← getByte buf (pos + 1)
    return (i16FromBe [b0, b1], pos + 2)

def readI32At (buf : Bytes) (pos : Nat) : Decoded Bytes (Int32 × Nat) :=
  if pos + 4 > buf.length then .error (ascii "truncated i32 in message")
  else do
    let b0 ← getByte buf pos
    let b1 ← getByte buf (pos + 1)
    let b2 ← getByte buf (pos + 2)
    let b3 ← getByte buf (pos + 3)
    return (i32FromBe [b0, b1, b2, b3], pos + 4)

/-- A loop that reads `n` items one behind the other. -/
def readMany {β : Type} (read : Nat → Decoded Bytes (β × Nat)) :
    Nat → Nat → Decoded Bytes (List β × Nat)
  | 0, pos => .ok ([], pos)
  | n + 1, pos => do
    let (x, pos) ← read pos
    let (rest, pos) ← readMany read n pos
    return (x :: rest, pos)

theorem skipToNul_spec (n : Nat) : ∃ last, skipToNul buf n pos = .ok last ∧ pos ≤ last := by
  induction n generalizing pos with
  | zero => exact ⟨pos, rfl, le_rfl⟩
  | succ n ih =>
    unfold skipToNul
    split_ifs with inside
    · have safe : (getByte buf pos : Decoded Bytes UInt8) = .ok buf[pos] := by
        rw [getByte, getElem?_eq_getElem inside]
      rw [safe, ok_bind]
      split_ifs
      · obtain ⟨last, run, after⟩ := @ih (pos + 1)
        exact ⟨last, run, by omega⟩
      · exact ⟨pos, rfl, le_rfl⟩
    · exact ⟨pos, rfl, le_rfl⟩

theorem readCstr_safe : (readCstr buf pos).Safe := by
  obtain ⟨last, run, after⟩ := @skipToNul_spec buf pos buf.length
  unfold readCstr
  rw [run, ok_bind]
  split_ifs with outside
  · exact safe_error _
  · exact safe_bind_iff.mpr ⟨getSlice_safe_iff.mpr ⟨after, by omega⟩, fun s _ => safe_ok _⟩

theorem readI16_safe : (readI16 buf pos).Safe := by
  unfold readI16
  split_ifs with short
  · exact safe_error _
  · simp only [safe_bind_iff, getByte_safe_iff]
    exact ⟨by omega, fun _ _ => ⟨by omega, fun _ _ => safe_ok _⟩⟩

theorem readI32At_safe : (readI32At buf pos).Safe := by
  unfold readI32At
  split_ifs with short
  · exact safe_error _
  · simp only [safe_bind_iff, getByte_safe_iff]
    exact ⟨by omega, fun _ _ => ⟨by omega, fun _ _ => ⟨by omega, fun _ _ =>
      ⟨by omega, fun _ _ => safe_ok _⟩⟩⟩⟩

theorem readMany_safe {β : Type} {read : Nat → Decoded Bytes (β × Nat)}
    (each : ∀ pos, (read pos).Safe) (n : Nat) : (readMany read n pos).Safe := by
  induction n generalizing pos with
  | zero => exact safe_ok _
  | succ n ih =>
    exact safe_bind_iff.mpr ⟨each pos, fun _ _ => safe_bind_iff.mpr ⟨ih, fun _ _ => safe_ok _⟩⟩

variable {rest s : Bytes}

theorem skipToNul_of_remaining (clean : 0 ∉ s) {n : Nat} (enough : s.length < n)
    (here : Remaining buf pos (s ++ 0 :: rest)) : skipToNul buf n pos = .ok (pos + s.length) := by
  induction s generalizing n pos with
  | nil =>
    obtain ⟨n, rfl⟩ := Nat.exists_eq_succ_of_ne_zero enough.ne'
    have total := here.length
    rw [skipToNul, if_pos (by simp at total; omega), here.getByte]
    rfl
  | cons b s ih =>
    obtain ⟨n, rfl⟩ := Nat.exists_eq_succ_of_ne_zero (Nat.zero_lt_of_lt enough).ne'
    have total := here.length
    have nonzero : b ≠ 0 := fun zero => clean (zero ▸ mem_cons_self)
    rw [skipToNul, if_pos (by simp at total; omega), here.getByte, ok_bind, if_pos nonzero,
      ih (fun h => clean (mem_cons_of_mem _ h)) (by simpa using enough) here.tail,
      length_cons, add_assoc, add_comm 1]

theorem readCstr_of_remaining (clean : 0 ∉ s) (valid : Auth.isUtf8 s)
    (here : Remaining buf pos (s ++ 0 :: rest)) :
    readCstr buf pos = .ok (s, pos + s.length + 1) ∧ Remaining buf (pos + s.length + 1) rest := by
  have total := here.length
  rw [length_append, length_cons] at total
  have last := skipToNul_of_remaining clean (n := buf.length) (by omega) here
  refine ⟨?_, (here.skip rfl).tail⟩
  rw [readCstr, last, ok_bind, if_neg (by omega), here.getSlice rfl, ok_bind,
    fromUtf8Lossy_of_isUtf8 valid]
  rfl

theorem readI16_of_remaining {x : Int16} (here : Remaining buf pos (writeI16 x ++ rest)) :
    readI16 buf pos = .ok (x, pos + 2) ∧ Remaining buf (pos + 2) rest := by
  have total := here.length
  rw [length_append, writeI16_length] at total
  obtain ⟨b0, b1, bytes⟩ : ∃ b0 b1, writeI16 x = [b0, b1] := ⟨_, _, rfl⟩
  refine ⟨?_, here.skip (writeI16_length x)⟩
  have back := i16FromBe_writeI16 x
  rw [bytes] at here back
  rw [readI16, if_neg (by omega), here.getByte, ok_bind, here.tail.getByte, ok_bind, back]
  rfl

theorem readI32At_of_remaining {x : Int32} (here : Remaining buf pos (writeI32 x ++ rest)) :
    readI32At buf pos = .ok (x, pos + 4) ∧ Remaining buf (pos + 4) rest := by
  have total := here.length
  rw [length_append, writeI32_length] at total
  obtain ⟨b0, b1, b2, b3, bytes⟩ : ∃ b0 b1 b2 b3, writeI32 x = [b0, b1, b2, b3] :=
    ⟨_, _, _, _, rfl⟩
  refine ⟨?_, here.skip (writeI32_length x)⟩
  have back := i32FromBe_writeI32 x
  rw [bytes] at here back
  rw [readI32At, if_neg (by omega), here.getByte, ok_bind, here.tail.getByte, ok_bind,
    here.tail.tail.getByte, ok_bind, here.tail.tail.tail.getByte, ok_bind, back]
  rfl

/-- Items that are each read back are read back one behind the other. -/
theorem readMany_of_remaining {β : Type} {read : Nat → Decoded Bytes (β × Nat)} {write : β → Bytes}
    {items : List β} (each : ∀ x ∈ items, ∀ pos rest, Remaining buf pos (write x ++ rest) →
      read pos = .ok (x, pos + (write x).length))
    (here : Remaining buf pos (items.flatMap write ++ rest)) :
    readMany read items.length pos = .ok (items, pos + (items.flatMap write).length) ∧
      Remaining buf (pos + (items.flatMap write).length) rest := by
  refine ⟨?_, here.skip rfl⟩
  induction items generalizing pos with
  | nil => rfl
  | cons x items ih =>
    rw [flatMap_cons, append_assoc] at here
    have first := each x mem_cons_self pos _ here
    have later := ih (fun y hy => each y (mem_cons_of_mem _ hy)) (here.skip rfl)
    rw [length_cons, readMany, first, ok_bind]
    simp only [later, ok_bind, pure_eq]
    rw [flatMap_cons, length_append, add_assoc]

end Readers

end GalaxDb.Wire
