import GalaxDb.Lib.OrderedKeys

/-!
# Readers that may go wrong

A reader of bytes returns a value, refuses the bytes, or makes a fault: an index or a slice
out of range, a sum that does not fit, a container larger than what it is read from. A
sequence of readers makes no fault if none of its steps does.
-/

namespace GalaxDb

open List

inductive DecodeFault where
  | outOfRange
  | overflow
  | overAllocation
  deriving DecidableEq

/-- What a run of a reader comes to. -/
inductive Decoded (ε α : Type) where
  | ok (a : α)
  | error (e : ε)
  | fault (f : DecodeFault)
  deriving DecidableEq

namespace Decoded

variable {ε α β : Type}

def bind (x : Decoded ε α) (f : α → Decoded ε β) : Decoded ε β :=
  match x with
  | ok a => f a
  | error e => error e
  | fault g => fault g

instance : Monad (Decoded ε) where
  pure := ok
  bind := bind

@[simp] theorem pure_eq (a : α) : (pure a : Decoded ε α) = ok a := rfl

@[simp] theorem ok_bind (a : α) (f : α → Decoded ε β) : (ok a >>= f) = f a := rfl

@[simp] theorem error_bind (e : ε) (f : α → Decoded ε β) : (error e >>= f) = error e := rfl

@[simp] theorem fault_bind (g : DecodeFault) (f : α → Decoded ε β) :
    (fault g >>= f) = fault g := rfl

/-- The run makes no fault. -/
def Safe (x : Decoded ε α) : Prop := ∀ g, x ≠ fault g

@[simp] theorem safe_ok (a : α) : (ok a : Decoded ε α).Safe := by
  rintro g ⟨⟩

@[simp] theorem safe_error (e : ε) : (error e : Decoded ε α).Safe := by
  rintro g ⟨⟩

@[simp] theorem not_safe_fault (g : DecodeFault) :
    ¬ (fault g : Decoded ε α).Safe := fun safe => safe g rfl

variable {f : α → Decoded ε β} {x : Decoded ε α}

/-- A sequence of two. -/
theorem safe_bind_iff : (x >>= f).Safe ↔ x.Safe ∧ ∀ a, x = ok a → (f a).Safe := by
  cases x <;> simp

theorem bind_eq_ok {b : β} : (x >>= f) = ok b ↔ ∃ a, x = ok a ∧ f a = ok b := by
  cases x <;> simp

section Access

open Bytes

variable {buf : Bytes}

def getByte (buf : Bytes) (i : Nat) : Decoded ε UInt8 :=
  match buf[i]? with
  | some b => .ok b
  | none => .fault .outOfRange

/-- The bytes from `i` up to `j`. -/
def getSlice (buf : Bytes) (i j : Nat) : Decoded ε Bytes :=
  if i ≤ j ∧ j ≤ buf.length then .ok ((buf.drop i).take (j - i)) else .fault .outOfRange

variable {rest s : Bytes} {i n : Nat}

theorem getByte_safe_iff : (getByte buf i : Decoded ε UInt8).Safe ↔ i < buf.length := by
  unfold getByte
  by_cases inside : i < buf.length
  · simp [inside]
  · simp [inside]

theorem getSlice_safe_iff {j : Nat} :
    (getSlice buf i j : Decoded ε Bytes).Safe ↔ i ≤ j ∧ j ≤ buf.length := by
  unfold getSlice
  split_ifs with inside <;> simp [inside]

/-- These bytes are left from a position on. -/
def Remaining (buf : Bytes) (i : Nat) (s : Bytes) : Prop := i ≤ buf.length ∧ buf.drop i = s

theorem Remaining.start (buf : Bytes) : Remaining buf 0 buf := ⟨Nat.zero_le _, drop_zero⟩

theorem Remaining.length (h : Remaining buf i s) : i + s.length = buf.length := by
  have rest := congrArg List.length h.2
  have inside := h.1
  rw [length_drop] at rest
  omega

theorem Remaining.skip (h : Remaining buf i (s ++ rest)) (length : s.length = n) :
    Remaining buf (i + n) rest := by
  have total := h.length
  rw [length_append] at total
  refine ⟨by omega, ?_⟩
  rw [← drop_drop, h.2, drop_left' length]

theorem Remaining.tail {i : Nat} {b : UInt8} {rest : Bytes} (h : Remaining buf i (b :: rest)) :
    Remaining buf (i + 1) rest :=
  Remaining.skip (show Remaining buf i ([b] ++ rest) from h) rfl

theorem Remaining.getByte {b : UInt8} (h : Remaining buf i (b :: rest)) :
    (getByte buf i : Decoded ε UInt8) = .ok b := by
  have first : buf[i]? = some b := by
    rw [← head?_drop, h.2]
    rfl
  rw [Decoded.getByte, first]

theorem Remaining.getSlice (h : Remaining buf i (s ++ rest)) (length : s.length = n) :
    (getSlice buf i (i + n) : Decoded ε Bytes) = .ok s := by
  have total := h.length
  rw [length_append] at total
  rw [Decoded.getSlice, if_pos (by omega), h.2, Nat.add_sub_cancel_left, take_left' length]

/-- Of parts of one width, each stands at a multiple of it. -/
theorem Remaining.chunk {α : Type} {l : List α} {f : α → Bytes} {w : Nat}
    (width : ∀ a ∈ l, (f a).length = w) (h : Remaining buf i (l.flatMap f ++ rest))
    (inside : n < l.length) :
    Remaining buf (i + n * w) (f l[n] ++ ((l.drop (n + 1)).flatMap f ++ rest)) := by
  induction l generalizing i n with
  | nil => simp at inside
  | cons a l ih =>
    rw [flatMap_cons, append_assoc] at h
    cases n with
    | zero => simpa using h
    | succ n =>
      have next := h.skip (width a mem_cons_self)
      have there := ih (fun b mem => width b (mem_cons_of_mem a mem)) next
        (Nat.lt_of_succ_lt_succ inside)
      rw [Nat.succ_mul, Nat.add_comm (n * w) w, ← Nat.add_assoc]
      exact there

theorem Remaining.chunks {α : Type} {l : List α} {f : α → Bytes} {w : Nat}
    (width : ∀ a ∈ l, (f a).length = w) (h : Remaining buf i (l.flatMap f ++ rest)) :
    Remaining buf (i + l.length * w) rest := by
  refine h.skip ?_
  rw [length_flatMap, map_congr_left width, map_const', sum_replicate_nat]

end Access

/-- A value that may be missing. -/
def orError (e : ε) : Option α → Decoded ε α
  | some a => .ok a
  | none => .error e

@[simp] theorem orError_some (e : ε) (a : α) : orError e (some a) = .ok a := rfl

@[simp] theorem orError_none (e : ε) : orError e (none : Option α) = .error e := rfl

@[simp] theorem orError_safe (e : ε) (a : Option α) : (orError e a).Safe := by
  cases a <;> simp

theorem orError_eq_ok {e : ε} {a : Option α} {b : α} : orError e a = .ok b ↔ a = some b := by
  cases a <;> simp

end Decoded

end GalaxDb
