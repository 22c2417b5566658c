import Mathlib.Data.List.Basic

/-!
# Savepoints

A block of writes with savepoints in it, in two forms. In the first it is a stack of nested
transactions, each with its own writes. In the second it is one state with a copy of an
earlier state for every savepoint. Both kinds of block make the same of every sequence of
calls. Stacks have the innermost entry first.
-/

namespace GalaxDb.Savepoints

variable {ν ω σ : Type} [DecidableEq ν]

/-- A call, with the name of the savepoint it is about. -/
inductive Call (ν ω : Type) where
  | write (w : ω)
  | savepoint (n : ν)
  | rollbackTo (n : ν)
  | release (n : ν)

/-- Nested transactions: the writes of the block itself, and of every level above it. -/
structure Nested (ν ω : Type) where
  base : List ω
  levels : List (ν × List ω)

namespace Nested

/-- Writes go to the innermost level. -/
def extend (s : Nested ν ω) (ws : List ω) : Nested ν ω :=
  match s.levels with
  | [] => { s with base := s.base ++ ws }
  | (n, before) :: levels => { s with levels := (n, before ++ ws) :: levels }

/-- The levels from the innermost one of a name on. -/
def above (n : ν) : List (ν × List ω) → Option (List ω × List (ν × List ω))
  | [] => none
  | (m, ws) :: levels =>
    if m = n then some (ws, levels)
    else (above n levels).map fun found => (found.1 ++ ws, found.2)

/-- A rolled back level stays open and has no writes; a released one hands all that was
written since to the level around it. -/
def call (s : Nested ν ω) : Call ν ω → Option (Nested ν ω)
  | .write w => some (s.extend [w])
  | .savepoint n => some { s with levels := (n, []) :: s.levels }
  | .rollbackTo n => (above n s.levels).map fun found => { s with levels := (n, []) :: found.2 }
  | .release n => (above n s.levels).map fun found => { s with levels := found.2 }.extend found.1

/-- A savepoint of this name is live. -/
def Live (s : Nested ν ω) (n : ν) : Prop := ∃ level ∈ s.levels, level.1 = n

variable (apply : σ → ω → σ) (start : σ)

/-- All writes of the block, applied in order. -/
def content (base : List ω) : List (ν × List ω) → σ
  | [] => base.foldl apply start
  | (_, ws) :: levels => ws.foldl apply (content base levels)

/-- The content at each savepoint, without what its level has written. -/
def snapshots (base : List ω) : List (ν × List ω) → List (ν × σ)
  | [] => []
  | (n, _) :: levels => (n, content apply start base levels) :: snapshots base levels

end Nested

/-- One state and a copy for every savepoint. -/
structure Copied (ν σ : Type) where
  current : σ
  copies : List (ν × σ)

namespace Copied

/-- The innermost copy under a name and the copies below it. -/
def find (n : ν) : List (ν × σ) → Option (σ × List (ν × σ))
  | [] => none
  | (m, copy) :: copies => if m = n then some (copy, copies) else find n copies

def call (apply : σ → ω → σ) (s : Copied ν σ) : Call ν ω → Option (Copied ν σ)
  | .write w => some { s with current := apply s.current w }
  | .savepoint n => some { s with copies := (n, s.current) :: s.copies }
  | .rollbackTo n => (find n s.copies).map fun found => ⟨found.1, (n, found.1) :: found.2⟩
  | .release n => (find n s.copies).map fun found => { s with copies := found.2 }

end Copied

section Agreement

open Nested

variable (apply : σ → ω → σ) (start : σ)

/-- The copies of a stack of levels. -/
def Nested.copied (s : Nested ν ω) : Copied ν σ :=
  ⟨content apply start s.base s.levels, snapshots apply start s.base s.levels⟩

variable {apply start}

omit [DecidableEq ν] in
theorem content_extend (s : Nested ν ω) (ws : List ω) :
    content apply start (s.extend ws).base (s.extend ws).levels =
      ws.foldl apply (content apply start s.base s.levels) := by
  unfold extend
  cases s.levels with
  | nil => exact List.foldl_append
  | cons level levels => exact List.foldl_append

omit [DecidableEq ν] in
theorem snapshots_extend (s : Nested ν ω) (ws : List ω) :
    snapshots apply start (s.extend ws).base (s.extend ws).levels =
      snapshots apply start s.base s.levels := by
  unfold extend
  cases s.levels <;> rfl

/-- What is found under a name: its copy is the content below it, and the writes since lead
from there to the whole content. -/
theorem find_snapshots (n : ν) (base : List ω) (levels : List (ν × List ω)) :
    Copied.find n (snapshots apply start base levels) = (above n levels).map fun found =>
        (content apply start base found.2, snapshots apply start base found.2) := by
  induction levels with
  | nil => rfl
  | cons level levels ih =>
    rw [snapshots, Copied.find, above]
    split_ifs with here
    · rfl
    · rw [ih, Option.map_map]
      rfl

theorem content_above {n : ν} {base : List ω} {levels rest : List (ν × List ω)} {ws : List ω}
    (found : above n levels = some (ws, rest)) :
    ws.foldl apply (content apply start base rest) = content apply start base levels := by
  induction levels generalizing ws with
  | nil => cases found
  | cons level levels ih =>
    rw [above] at found
    split_ifs at found with here
    · obtain ⟨rfl, rfl⟩ := Prod.mk.inj (Option.some.inj found)
      rfl
    · obtain ⟨⟨inner, below⟩, later, same⟩ := Option.map_eq_some_iff.mp found
      obtain ⟨rfl, rfl⟩ := Prod.mk.inj same
      rw [List.foldl_append, ih later]
      rfl

/-- One call makes the same of both kinds of block. -/
theorem call_copied (s : Nested ν ω) (c : Call ν ω) :
    (s.copied apply start).call apply c = (s.call c).map (Nested.copied apply start) := by
  cases c with
  | write w =>
    simp only [Copied.call, Nested.call, Option.map_some, Nested.copied, content_extend,
      snapshots_extend, List.foldl_cons, List.foldl_nil]
  | savepoint n => rfl
  | rollbackTo n =>
    simp only [Copied.call, Nested.call, Nested.copied, find_snapshots, Option.map_map]
    rfl
  | release n =>
    simp only [Copied.call, Nested.call, Nested.copied, find_snapshots, Option.map_map]
    cases found : above n s.levels with
    | none => rfl
    | some below =>
      simp only [Option.map_some, Function.comp_apply, Nested.copied, content_extend,
        snapshots_extend, content_above found]

theorem above_isSome_iff {n : ν} {levels : List (ν × List ω)} :
    (above n levels).isSome ↔ ∃ level ∈ levels, level.1 = n := by
  induction levels with
  | nil => simp [above]
  | cons level levels ih =>
    rw [above]
    split_ifs with here <;> simp [here, ih]

end Agreement

end GalaxDb.Savepoints
