import GalaxDb.Lib.Bytes
import GalaxDb.Lib.Representatives

/-!
# Rows of a training export
-/

namespace GalaxDb.Versioning

open Representatives

structure ExportedRow (F : Type) where
  primaryKey : Bytes
  fields : List F
  nearDuplicateGroup : Option UInt64

open ExportedRow

variable {F : Type} {rows : List (ExportedRow F)} {row : ExportedRow F}

/-- A row without a group, or the one of its group with the smallest key. -/
def isKept (rows : List (ExportedRow F)) (row : ExportedRow F) : Bool :=
  match row.nearDuplicateGroup with
  | none => true
  | some group =>
    match smallest nearDuplicateGroup primaryKey rows group with
    | some best => decide (best = row.primaryKey)
    | none => true

def applyDedupFilter (rows : List (ExportedRow F)) :
    List (ExportedRow F) := rows.filter (isKept rows)

theorem isKept_iff (mem : row ∈ rows) : isKept rows row = true ↔
    ¬Beaten nearDuplicateGroup primaryKey rows row := by
  rw [isKept]
  split
  · next alone => simp [Beaten, alone]
  · next group inside =>
    rw [← smallest_eq_key inside mem]
    cases least : smallest nearDuplicateGroup primaryKey rows group with
    | none => exact absurd inside (smallest_eq_none.mp least row mem)
    | some best => simp

end GalaxDb.Versioning
