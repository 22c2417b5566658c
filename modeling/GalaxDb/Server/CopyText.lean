import GalaxDb.Server.Messages

/-!
# The text of a COPY stream

Cells are escaped, joined by tabs and ended by newlines. Reading the text gives the rows
back, except that a row whose line is empty is taken for a blank line.
-/

namespace GalaxDb.Server

open Bytes Sql List

theorem joinWith_eq_intercalate (separator : UInt8) (parts : List Bytes) :
    joinWith separator parts = [separator].intercalate parts := by
  induction parts with
  | nil => rfl
  | cons part rest ih =>
    cases rest with
    | nil => simp [joinWith]
    | cons next more =>
      rw [joinWith, ih, intercalate_cons_cons]
      · simp
      · simp

variable {cells : List Bytes} {b : UInt8} {cell : Bytes}

theorem unescapeCell_cons (plain : b ≠ 92) (s : Bytes) :
    unescapeCell (b :: s) = b :: unescapeCell s := by
  cases s with
  | nil => rfl
  | cons c rest => rw [unescapeCell, if_neg plain]

theorem unescapeCell_escapeByte (b : UInt8) (s : Bytes) :
    unescapeCell (escapeByte b ++ s) = b :: unescapeCell s := by
  unfold escapeByte
  split
  · next h => simp [unescapeCell, h]
  · split
    · next h => simp [unescapeCell, h]
    · split
      · next h => simp [unescapeCell, h]
      · split
        · next h => simp [unescapeCell, h]
        · next plain _ _ _ => exact unescapeCell_cons plain s

theorem unescapeCell_escape (cell : Bytes) : unescapeCell (cell.flatMap escapeByte) = cell := by
  induction cell with
  | nil => rfl
  | cons b rest ih => rw [flatMap_cons, unescapeCell_escapeByte, ih]

/-- No separator, line end or carriage return is left in an escaped text. -/
theorem not_mem_escape (special : b = 9 ∨ b = 10 ∨ b = 13) : b ∉ cell.flatMap escapeByte := by
  intro there
  obtain ⟨c, _, here⟩ := mem_flatMap.mp there
  unfold escapeByte at here
  rcases special with rfl | rfl | rfl <;> grind

/-- A backslash stands for the start of an escape. -/
theorem escape_ne_of_backslash {c : UInt8} (other : c ≠ 92 ∧ c ≠ 116 ∧ c ≠ 110 ∧ c ≠ 114) :
    cell.flatMap escapeByte ≠ [92, c] := by
  cases cell with
  | nil => simp
  | cons b rest =>
    rw [flatMap_cons, escapeByte]
    grind

/-- A cell on the wire. -/
def encodeTextCell (cell : Bytes) : Bytes :=
  if cell = ascii "NULL" then [92, 78] else cell.flatMap escapeByte

theorem decodeTextCell_encodeTextCell (cell : Bytes) :
    decodeTextCell (encodeTextCell cell) = cell := by
  unfold encodeTextCell decodeTextCell
  split
  · next null => simp [null]
  · rw [if_neg (escape_ne_of_backslash (by decide)), unescapeCell_escape]

theorem not_mem_encodeTextCell {cell : Bytes} {b : UInt8} (special : b = 9 ∨ b = 10 ∨ b = 13) :
    b ∉ encodeTextCell cell := by
  unfold encodeTextCell
  split
  · rcases special with rfl | rfl | rfl <;> decide
  · exact not_mem_escape special

theorem encodeTextCell_eq_nil_iff : encodeTextCell cell = [] ↔ cell = [] := by
  unfold encodeTextCell
  split
  · next null => simp [null, ascii]
  · constructor
    · intro empty
      rw [← unescapeCell_escape cell, empty]
      rfl
    · rintro rfl
      rfl

theorem encodeTextRow_eq (cells : List Bytes) :
    encodeTextRow cells = [9].intercalate (cells.map encodeTextCell) := by
  rw [encodeTextRow, joinWith_eq_intercalate]
  rfl

theorem decodeTextRow_encodeTextRow (some_ : cells ≠ []) :
    decodeTextRow (encodeTextRow cells) = cells := by
  have apart : ∀ part ∈ cells.map encodeTextCell, (9 : UInt8) ∉ part := by
    intro part there
    obtain ⟨cell, _, rfl⟩ := mem_map.mp there
    exact not_mem_encodeTextCell (.inl rfl)
  rw [decodeTextRow, encodeTextRow_eq, splitOn_intercalate _ apart (by simpa using some_),
    map_map]
  conv_rhs => rw [← map_id cells]
  apply map_congr_left
  intro cell _
  exact decodeTextCell_encodeTextCell cell

theorem not_mem_encodeTextRow (special : b = 10 ∨ b = 13) : b ∉ encodeTextRow cells := by
  rw [encodeTextRow_eq]
  induction cells with
  | nil => simp
  | cons cell rest ih =>
    have first := @not_mem_encodeTextCell cell b (.inr special)
    cases rest with
    | nil => simpa using first
    | cons next more =>
      have apart : b ≠ 9 := by
        rcases special with rfl | rfl <;> decide
      rw [map_cons, map_cons, intercalate_cons_cons]
      simp only [mem_append, mem_singleton, not_or]
      exact ⟨⟨first, apart⟩, ih⟩

/-- The line of a row is empty if the row is one empty cell. -/
theorem encodeTextRow_eq_nil_iff : encodeTextRow cells = [] ↔ cells = [] ∨ cells = [[]] := by
  rw [encodeTextRow_eq]
  cases cells with
  | nil => simp
  | cons cell rest =>
    cases rest with
    | nil => simp [encodeTextCell_eq_nil_iff]
    | cons next more =>
      simp

theorem encodeTextRow_ne_end (cells : List Bytes) : encodeTextRow cells ≠ [92, 46] := by
  rw [encodeTextRow_eq]
  cases cells with
  | nil => simp
  | cons cell rest =>
    cases rest with
    | nil =>
      simp only [map_cons, map_nil, intercalate_singleton, encodeTextCell]
      split
      · decide
      · exact escape_ne_of_backslash (by decide)
    | cons next more =>
      intro ends
      have tab : (9 : UInt8) ∈ [9].intercalate ((cell :: next :: more).map encodeTextCell) := by
        simp
      rw [ends] at tab
      revert tab
      decide

/-- The rows of a stream as COPY TO STDOUT writes it. -/
def copyStream (rows : List (List Bytes)) : Bytes :=
  rows.flatMap fun cells => encodeTextRow cells ++ [10]

theorem splitOn_copyStream (rows : List (List Bytes)) :
    (copyStream rows).splitOn 10 = rows.map encodeTextRow ++ [[]] := by
  induction rows with
  | nil => rfl
  | cons cells rest ih =>
    rw [copyStream, flatMap_cons, append_assoc, singleton_append,
      splitOn_append_cons_self_of_not_mem (not_mem_encodeTextRow (.inl rfl)), ← copyStream, ih]
    rfl

/-- Rows with an empty line are lost, all others come back as they were. -/
theorem copyRows_copyStream (rows : List (List Bytes)) :
    copyRows (copyStream rows) = rows.filter fun cells => cells ≠ [] ∧ cells ≠ [[]] := by
  rw [copyRows, splitOn_copyStream, filterMap_append]
  have last : (List.filterMap (fun line : Bytes =>
      let line := if line.getLast? = some 13 then line.dropLast else line
      if line = [] ∨ line = [92, 46] then none else some (decodeTextRow line)) [[]]) = [] := rfl
  rw [last, append_nil]
  induction rows with
  | nil => rfl
  | cons cells rest ih =>
    have whole : (if (encodeTextRow cells).getLast? = some 13 then (encodeTextRow cells).dropLast
        else encodeTextRow cells) = encodeTextRow cells := by
      rw [if_neg]
      intro ends
      exact not_mem_encodeTextRow (.inr rfl) (mem_of_getLast? ends)
    simp only [map_cons, filterMap_cons, whole, encodeTextRow_eq_nil_iff,
      encodeTextRow_ne_end, or_false]
    by_cases blank : cells = [] ∨ cells = [[]]
    · rw [if_pos blank, filter_cons_of_neg (by simpa [← not_or] using blank)]
      exact ih
    · rw [if_neg blank, filter_cons_of_pos (by simpa [← not_or] using blank),
        decodeTextRow_encodeTextRow (not_or.mp blank).1]
      simp only [cons.injEq, true_and]
      exact ih

end GalaxDb.Server
