import GalaxDb.Sql.Filter
import GalaxDb.Sql.Plans

/-!
# Rows that read back as they were written

The backslash of the row format is not escaped itself, and a text that looks like a number
is read back as one. A row reads back as it was inserted exactly if its column names have
neither `=` nor `|`, no cell but the last ends with a backslash, and every text that looks
like a number is spelled the way the number is.
-/

namespace GalaxDb.Sql

open Bytes Executor List

theorem natDigits_ne_nil (n : Nat) : natDigits n ≠ [] := by
  simp [natDigits, Nat.toDigits_ne_nil]

variable {current name s : Bytes} {b : UInt8} {n : Nat} {c : Char}

theorem toNat_of_isDigit (h : c.isDigit = true) : 48 ≤ c.toNat ∧ c.toNat ≤ 57 := by
  simp only [Char.isDigit, Bool.and_eq_true, decide_eq_true_eq] at h
  exact ⟨h.1, h.2⟩

theorem toUInt8_toNat_of_isDigit (h : c.isDigit = true) : c.toNat.toUInt8.toNat = c.toNat := by
  obtain ⟨low, high⟩ := toNat_of_isDigit h
  simp only [Nat.toUInt8, UInt8.toNat_ofNat']
  omega

theorem natDigits_digit (h : b ∈ natDigits n) : isDigit b = true := by
  obtain ⟨c, hc, rfl⟩ := mem_map.mp h
  have digit := Nat.isDigit_of_mem_toDigits (by decide) (by decide) hc
  obtain ⟨low, high⟩ := toNat_of_isDigit digit
  simp only [isDigit, Bool.and_eq_true, decide_eq_true_eq, UInt8.le_iff_toNat_le,
    toUInt8_toNat_of_isDigit digit]
  exact ⟨low, high⟩

theorem digitsToNat_map (cs : List Char) (digits : ∀ c ∈ cs, c.isDigit = true) (n : Nat) :
    (cs.map fun c => c.toNat.toUInt8).foldl (fun n d => 10 * n + (d.toNat - 48)) n =
      Nat.ofDigitChars 10 cs n := by
  induction cs generalizing n with
  | nil => simp
  | cons c rest ih =>
    rw [map_cons, foldl_cons,
      toUInt8_toNat_of_isDigit (digits c mem_cons_self), Nat.ofDigitChars_cons,
      ih fun c hc => digits c (mem_cons_of_mem _ hc)]
    rfl

theorem digitsToNat_natDigits (n : Nat) : digitsToNat (natDigits n) = n := by
  have digits : ∀ c ∈ Nat.toDigits 10 n, c.isDigit = true :=
    fun c hc => Nat.isDigit_of_mem_toDigits (by decide) (by decide) hc
  rw [digitsToNat, natDigits, digitsToNat_map _ digits, Nat.ofDigitChars_ten_toDigits]

theorem takeSign_of_digits (digits : ∀ b ∈ s, isDigit b = true) : takeSign s = (false, s) := by
  unfold takeSign
  split
  · exact absurd (digits 45 mem_cons_self) (by decide)
  · exact absurd (digits 43 mem_cons_self) (by decide)
  · rfl

theorem takeSign_natDigits (n : Nat) : takeSign (natDigits n) = (false, natDigits n) :=
  takeSign_of_digits fun _ member => natDigits_digit member

theorem u64AsI64_range (small : n < 2 ^ 64) : i64Min ≤ u64AsI64 n ∧ u64AsI64 n ≤ i64Max := by
  rw [u64AsI64, i64Min, i64Max]
  split <;> omega

theorem parseU64_natDigits (small : n < 2 ^ 64) : parseU64 (natDigits n) = some n := by
  have digits : (natDigits n).all isDigit = true :=
    all_eq_true.mpr fun b hb => natDigits_digit hb
  have unsigned : ∀ rest, natDigits n = 43 :: rest → False := by
    intro rest starts
    exact absurd (natDigits_digit (n := n) (b := 43) (starts ▸ mem_cons_self)) (by decide)
  simp only [parseU64, natDigits_ne_nil, digits, Bool.true_eq_false, or_self, ↓reduceIte,
    digitsToNat_natDigits, small]

/-- An integer in range is read back from its decimal form. -/
theorem parseI64_intDisplay {n : Int} (low : i64Min ≤ n) (high : n ≤ i64Max) :
    parseI64 (intDisplay n) = some n := by
  have digits : (natDigits n.natAbs).all isDigit = true :=
    all_eq_true.mpr fun b hb => natDigits_digit hb
  have nonempty := natDigits_ne_nil n.natAbs
  by_cases negative : n < 0
  · have sign : takeSign (intDisplay n) = (true, natDigits n.natAbs) := by
      simp [intDisplay, negative, takeSign]
    have value : -(n.natAbs : Int) = n := by omega
    simp only [parseI64, sign, nonempty, digits, digitsToNat_natDigits, value]
    simp [low, high]
  · have sign : takeSign (intDisplay n) = (false, natDigits n.natAbs) := by
      simp [intDisplay, negative, takeSign_natDigits]
    have value : (n.natAbs : Int) = n := by omega
    simp only [parseI64, sign, nonempty, digits, digitsToNat_natDigits, value]
    simp [low, high]

/-- The bytes that numbers are spelled with. -/
def numberByte (b : UInt8) : Bool :=
  isDigit b || b ∈ [43, 45, 46] || toLower b ∈ ascii "infatye"

section Alien

variable {s : Bytes} {b : UInt8} (alien : numberByte b = false)
include alien

theorem isDigit_of_alien : isDigit b = false := by
  simp only [numberByte, Bool.or_eq_false_iff] at alien
  exact alien.1.1

theorem mem_takeSign (mem : b ∈ s) : b ∈ (takeSign s).2 := by
  have plus : b ≠ 43 := by
    rintro rfl
    simp [numberByte] at alien
  have minus : b ≠ 45 := by
    rintro rfl
    simp [numberByte] at alien
  unfold takeSign
  split <;> simp_all

theorem not_digits_of_alien (mem : b ∈ s) : (takeSign s).2.all isDigit = false := by
  rw [all_eq_false]
  exact ⟨b, mem_takeSign alien mem, by rw [isDigit_of_alien alien]; exact Bool.false_ne_true⟩

theorem parseI64_eq_none_of_alien (mem : b ∈ s) : parseI64 s = none := by
  simp [parseI64, not_digits_of_alien alien mem]

theorem parseExponent_eq_none_of_alien (mem : b ∈ s) : parseExponent s = none := by
  cases s with
  | nil => simp at mem
  | cons e rest =>
    simp only [parseExponent]
    split
    · rfl
    · rename_i letter
      have later : b ∈ rest := by
        rcases mem_cons.mp mem with rfl | h
        · have mark : toLower b = 101 := not_not.mp letter
          rw [numberByte, mark] at alien
          simp [ascii] at alien
        · exact h
      simp [not_digits_of_alien alien later]

theorem mem_dropWhile_isDigit (mem : b ∈ s) : b ∈ s.dropWhile isDigit := by
  rw [← takeWhile_append_dropWhile (p := isDigit) (l := s)] at mem
  rcases mem_append.mp mem with h | h
  · have digit := all_eq_true.mp all_takeWhile b h
    rw [isDigit_of_alien alien] at digit
    cases digit
  · exact h

theorem parseDecimal_eq_none_of_alien (mem : b ∈ s) : parseDecimal s = none := by
  have after := mem_dropWhile_isDigit alien mem
  simp only [parseDecimal]
  generalize s.dropWhile isDigit = rest at after
  split
  · rename_i following
    have inside : b ∈ following := by
      rcases mem_cons.mp after with rfl | h
      · simp [numberByte] at alien
      · exact h
    simp [parseExponent_eq_none_of_alien alien (mem_dropWhile_isDigit alien inside)]
  · simp [parseExponent_eq_none_of_alien alien after]

/-- No number is spelled with another byte. -/
theorem parseF64_eq_none_of_alien (mem : b ∈ s) : parseF64 s = none := by
  have rest := mem_takeSign alien mem
  have special : ∀ word ⊆ ascii "infatye", (takeSign s).2.map toLower ≠ word := by
    rintro word letters same
    have lower : toLower b ∈ word := same ▸ mem_map_of_mem rest
    have known := letters lower
    simp only [numberByte, Bool.or_eq_false_iff, decide_eq_false_iff_not] at alien
    exact alien.2 known
  simp only [parseF64]
  rw [if_neg (by
      rintro (h | h)
      · exact special _ (by decide) h
      · exact special _ (by decide) h),
    if_neg (special _ (by decide)), parseDecimal_eq_none_of_alien alien rest]
  rfl

theorem notMem_of_numberBytes (bytes : s.all numberByte = true) : b ∉ s := fun mem => by
  rw [all_eq_true.mp bytes b mem] at alien
  cases alien

theorem notMem_natDigits (n : Nat) : b ∉ natDigits n := fun mem => by
  have digit := natDigits_digit mem
  rw [isDigit_of_alien alien] at digit
  cases digit

theorem notMem_intDisplay (n : Int) : b ∉ intDisplay n := by
  have minus : b ∉ [45] := notMem_of_numberBytes alien rfl
  unfold intDisplay
  split_ifs
  · exact not_mem_append minus (notMem_natDigits alien _)
  · exact notMem_natDigits alien _

/-- No number is shown with another byte. -/
theorem notMem_floatDisplay (f : Float) : b ∉ floatDisplay f := by
  have zeros (n : Nat) : b ∉ List.replicate n (48 : UInt8) :=
    notMem_of_numberBytes alien (all_eq_true.mpr fun c mem => by
      rw [eq_of_mem_replicate mem]
      decide)
  have point : b ∉ [46] := notMem_of_numberBytes alien rfl
  rw [floatDisplay]
  split
  · exact notMem_of_numberBytes alien rfl
  · extract_lets sign magnitude
    have signed : b ∉ sign := by
      refine notMem_of_numberBytes alien (all_eq_true.mpr fun c mem => ?_)
      revert mem
      simp only [sign]
      split
      · intro mem
        rw [mem_singleton.mp mem]
        decide
      · exact fun absurd => nomatch absurd
    split
    · exact not_mem_append signed (notMem_of_numberBytes alien rfl)
    · split
      · exact not_mem_append signed (notMem_of_numberBytes alien rfl)
      · split
        extract_lets digits
        have plain : b ∉ digits := notMem_natDigits alien _
        split
        · exact not_mem_append (not_mem_append signed plain) (zeros _)
        · rename_i places padded _
          have inside : b ∉ padded := not_mem_append (zeros _) plain
          refine not_mem_append (not_mem_append (not_mem_append signed ?_) point) ?_
          · exact fun member => inside (mem_of_mem_take member)
          · exact fun member => inside (mem_of_mem_drop member)

end Alien

theorem valueFromStr_of_bar (bar : 124 ∈ s) : valueFromStr s = .text s := by
  have literal : ∀ word : Bytes, 124 ∉ word → s ≠ word := by
    rintro word absent rfl
    exact absent bar
  have alien : numberByte 124 = false := by decide
  simp only [valueFromStr, parseI64_eq_none_of_alien alien bar, parseF64_eq_none_of_alien alien bar]
  rw [if_neg (literal _ (by decide)), if_neg (literal _ (by decide)),
    if_neg (literal _ (by decide))]

/-- The cells of the parts of a text; a part without `=` is dropped. -/
def decodeParts (current input : Bytes) (afterBar : Bool) : Columns :=
  (splitRespectingEscape current input afterBar).filterMap fun part =>
    (splitOnce part).map fun p => (p.1, valueFromStr p.2)

theorem split_byte {rest : Bytes} (afterBar : Bool) (plain : b ≠ 124)
    (unescaped : b = 92 → rest.head? ≠ some 124) :
    splitRespectingEscape current (b :: rest) afterBar =
      splitRespectingEscape (current ++ [b]) rest afterBar := by
  rw [splitRespectingEscape]
  · rintro next rfl rfl
    exact unescaped rfl rfl
  · exact plain

theorem split_plain {text : Bytes} (current rest : Bytes) (afterBar : Bool) (plain : 124 ∉ text)
    (unescaped : text.getLast? = some 92 → rest.head? ≠ some 124) :
    splitRespectingEscape current (text ++ rest) afterBar =
      splitRespectingEscape (current ++ text) rest afterBar := by
  induction text generalizing current with
  | nil => simp
  | cons b text ih =>
    have later : 124 ∉ text := fun h => plain (mem_cons_of_mem _ h)
    rw [cons_append, split_byte afterBar (fun h => plain (h ▸ mem_cons_self)) ?_,
      ih _ later ?_, append_assoc, singleton_append]
    · intro last
      apply unescaped
      rw [getLast?_cons, last]
      rfl
    · rintro rfl
      cases text with
      | nil => exact unescaped rfl
      | cons b' text =>
        simp only [cons_append, head?_cons, ne_eq, Option.some.injEq]
        rintro rfl
        exact later mem_cons_self

/-- Escaped text ends up in the part under construction as it was. -/
theorem split_escaped (text current rest : Bytes) (afterBar : Bool)
    (unescaped : text.getLast? = some 92 → rest.head? ≠ some 124) :
    splitRespectingEscape current (escapeBars text ++ rest) afterBar =
      splitRespectingEscape (current ++ text) rest afterBar := by
  induction text generalizing current with
  | nil => simp [escapeBars]
  | cons b text ih =>
    have later : text.getLast? = some 92 → rest.head? ≠ some 124 := by
      intro last
      apply unescaped
      rw [getLast?_cons, last]
      rfl
    have split : escapeBars (b :: text) ++ rest =
        (if b = 124 then [92, 124] else [b]) ++ (escapeBars text ++ rest) := by
      simp [escapeBars]
    rw [split]
    by_cases bar : b = 124
    · subst bar
      simp only [if_true, cons_append, nil_append]
      rw [splitRespectingEscape, ih _ later, append_assoc, singleton_append]
    · rw [if_neg bar, singleton_append, split_byte afterBar bar ?_, ih _ later,
        append_assoc, singleton_append]
      rintro rfl
      cases text with
      | nil => exact unescaped rfl
      | cons b' text =>
        by_cases bar' : b' = 124 <;> simp [escapeBars, bar']

/-- The part under construction is the start of the first part. -/
theorem split_first (nonempty : current ≠ []) (input : Bytes) (afterBar : Bool) :
    ∃ tail more, splitRespectingEscape current input afterBar = (current ++ tail) :: more := by
  fun_induction splitRespectingEscape current input afterBar with
  | case1 current afterBar empty => exact absurd empty.1 nonempty
  | case2 current afterBar => exact ⟨[], [], by simp⟩
  | case3 current rest afterBar ih =>
    obtain ⟨tail, more, eq⟩ := ih (by simp)
    exact ⟨124 :: tail, more, by rw [eq]; simp⟩
  | case4 current rest _ => exact ⟨[], _, by rw [append_nil]⟩
  | case5 current b rest afterBar _ _ ih =>
    obtain ⟨tail, more, eq⟩ := ih (by simp)
    exact ⟨b :: tail, more, by rw [eq]; simp⟩

/-- An empty last part has no cell, so it does not matter what comes before it. -/
theorem decodeParts_flag (current input : Bytes) (flag flag' : Bool) :
    decodeParts current input flag = decodeParts current input flag' := by
  fun_induction splitRespectingEscape current input flag with
  | case1 current flag empty =>
    obtain ⟨rfl, rfl⟩ := empty
    cases flag' <;> simp [decodeParts, splitRespectingEscape, splitOnce]
  | case2 current flag nonempty =>
    by_cases empty : current = []
    · subst empty
      cases flag <;> cases flag' <;> simp [decodeParts, splitRespectingEscape, splitOnce]
    · simp [decodeParts, splitRespectingEscape, empty]
  | case3 current rest flag ih => simpa only [decodeParts, splitRespectingEscape] using ih
  | case4 current rest flag ih => simp only [decodeParts, splitRespectingEscape]
  | case5 current b rest flag plain unescaped ih =>
    have bar : b ≠ 124 := unescaped
    have follows : b = 92 → rest.head? ≠ some 124 := by
      rintro rfl starts
      obtain ⟨rest, rfl⟩ := head?_eq_some_iff.mp starts
      exact plain rest rfl rfl
    simpa only [decodeParts, split_byte _ bar follows] using ih

theorem splitOnce_cell {value : Bytes} (plain : 61 ∉ name) :
    splitOnce (name ++ 61 :: value) = some (name, value) := by
  have all : ∀ b ∈ name, decide (b ≠ 61) = true := by
    intro b hb
    simp only [ne_eq, decide_eq_true_eq]
    rintro rfl
    exact plain hb
  rw [splitOnce, takeWhile_append_of_pos all, dropWhile_append_of_pos all]
  simp

/-- The first cell of a text is named by what stands between the last separator and the
first `=`; bars before it make the name shorter. -/
theorem splitOnce_eq_none (plain : 61 ∉ s) : splitOnce s = none := by
  have all : ∀ b ∈ s, decide (b ≠ 61) = true := by
    intro b hb
    simp only [ne_eq, decide_eq_true_eq]
    rintro rfl
    exact plain hb
  have nothing : s.dropWhile (fun b => decide (b ≠ 61)) = [] := by
    simpa using @dropWhile_append_of_pos _ _ s [] all
  rw [splitOnce, nothing]

/-- A part that has reached its `=` gives the next cell. -/
theorem decodeParts_named (plain : 61 ∉ name) (value rest : Bytes) (afterBar : Bool) :
    ∃ tail more, splitRespectingEscape (name ++ 61 :: value) rest afterBar =
        (name ++ 61 :: (value ++ tail)) :: more ∧
      decodeParts (name ++ 61 :: value) rest afterBar = (name, valueFromStr (value ++ tail)) ::
        more.filterMap fun part => (splitOnce part).map fun p => (p.1, valueFromStr p.2) := by
  have started : name ++ 61 :: value ≠ [] := by simp
  obtain ⟨tail, more, eq⟩ := split_first started rest afterBar
  rw [append_assoc, cons_append] at eq
  refine ⟨tail, more, eq, ?_⟩
  rw [decodeParts, eq, filterMap_cons, splitOnce_cell plain]
  rfl

/-- A name is read up to the first bar or equals sign. -/
theorem decodeParts_name (rest : Bytes) (afterBar : Bool) (started : 61 ∉ current)
    (plain : 61 ∉ name) :
    ∃ first value more, decodeParts current (name ++ 61 :: rest) afterBar =
        (first, value) :: more ∧ first.length ≤ current.length + name.length ∧
      (124 ∈ name → first.length < current.length + name.length) := by
  generalize input_eq : name ++ 61 :: rest = input
  fun_induction splitRespectingEscape current input afterBar generalizing name with
  | case1 current flag empty => simp at input_eq
  | case2 current flag nonempty => simp at input_eq
  | case3 current tail flag ih =>
    obtain _ | ⟨b, _ | ⟨b', name⟩⟩ := name
    · simp at input_eq
    · simp at input_eq
    · obtain ⟨rfl, rfl, rfl⟩ := input_eq
      obtain ⟨first, value, more, eq, bound, -⟩ := ih (by simpa using started)
        (fun h => plain (by simp [h])) rfl
      rw [length_append, length_singleton] at bound
      refine ⟨first, value, more,
        by simpa only [decodeParts, splitRespectingEscape] using eq, ?_, ?_⟩
      · simp only [length_cons]
        omega
      · simp only [length_cons]
        omega
  | case4 current tail flag ih =>
    obtain _ | ⟨b, name⟩ := name
    · simp at input_eq
    · obtain ⟨rfl, rfl⟩ := input_eq
      obtain ⟨first, value, more, eq, bound, -⟩ := ih (by simp)
        (fun h => plain (mem_cons_of_mem _ h)) rfl
      have dropped : decodeParts current (124 :: (name ++ 61 :: rest)) flag =
          decodeParts [] (name ++ 61 :: rest) true := by
        simp only [decodeParts, splitRespectingEscape, filterMap_cons,
          splitOnce_eq_none started, Option.map_none]
      refine ⟨first, value, more, dropped.trans eq, ?_, ?_⟩
      · simp only [length_cons, length_nil] at bound ⊢
        omega
      · simp only [length_cons, length_nil] at bound ⊢
        omega
  | case5 current b tail flag escape bar ih =>
    have follows : b = 92 → tail.head? ≠ some 124 := by
      rintro rfl starts
      obtain ⟨tail, rfl⟩ := head?_eq_some_iff.mp starts
      exact escape tail rfl rfl
    obtain _ | ⟨b', name⟩ := name
    · obtain ⟨rfl, rfl⟩ := input_eq
      obtain ⟨end_, more, -, eq⟩ := decodeParts_named started [] rest flag
      have reached : decodeParts current (61 :: rest) flag =
          decodeParts (current ++ [61]) rest flag := by
        rw [decodeParts, split_byte flag bar follows, decodeParts]
      exact ⟨current, _, _, reached.trans eq, by simp, by simp⟩
    · simp only [cons_append, cons.injEq] at input_eq
      obtain ⟨rfl, rfl⟩ := input_eq
      have fresh : b' ≠ 61 := fun h => plain (h ▸ mem_cons_self)
      obtain ⟨first, value, more, eq, bound, strict⟩ := ih
        (by simpa [started] using fresh.symm) (fun h => plain (mem_cons_of_mem _ h)) rfl
      rw [length_append, length_singleton] at bound strict
      refine ⟨first, value, more, ?_, ?_, ?_⟩
      · rw [decodeParts, split_byte flag bar follows]
        exact eq
      · simp only [length_cons]
        omega
      · intro inside
        have := strict (by simpa [Ne.symm bar] using inside)
        simp only [length_cons]
        omega

section RoundTrip

/-- A row as the client sees it. -/
def rendered (cols : Columns) : List (Bytes × Bytes) := cols.map fun c => (c.1, valueDisplay c.2)

/-- A value as a literal of an INSERT gives it, no float and no literal text. -/
def Storable : Value → Prop
  | .text s => s ≠ ascii "NULL" ∧ s ≠ ascii "true" ∧ s ≠ ascii "false"
  | .integer n => i64Min ≤ n ∧ n ≤ i64Max
  | .bool _ => True
  | .null => True
  | _ => False

/-- A text that looks like a number is spelled as that number is. -/
def KeepsSpelling : Value → Prop
  | .text s => (∀ n, parseI64 s = some n → intDisplay n = s) ∧
      ∀ f, parseI64 s = none → parseF64 s = some f → (46 ∈ s ∨ 101 ∈ s ∨ 69 ∈ s) →
        floatDisplay f = s
  | _ => True

def Faithful : Columns → Prop
  | [] => True
  | c :: rest => (61 ∉ c.1 ∧ 124 ∉ c.1) ∧
      (rest ≠ [] → (valueDisplay c.2).getLast? ≠ some 92) ∧ KeepsSpelling c.2 ∧ Faithful rest

theorem valueFromStr_intDisplay {n : Int} (low : i64Min ≤ n) (high : n ≤ i64Max) :
    valueFromStr (intDisplay n) = .integer n := by
  have parsed := parseI64_intDisplay low high
  have literal : ∀ word : Bytes, parseI64 word = none → intDisplay n ≠ word := by
    rintro word bad rfl
    simp [bad] at parsed
  rw [valueFromStr, if_neg (literal _ (by decide)), if_neg (literal _ (by decide)),
    if_neg (literal _ (by decide)), parsed]

variable {v : Value} {a b rest : Columns} {name : Bytes}

/-- Whether a value is rendered again as it was depends on its spelling only. -/
theorem valueDisplay_valueFromStr_iff (storable : Storable v) :
    valueDisplay (valueFromStr (valueDisplay v)) = valueDisplay v ↔ KeepsSpelling v := by
  cases v with
  | integer n =>
    simp only [valueDisplay, valueFromStr_intDisplay storable.1 storable.2, KeepsSpelling]
  | bool b => cases b <;> simp [valueDisplay, valueFromStr, KeepsSpelling] <;> decide
  | null => simp [valueDisplay, valueFromStr, KeepsSpelling]
  | float f => exact storable.elim
  | blob bytes => exact storable.elim
  | array items => exact storable.elim
  | text s =>
    obtain ⟨h1, h2, h3⟩ := storable
    rw [KeepsSpelling, valueDisplay, valueFromStr, if_neg h1, if_neg h2, if_neg h3]
    cases integer : parseI64 s with
    | some n => simp [valueDisplay]
    | none =>
      cases float : parseF64 s with
      | none => simp [valueDisplay]
      | some f =>
        by_cases marked : 46 ∈ s ∨ 101 ∈ s ∨ 69 ∈ s
        · simp [marked, valueDisplay]
        · simp [marked, valueDisplay]

theorem encodeRow_cons (c : Bytes × Value) (rest : Columns) :
    encodeRow (c :: rest) = c.1 ++ 61 :: (escapeBars (valueDisplay c.2) ++
      if rest = [] then [] else 124 :: encodeRow rest) := by
  cases rest <;> simp [encodeRow, joinWith, encodeCell]

/-- A cell that is set apart from what follows is read back under its name. -/
theorem decodeRow_encodeRow_cons (equals : 61 ∉ name) (bars : 124 ∉ name)
    (apart : rest ≠ [] → (valueDisplay v).getLast? ≠ some 92) :
    decodeRow (encodeRow ((name, v) :: rest)) =
      (name, valueFromStr (valueDisplay v)) :: decodeRow (encodeRow rest) := by
  rw [encodeRow_cons, ← singleton_append, ← append_assoc, decodeRow,
    split_plain [] _ false (by simpa using bars) (by simp), nil_append,
    split_escaped _ _ _ _ (by
      intro ends
      by_cases last : rest = []
      · simp [last]
      · exact absurd ends (apart last))]
  by_cases last : rest = []
  · subst last
    simp [splitRespectingEscape, splitOnce_cell equals, encodeRow, joinWith, decodeRow]
  · rw [if_neg last, splitRespectingEscape, filterMap_cons, append_assoc,
      singleton_append, splitOnce_cell equals]
    exact congrArg _ (decodeParts_flag [] (encodeRow rest) true false)

/-- A name with `=` or `|` is not read back. -/
theorem decodeRow_name_ne {name : Bytes} {v : Value} {rest : Columns}
    (special : 61 ∈ name ∨ 124 ∈ name) :
    ∃ first value more, decodeRow (encodeRow ((name, v) :: rest)) = (first, value) :: more ∧
      first ≠ name := by
  rw [encodeRow_cons]
  generalize escapeBars (valueDisplay v) ++ (if rest = [] then [] else 124 :: encodeRow rest) = tail
  by_cases equals : 61 ∈ name
  · obtain ⟨before, after, rfl, first⟩ := eq_append_cons_of_mem equals
    obtain ⟨first, value, more, eq, bound, -⟩ :=
      decodeParts_name (after ++ 61 :: tail) false (not_mem_nil) first
    refine ⟨first, value, more, ?_, ?_⟩
    · simpa [decodeParts, decodeRow] using eq
    · rintro rfl
      simp at bound
  · obtain ⟨first, value, more, eq, -, strict⟩ := decodeParts_name tail false (not_mem_nil) equals
    refine ⟨first, value, more, eq, ?_⟩
    rintro rfl
    simpa using strict (special.resolve_left equals)

/-- A backslash at the end of a cell takes the separator, and the next cell with it. -/
theorem decodeRow_merged (equals : 61 ∉ name) (bars : 124 ∉ name) (more : rest ≠ [])
    (ends : (valueDisplay v).getLast? = some 92) :
    ∃ value cells, decodeRow (encodeRow ((name, v) :: rest)) = (name, .text value) :: cells ∧
      value ≠ valueDisplay v := by
  obtain ⟨start, display⟩ := getLast?_eq_some_iff.mp ends
  have escaped : escapeBars (valueDisplay v) ++ 124 :: encodeRow rest =
      escapeBars start ++ 92 :: 124 :: encodeRow rest := by
    rw [display]
    simp [escapeBars]
  obtain ⟨tail, cells, -, eq⟩ := decodeParts_named equals (start ++ [124]) (encodeRow rest) false
  rw [valueFromStr_of_bar (by simp)] at eq
  have reached : decodeRow (encodeRow ((name, v) :: rest)) =
      decodeParts (name ++ 61 :: (start ++ [124])) (encodeRow rest) false := by
    rw [encodeRow_cons, if_neg more, escaped, ← singleton_append, ← append_assoc, decodeRow,
      split_plain [] _ false (by simpa using bars) (by simp), nil_append,
      split_escaped _ _ _ _ (by simp), splitRespectingEscape, append_assoc,
      append_assoc, singleton_append, decodeParts]
  refine ⟨start ++ [124] ++ tail, _, reached.trans eq, ?_⟩
  rw [display, append_assoc]
  simp

theorem reads_back_iff (ordered : Columns) (storable : ∀ c ∈ ordered, Storable c.2) :
    rendered (decodeRow (encodeRow ordered)) = rendered ordered ↔ Faithful ordered := by
  induction ordered with
  | nil => simp [encodeRow, joinWith, decodeRow, splitRespectingEscape, rendered, Faithful]
  | cons c rest ih =>
    obtain ⟨name, v⟩ := c
    have spelled := valueDisplay_valueFromStr_iff (storable (name, v) mem_cons_self)
    have later := ih fun c hc => storable c (mem_cons_of_mem _ hc)
    by_cases special : 61 ∈ name ∨ 124 ∈ name
    · obtain ⟨first, value, more, eq, ne⟩ := @decodeRow_name_ne name v rest special
      constructor
      · intro same
        rw [eq] at same
        simp only [rendered, map_cons, cons.injEq, Prod.mk.injEq] at same
        exact absurd same.1.1 ne
      · intro faithful
        exact absurd special (not_or.mpr faithful.1)
    · obtain ⟨equals, bars⟩ := not_or.mp special
      by_cases apart : rest ≠ [] → (valueDisplay v).getLast? ≠ some 92
      · rw [decodeRow_encodeRow_cons equals bars apart]
        simp only [rendered, map_cons, cons.injEq, Prod.mk.injEq, true_and, spelled]
        simp only [rendered] at later
        rw [later]
        exact ⟨fun both => ⟨⟨equals, bars⟩, apart, both⟩, fun faithful => faithful.2.2⟩
      · obtain ⟨more, ends⟩ := Classical.not_imp.mp apart
        obtain ⟨value, cells, eq, ne⟩ := decodeRow_merged equals bars more (not_not.mp ends)
        constructor
        · intro same
          rw [eq] at same
          simp only [rendered, map_cons, cons.injEq, Prod.mk.injEq] at same
          exact absurd same.1.2 ne
        · intro faithful
          exact absurd faithful.2.1 apart

theorem cell_rendered (same : rendered a = rendered b) (name : Bytes) :
    (cell a name).map valueDisplay = (cell b name).map valueDisplay := by
  induction a generalizing b with
  | nil =>
    obtain rfl : b = [] := by simpa [rendered] using same.symm
    rfl
  | cons c rest ih =>
    obtain _ | ⟨c', rest'⟩ := b
    · simp [rendered] at same
    · simp only [rendered, map_cons, cons.injEq, Prod.mk.injEq] at same
      have later := ih same.2
      simp only [cell, find?_cons, same.1.1] at later ⊢
      by_cases here : c'.1 = name
      · simp [here, same.1.2]
      · simpa [here] using later

/-- What a SELECT list shows depends on the rendered row only. -/
theorem project_rendered (same : rendered a = rendered b) (names : List Bytes) :
    rendered (project names a) = rendered (project names b) := by
  simp only [rendered, project, map_map]
  apply map_congr_left
  intro name _
  have cells := cell_rendered same name
  cases inA : cell a name <;> cases inB : cell b name <;> simp_all

theorem alignValues_values {entry : TableEntry} {columns : List Bytes} {values : List Value}
    {ordered : Columns} (aligned : alignValues entry columns values = .ok ordered) :
    ∀ c ∈ ordered, c.2 ∈ values := by
  simp only [alignValues] at aligned
  split at aligned
  · split at aligned
    · cases aligned
    · cases aligned
      exact fun c hc => (of_mem_zip hc).2
  · split at aligned
    · cases aligned
    · cases aligned
      exact fun c hc => (of_mem_zip hc).2

/-- The row that an INSERT writes is read back as it was given exactly if it is faithful;
then every SELECT list over the table shows the inserted values. -/
theorem insert_reads_back {ctx : ExecutorContext} {table : Bytes} {columns : List Bytes}
    {values : List Value} {effect : Effect}
    (planned : planInsert ctx table columns values = .ok effect)
    (storable : ∀ v ∈ values, Storable v) :
    ∃ entry ordered key, getTable ctx.catalog table = .ok entry ∧
      alignValues entry columns values = .ok ordered ∧
      effect.writes = [(key, some (encodeRow ordered))] ∧
      (rendered (decodeRow (encodeRow ordered)) = rendered ordered ↔ Faithful ordered) ∧
      (Faithful ordered → ∀ (reader : Reader) (names : List Bytes) (scan : Effect),
        (key, encodeRow ordered) ∈ reader.tableRows table →
        planFullScan ⟨ctx.catalog, fun _ _ => none, reader⟩ table none names = .ok scan →
        ∃ row, (key, row) ∈ scan.rows ∧ rendered row = rendered (project
          (if names = [] then entry.columns.map CatalogColumn.name else names) ordered)) := by
  obtain ⟨entry, ordered, key, found, aligned, -, rfl⟩ := planInsert_ok planned
  have iff := reads_back_iff ordered fun c hc => storable _ (alignValues_values aligned c hc)
  refine ⟨entry, ordered, key, found, aligned, rfl, iff, ?_⟩
  intro faithful reader names scan there scanned
  obtain ⟨entry', found', rfl⟩ := planFullScan_ok scanned
  obtain rfl : entry = entry' := Except.ok.inj (found.symm.trans found')
  refine ⟨_, ?_, project_rendered (iff.mpr faithful) _⟩
  simp only [scanBuffered, accessRows, indexPks, matching, decodeRows, rowPasses]
  simpa using ⟨_, there, rfl⟩

/-- `numbersTable` with no rows. -/
def emptyNumbers : ExecutorContext :=
  ⟨[numbersTable], fun _ _ => none, ⟨fun _ => [], fun _ => none, by simp [KeysDetermine]⟩⟩

/-- A bar, an equals sign and a backslash at the end of the last column. -/
theorem insert_of_special_text_reads_back : ∃ effect ordered key,
    planInsert emptyNumbers (ascii "t") [] [.integer 1, .text (ascii "a|b=c\\")] = .ok effect ∧
      effect.writes = [(key, some (encodeRow ordered))] ∧
      rendered (decodeRow (encodeRow ordered)) =
        [(ascii "id", ascii "1"), (ascii "c", ascii "a|b=c\\")] := by
  have storable : ∀ v ∈ [Value.integer 1, .text (ascii "a|b=c\\")], Storable v := by
    intro v hv
    rcases mem_cons.mp hv with rfl | hv
    · exact (by decide : i64Min ≤ 1 ∧ 1 ≤ i64Max)
    · rw [mem_singleton.mp hv]
      simp only [Storable]
      decide
  have planned : planInsert emptyNumbers (ascii "t") []
      [.integer 1, .text (ascii "a|b=c\\")] = .ok _ := rfl
  obtain ⟨entry, ordered, key, found, aligned, writes, iff, -⟩ := insert_reads_back planned storable
  refine ⟨_, ordered, key, rfl, writes, ?_⟩
  cases found
  cases aligned
  rw [iff.mpr]
  · rfl
  · have bar : 124 ∈ ascii "a|b=c\\" := by decide
    have alien : numberByte 124 = false := by decide
    have spelled : KeepsSpelling (.text (ascii "a|b=c\\")) := by
      simp only [KeepsSpelling, parseI64_eq_none_of_alien alien bar,
        parseF64_eq_none_of_alien alien bar]
      simp
    exact ⟨by decide, by decide, trivial, by decide, by decide, spelled, trivial⟩

/-- A backslash at the end of a column takes the next column with it, and leading zeros of
a text are lost. -/
theorem insert_of_backslash_merges_columns :
    (∃ effect, planInsert emptyNumbers (ascii "t") [] [.text (ascii "a\\"), .integer 5] =
      .ok effect ∧
      effect.writes = [(ascii "t:a\\", some (ascii "id=a\\|c=5"))]) ∧
    rendered (decodeRow (ascii "id=a\\|c=5")) = [(ascii "id", ascii "a|c=5")] ∧
    (∃ effect, planInsert emptyNumbers (ascii "t") [] [.integer 1, .text (ascii "007")] =
      .ok effect ∧
      effect.writes = [(ascii "t:1", some (ascii "id=1|c=007"))]) ∧
    rendered (decodeRow (ascii "id=1|c=007")) =
      [(ascii "id", ascii "1"), (ascii "c", ascii "7")] := by
  refine ⟨⟨_, rfl, by decide⟩, ?_, ⟨_, rfl, by decide⟩, ?_⟩
  · decide +kernel
  · decide +kernel

end RoundTrip

end GalaxDb.Sql
