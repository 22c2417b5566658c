import GalaxDb.Wire.ParamCodec

/-!
# One replacement after another

What the placeholders of a query text are, and when the replacements one after another put the
literals there and nowhere else. Each replacement also finds its placeholder where the text has
the same characters otherwise: in a string, in front of further digits, in a literal that is there
already, or where a literal continues the digits before it.
-/

namespace GalaxDb.Wire.ParamCodec

open Replacing
open Server (Text)

section Placeholders

/-- A character of the query that stays, or a placeholder. -/
inductive Piece where
  | char (c : Char)
  | param (i : Nat)
  deriving DecidableEq

/-- The parameter that digits name, if it is one of `n`. -/
def indexOf (n : Nat) (digits : Text) : Option Nat :=
  let i := Nat.ofDigitChars 10 digits 0
  if 1 ≤ i ∧ i ≤ n ∧ Nat.toDigits 10 i = digits then some i else none

/-- The placeholders are outside of strings and quoted identifiers; the quote that a character is
inside of is kept, and a number of characters to pass over. -/
def pieces (n : Nat) : Option Char → Nat → Text → List Piece
  | _, _, [] => []
  | inside, skip + 1, _ :: s => pieces n inside skip s
  | some q, 0, c :: s => .char c :: pieces n (if c = q then none else some q) 0 s
  | none, 0, c :: s =>
    if c = '\'' ∨ c = '"' then .char c :: pieces n (some c) 0 s
    else if c = '$' then
      match indexOf n (s.takeWhile Char.isDigit) with
      | some i => .param i :: pieces n none (s.takeWhile Char.isDigit).length s
      | none => .char c :: pieces n none 0 s
    else .char c :: pieces n none 0 s

def piecesOf (literals : List Text) (query : Text) : List Piece :=
  pieces literals.length none 0 query

def literalOf (literals : List Text) (i : Nat) : Text := literals.getD (i - 1) []

/-- All placeholders are replaced at once. -/
def simultaneous (literals : List Text) (query : Text) : Text :=
  (piecesOf literals query).flatMap fun
    | .char c => [c]
    | .param i => literalOf literals i

variable {n : Nat} {l : List Piece} {k m : Nat}

theorem indexOf_eq_some {digits : Text} {i : Nat} (found : indexOf n digits = some i) :
    1 ≤ i ∧ i ≤ n ∧ Nat.toDigits 10 i = digits := by
  simp only [indexOf] at found
  split_ifs at found with named
  cases found
  exact named

theorem mem_pieces {inside : Option Char} {skip : Nat} {s : Text}
    (mem : .param m ∈ pieces n inside skip s) : 1 ≤ m ∧ m ≤ n := by
  induction s generalizing inside skip with
  | nil => simp [pieces] at mem
  | cons c s ih =>
    cases skip with
    | succ skip => exact ih (by simpa [pieces] using mem)
    | zero =>
      cases inside with
      | some q => exact ih (by simpa [pieces] using mem)
      | none =>
        rw [pieces] at mem
        split at mem
        · exact ih (by simpa using mem)
        · split at mem
          · split at mem
            · rename_i i found
              rcases List.mem_cons.mp mem with same | mem
              · cases same
                obtain ⟨low, high, -⟩ := indexOf_eq_some found
                exact ⟨low, high⟩
              · exact ih mem
            · exact ih (by simpa using mem)
          · exact ih (by simpa using mem)

end Placeholders

section Stages

/-- The text after the replacements of the indices above `k`. -/
def render (literals : List Text) (k : Nat) (l : List Piece) : Text :=
  l.flatMap fun
    | .char c => [c]
    | .param m => if k < m then literalOf literals m else placeholder m

/-- `$k` is found in a text where there is no placeholder for `k`: at another dollar sign, at a
smaller placeholder whose digits are continued, or in the literal of a greater one. -/
def Clash (literals : List Text) (k : Nat) : List Piece → Text → Prop
  | [], _ => False
  | .char c :: rest, after =>
    (c = '$' ∧ Nat.toDigits 10 k <+: render literals k rest ++ after) ∨ Clash literals k rest after
  | .param m :: rest, after =>
    (m < k ∧ Nat.toDigits 10 k <+: Nat.toDigits 10 m ++ (render literals k rest ++ after)) ∨
      (k < m ∧ placeholder k <:+: literalOf literals m) ∨ Clash literals k rest after

/-- No replacement finds more than its placeholders. -/
def Clean (literals : List Text) (query : Text) : Prop :=
  ∀ k, 1 ≤ k → k ≤ literals.length → ¬ Clash literals k (piecesOf literals query) []

/-- Behind a placeholder the text ends, or goes on with neither a digit nor a dollar sign. -/
def Spaced (l : List Piece) : Prop :=
  ∀ a m b, l = a ++ .param m :: b →
    b = [] ∨ ∃ c rest, b = .char c :: rest ∧ c.isDigit = false ∧ c ≠ '$'

variable {literals : List Text} {n k m j : Nat} {l l1 l2 : List Piece} {c : Char}
  {after part : Text}

theorem render_append :
    render literals k (l1 ++ l2) = render literals k l1 ++ render literals k l2 :=
  List.flatMap_append

theorem render_char : render literals k (.char c :: l) = c :: render literals k l := rfl

theorem render_param_le (small : m ≤ k) :
    render literals k (.param m :: l) = placeholder m ++ render literals k l := by
  rw [render, List.flatMap_cons]
  simp only [Nat.not_lt.mpr small, if_false]
  rfl

theorem render_param_lt (great : k < m) :
    render literals k (.param m :: l) = literalOf literals m ++ render literals k l := by
  rw [render, List.flatMap_cons]
  simp only [great, if_true]
  rfl

/-- Before the first replacement the text is the query. -/
theorem render_pieces (inside : Option Char) (skip : Nat) (s : Text) :
    render literals literals.length (pieces literals.length inside skip s) = s.drop skip := by
  induction s generalizing inside skip with
  | nil => simp [pieces, render]
  | cons c s ih =>
    cases skip with
    | succ skip => simpa [pieces] using ih inside skip
    | zero =>
      cases inside with
      | some q => simp only [pieces, render_char, ih, List.drop_zero]
      | none =>
        rw [pieces]
        split
        · simp only [render_char, ih, List.drop_zero]
        · split
          · rename_i dollar
            split
            · rename_i i found
              obtain ⟨-, inRange, digits⟩ := indexOf_eq_some found
              rw [render_param_le inRange, ih, placeholder, digits, dollar, List.cons_append,
                List.drop_zero]
              have cut := @List.takeWhile_append_dropWhile _ Char.isDigit s
              have rest : s.drop (s.takeWhile Char.isDigit).length = s.dropWhile Char.isDigit :=
                calc s.drop (s.takeWhile Char.isDigit).length
                    = (s.takeWhile Char.isDigit ++ s.dropWhile Char.isDigit).drop
                        (s.takeWhile Char.isDigit).length := by rw [cut]
                  _ = s.dropWhile Char.isDigit := List.drop_left
              rw [rest, cut]
            · simp only [render_char, ih, List.drop_zero]
          · simp only [render_char, ih, List.drop_zero]

theorem simultaneous_eq (query : Text) :
    simultaneous literals query = render literals 0 (piecesOf literals query) := by
  refine List.flatMap_congr fun p mem => ?_
  cases p with
  | char c => rfl
  | param m => exact (if_pos (mem_pieces mem).1).symm

/-- A quoted text, or one without a dollar sign, is passed over unless the placeholder is in it. -/
theorem replace_tame {lit new : Text} (tame : lit = [] ∨ Closed lit)
    (absent : ¬ placeholder k <:+: lit) (s : Text) :
    replace (placeholder k) new (lit ++ s) = lit ++ replace (placeholder k) new s := by
  rcases tame with rfl | ⟨content, rfl⟩ | ⟨-, plain⟩
  · rfl
  · have quote : '\'' ∉ placeholder k := by
      simp only [placeholder, List.mem_cons, not_or]
      refine ⟨by decide, fun mem => ?_⟩
      have digit := Nat.isDigit_of_mem_toDigits (by decide) (by decide) mem
      revert digit
      decide
    have inner : ¬ placeholder k <:+: '\'' :: content := fun inside =>
      absent (inside.trans (List.prefix_append ('\'' :: content) ['\'']).isInfix)
    have passed := @replace_append_of_separated _ _ _ new s _ _ quote inner
    simpa using passed
  · exact replace_append_of_notMem plain

theorem dollar_notMem_digits (m : Nat) : '$' ∉ Nat.toDigits 10 m := fun mem => by
  have digit := Nat.isDigit_of_mem_toDigits (by decide) (by decide) mem
  revert digit
  decide

variable {t : Text}

/-- Digits that continue to a greater number go on behind the smaller one. -/
theorem continued (small : m < k) (front : Nat.toDigits 10 k <+: Nat.toDigits 10 m ++ t) :
    ∃ c r, t = c :: r ∧ c.isDigit = true := by
  rcases List.prefix_or_prefix_of_prefix front (List.prefix_append _ t) with short | long
  · obtain ⟨r, eq⟩ := short
    have value := congrArg (fun s => Nat.ofDigitChars 10 s 0) eq
    rw [Nat.ofDigitChars_append, Nat.ofDigitChars_ten_toDigits, Nat.ofDigitChars_ten_toDigits,
      Nat.ofDigitChars_eq_ofDigitChars_zero] at value
    have grows := Nat.le_mul_of_pos_left k (Nat.pow_pos (n := r.length) (show 0 < 10 by decide))
    omega
  · obtain ⟨d, eq⟩ := long
    cases d with
    | nil =>
      rw [List.append_nil] at eq
      have value := congrArg (fun s => Nat.ofDigitChars 10 s 0) eq
      simp only [Nat.ofDigitChars_ten_toDigits] at value
      omega
    | cons c d =>
      obtain ⟨r, rest⟩ := front
      rw [← eq, List.append_assoc, List.append_cancel_left_eq] at rest
      refine ⟨c, d ++ r, rest.symm, ?_⟩
      have mem : c ∈ Nat.toDigits 10 k := by
        rw [← eq]
        simp
      exact Nat.isDigit_of_mem_toDigits (by decide) (by decide) mem

variable (tame : ∀ m, literalOf literals m = [] ∨ Closed (literalOf literals m))
include tame

/-- Without a clash a replacement changes its placeholders alone. -/
theorem replace_render (clear : ¬ Clash literals (j + 1) l after) :
    replace (placeholder (j + 1)) (literalOf literals (j + 1))
      (render literals (j + 1) l ++ after) =
      render literals j l ++ replace (placeholder (j + 1)) (literalOf literals (j + 1)) after := by
  induction l with
  | nil => rfl
  | cons p l ih =>
    cases p with
    | char c =>
      simp only [Clash, not_or] at clear
      rw [render_char, render_char, List.cons_append, List.cons_append, ← ih clear.2]
      refine replace_cons fun front => clear.1 ?_
      obtain ⟨same, rest⟩ := List.cons_prefix_cons.mp front
      exact ⟨same.symm, rest⟩
    | param m =>
      simp only [Clash, not_or] at clear
      obtain ⟨apart, outside, clear⟩ := clear
      rcases Nat.lt_trichotomy m (j + 1) with small | rfl | great
      · have front : ¬ placeholder (j + 1) <+:
            '$' :: (Nat.toDigits 10 m ++ (render literals (j + 1) l ++ after)) := fun front =>
          apart ⟨small, (List.cons_prefix_cons.mp front).2⟩
        rw [render_param_le (Nat.le_of_lt small), render_param_le (Nat.le_of_lt_succ small),
          List.append_assoc, List.append_assoc, ← ih clear]
        simp only [placeholder, List.cons_append] at front ⊢
        rw [replace_cons front, replace_append_of_notMem (dollar_notMem_digits m)]
      · rw [render_param_le le_rfl, render_param_lt (Nat.lt_succ_self j), List.append_assoc,
          List.append_assoc, ← ih clear]
        exact replace_here
      · rw [render_param_lt great, render_param_lt (Nat.lt_of_succ_lt great), List.append_assoc,
          List.append_assoc, ← ih clear]
        exact replace_tame (tame m) (fun inside => outside ⟨great, inside⟩) _

omit tame

/-- A dollar sign of the result, at a piece and behind a part of its text. -/
def Shows (literals : List Text) (p : Piece) (part : Text) : Prop :=
  (p = .char '$' ∧ part = []) ∨ ∃ m rest, p = .param m ∧ literalOf literals m = part ++ '$' :: rest

/-- No placeholder is continued by a digit. -/
def Apart (literals : List Text) (k : Nat) (l : List Piece) (after : Text) : Prop :=
  ∀ a m b, l = a ++ .param m :: b → ∀ c t, render literals k b ++ after = c :: t → c.isDigit = false

theorem Apart.tail {p : Piece} (apart : Apart literals k (p :: l) after) :
    Apart literals k l after := by
  rintro a m b rfl
  exact apart (p :: a) m b rfl

/-- No placeholder of the pieces in front stands right before the others. -/
theorem Spaced.apart (spaced : Spaced (l1 ++ l2))
    (ends : (l2 = [] ∧ after = []) ∨ ∃ p b, l2 = p :: b ∧ Shows literals p part) :
    Apart literals k l1 after := by
  rintro a m b rfl c t eq
  rcases spaced a m (b ++ l2) (by simp) with none | ⟨d, rest, next, digit, dollar⟩
  · obtain ⟨rfl, rfl⟩ := List.append_eq_nil_iff.mp none
    rcases ends with ⟨-, rfl⟩ | ⟨p, b, eq', -⟩
    · cases eq
    · cases eq'
  · cases b with
    | cons p b =>
      obtain ⟨rfl, -⟩ := List.cons.inj next
      obtain ⟨rfl, -⟩ := List.cons.inj eq
      exact digit
    | nil =>
      rcases ends with ⟨rfl, -⟩ | ⟨p, b, rfl, shows⟩
      · cases next
      · obtain ⟨rfl, -⟩ := List.cons.inj next
        rcases shows with ⟨same, -⟩ | ⟨m, r, same, -⟩
        · exact absurd (Piece.char.inj same) dollar
        · cases same

include tame

/-- At a clash a replacement puts its literal where the result has a dollar sign. -/
theorem replace_clash (apart : Apart literals (j + 1) l after)
    (clash : Clash literals (j + 1) l after) :
    ∃ l1 p l2 part r, l = l1 ++ p :: l2 ∧ Shows literals p part ∧
      replace (placeholder (j + 1)) (literalOf literals (j + 1))
        (render literals (j + 1) l ++ after) =
          render literals j l1 ++ (part ++ (literalOf literals (j + 1) ++ r)) := by
  induction l with
  | nil => cases clash
  | cons p l ih =>
    have later {t : Text} (passed : replace (placeholder (j + 1)) (literalOf literals (j + 1))
          (render literals (j + 1) (p :: l) ++ after) = t ++
            replace (placeholder (j + 1)) (literalOf literals (j + 1))
              (render literals (j + 1) l ++ after))
        (rendered : ∀ l1, render literals j (p :: l1) = t ++ render literals j l1)
        (rest : Clash literals (j + 1) l after) :
        ∃ l1 q l2 part r, p :: l = l1 ++ q :: l2 ∧ Shows literals q part ∧
          replace (placeholder (j + 1)) (literalOf literals (j + 1))
            (render literals (j + 1) (p :: l) ++ after) =
              render literals j l1 ++ (part ++ (literalOf literals (j + 1) ++ r)) := by
      obtain ⟨l1, q, l2, part, r, rfl, shows, replaced⟩ := ih apart.tail rest
      refine ⟨p :: l1, q, l2, part, r, rfl, shows, ?_⟩
      rw [passed, replaced, rendered, List.append_assoc]
    cases p with
    | char c =>
      by_cases front : placeholder (j + 1) <+: c :: (render literals (j + 1) l ++ after)
      · obtain ⟨rfl, r, eq⟩ := List.cons_prefix_cons.mp front
        refine ⟨[], .char '$', l, [], replace (placeholder (j + 1)) (literalOf literals (j + 1)) r,
          rfl, .inl ⟨rfl, rfl⟩, ?_⟩
        rw [render_char, List.cons_append, ← eq]
        exact replace_here
      · refine later (t := [c]) ?_ (fun l1 => rfl) (clash.resolve_left fun here => front ?_)
        · rw [render_char, List.cons_append, replace_cons front]
          rfl
        · exact List.cons_prefix_cons.mpr ⟨here.1.symm, here.2⟩
    | param m =>
      rcases Nat.lt_trichotomy m (j + 1) with small | rfl | great
      · have stops : ¬ Nat.toDigits 10 (j + 1) <+:
            Nat.toDigits 10 m ++ (render literals (j + 1) l ++ after) := fun front => by
          obtain ⟨c, t, eq, digit⟩ := continued small front
          rw [apart [] m l rfl c t eq] at digit
          cases digit
        have rest : Clash literals (j + 1) l after := by
          rcases clash with here | inside | rest
          · exact absurd here.2 stops
          · exact absurd inside.1 (Nat.not_lt_of_lt small)
          · exact rest
        refine later (t := placeholder m) ?_
          (fun l1 => render_param_le (Nat.le_of_lt_succ small)) rest
        have front : ¬ placeholder (j + 1) <+:
            '$' :: (Nat.toDigits 10 m ++ (render literals (j + 1) l ++ after)) := fun front =>
          stops (List.cons_prefix_cons.mp front).2
        rw [render_param_le (Nat.le_of_lt small), List.append_assoc]
        simp only [placeholder, List.cons_append] at front ⊢
        rw [replace_cons front, replace_append_of_notMem (dollar_notMem_digits m)]
      · have rest : Clash literals (j + 1) l after := by
          rcases clash with here | inside | rest
          · exact absurd here.1 (lt_irrefl _)
          · exact absurd inside.1 (lt_irrefl _)
          · exact rest
        refine later (t := literalOf literals (j + 1)) ?_
          (fun l1 => render_param_lt (Nat.lt_succ_self j)) rest
        rw [render_param_le le_rfl, List.append_assoc]
        exact replace_here
      · by_cases inside : placeholder (j + 1) <:+: literalOf literals m
        · obtain ⟨a1, a2, whole, replaced⟩ :=
            @replace_first _ _ _ (literalOf literals (j + 1)) _ _ inside
          obtain ⟨r, eq⟩ := replaced (render literals (j + 1) l ++ after)
          refine ⟨[], .param m, l, a1, r, rfl, .inr ⟨m, a2, rfl, whole⟩, ?_⟩
          rw [render_param_lt great, List.append_assoc]
          exact eq.trans (List.append_assoc a1 _ r)
        · have rest : Clash literals (j + 1) l after := by
            rcases clash with here | within | rest
            · exact absurd here.1 (Nat.not_lt_of_lt great)
            · exact absurd within.2 inside
            · exact rest
          refine later (t := literalOf literals m) ?_
            (fun l1 => render_param_lt (Nat.lt_of_succ_lt great)) rest
          rw [render_param_lt great, List.append_assoc]
          exact replace_tame (tame m) inside _

omit tame

/-- The text went wrong at a place where the result has a dollar sign. -/
def Bad (literals : List Text) (k : Nat) (l : List Piece) (t : Text) : Prop :=
  ∃ l1 p l2 part c r, l = l1 ++ p :: l2 ∧ Shows literals p part ∧ c ≠ '$' ∧
    t = render literals k l1 ++ (part ++ c :: r)

theorem Bad.of_literal {p : Piece} {r : Text}
    (head : ∃ c s, literalOf literals (j + 1) = c :: s ∧ c ≠ '$') (shows : Shows literals p part)
    (eq : t = render literals j l1 ++ (part ++ (literalOf literals (j + 1) ++ r))) :
    Bad literals j (l1 ++ p :: l2) t := by
  obtain ⟨c, s, literal, other⟩ := head
  rw [literal] at eq
  exact ⟨l1, p, l2, part, c, s ++ r, rfl, shows, other, eq⟩

include tame

theorem Bad.step {t : Text} (bad : Bad literals (j + 1) l t) (spaced : Spaced l)
    (head : ∃ c s, literalOf literals (j + 1) = c :: s ∧ c ≠ '$') :
    Bad literals j l (replace (placeholder (j + 1)) (literalOf literals (j + 1)) t) := by
  obtain ⟨l1, p, l2, part, c, r, rfl, shows, other, rfl⟩ := bad
  by_cases clash : Clash literals (j + 1) l1 (part ++ c :: r)
  · have apart : Apart literals (j + 1) l1 (part ++ c :: r) :=
      spaced.apart (.inr ⟨p, l2, rfl, shows⟩)
    obtain ⟨l1', q, l2', part', r', rfl, shows', replaced⟩ := replace_clash tame apart clash
    rw [List.append_assoc, List.cons_append]
    exact Bad.of_literal head shows' replaced
  · rw [replace_render tame clash]
    rcases @replace_up_to _ _ (Nat.toDigits 10 (j + 1)) (literalOf literals (j + 1)) '$' c other
      part r with ⟨a1, a2, r', rfl, eq⟩ | ⟨r', eq⟩
    · have earlier : Shows literals p a1 := by
        rcases shows with ⟨-, none⟩ | ⟨m, rest, rfl, whole⟩
        · simp at none
        · exact .inr ⟨m, a2 ++ '$' :: rest, rfl, by rw [whole]; simp⟩
      exact Bad.of_literal head earlier (by rw [placeholder, eq, List.append_assoc])
    · exact ⟨l1, p, l2, part, c, r', rfl, shows, other, by rw [placeholder, eq]⟩

omit tame

theorem Bad.ne (bad : Bad literals 0 l t) (positive : ∀ m, .param m ∈ l → 1 ≤ m) :
    t ≠ render literals 0 l := by
  obtain ⟨l1, p, l2, part, c, r, rfl, shows, other, rfl⟩ := bad
  rw [render_append, ne_eq, List.append_cancel_left_eq]
  rcases shows with ⟨rfl, rfl⟩ | ⟨m, rest, rfl, whole⟩
  · exact fun same => other (List.cons.inj same).1
  · rw [render_param_lt (positive m (by simp)), whole, List.append_assoc,
      List.append_cancel_left_eq]
    exact fun same => other (List.cons.inj same).1

end Stages

section Runs

/-- The replacements for the indices from `k` down. -/
def run (literals : List Text) (k : Nat) (t : Text) : Text :=
  (List.range' 1 k).reverse.foldl
    (fun out i => replace (placeholder i) (literalOf literals i) out) t

variable {literals : List Text} {l : List Piece} {k : Nat} {t : Text}

theorem run_succ (k : Nat) (t : Text) : run literals (k + 1) t =
    run literals k (replace (placeholder (k + 1)) (literalOf literals (k + 1)) t) := by
  rw [run, List.range'_1_concat, List.reverse_append, Nat.add_comm 1 k]
  rfl

variable (tame : ∀ m, literalOf literals m = [] ∨ Closed (literalOf literals m))
include tame

theorem run_clear (clear : ∀ i, 1 ≤ i → i ≤ k → ¬ Clash literals i l []) :
    run literals k (render literals k l) = render literals 0 l := by
  induction k with
  | zero => rfl
  | succ k ih =>
    have first := replace_render tame (clear (k + 1) (Nat.le_add_left 1 k) le_rfl)
    rw [replace_nil, List.append_nil, List.append_nil] at first
    rw [run_succ, first]
    exact ih fun i low high => clear i low (Nat.le_succ_of_le high)

variable (heads : ∀ i, 1 ≤ i → i ≤ literals.length → ∃ c s, literalOf literals i = c :: s ∧ c ≠ '$')
  (spaced : Spaced l) (positive : ∀ m, .param m ∈ l → 1 ≤ m)
include heads spaced positive

theorem run_bad (inRange : k ≤ literals.length) (bad : Bad literals k l t) :
    run literals k t ≠ render literals 0 l := by
  induction k generalizing t with
  | zero => exact bad.ne positive
  | succ k ih =>
    rw [run_succ]
    exact ih (Nat.le_of_succ_le inRange)
      (bad.step tame spaced (heads (k + 1) (Nat.le_add_left 1 k) inRange))

theorem run_clash (inRange : k ≤ literals.length)
    (clash : ∃ i, 1 ≤ i ∧ i ≤ k ∧ Clash literals i l []) :
    run literals k (render literals k l) ≠ render literals 0 l := by
  induction k with
  | zero =>
    omega
  | succ k ih =>
    rw [run_succ]
    by_cases first : Clash literals (k + 1) l []
    · have apart : Apart literals (k + 1) l [] := by
        rw [← List.append_nil l] at spaced
        have ends : (([] : List Piece) = [] ∧ ([] : Text) = []) ∨
            ∃ p b, [] = p :: b ∧ Shows literals p [] := .inl ⟨rfl, rfl⟩
        exact spaced.apart ends
      obtain ⟨l1, p, l2, part, r, rfl, shows, replaced⟩ := replace_clash tame apart first
      rw [List.append_nil] at replaced
      have head := heads (k + 1) (Nat.le_add_left 1 k) inRange
      exact run_bad tame heads spaced positive (Nat.le_of_succ_le inRange)
        (Bad.of_literal head shows replaced)
    · have passed := replace_render tame first
      rw [replace_nil, List.append_nil, List.append_nil] at passed
      rw [passed]
      refine ih (Nat.le_of_succ_le inRange) ?_
      obtain ⟨i, low, high, clash⟩ := clash
      refine ⟨i, low, Nat.le_of_lt_succ (Nat.lt_of_le_of_ne high fun same => first ?_), clash⟩
      rw [same] at clash
      exact clash

end Runs

section Exactness

/-- A parameter: its bytes, its format and its type. -/
abbrev Param := Option Bytes × Int × Int

def Param.literal (p : Param) : Except Text Text := paramToSqlLiteral p.1 p.2.1 p.2.2

variable {query : Text} {params : List Param} {literals : List Text}

theorem closed_of_rendered (rendered : params.mapM Param.literal = .ok literals) :
    ∀ l ∈ literals, Closed l := by
  induction params generalizing literals with
  | nil =>
    cases rendered
    simp
  | cons p params ih =>
    rw [List.mapM_cons] at rendered
    cases first : Param.literal p with
    | error e =>
      rw [first] at rendered
      cases rendered
    | ok l =>
      cases rest : params.mapM Param.literal with
      | error e =>
        rw [first, rest] at rendered
        cases rendered
      | ok ls =>
        rw [first, rest] at rendered
        cases rendered
        exact List.forall_mem_cons.mpr ⟨paramToSqlLiteral_closed first, ih rest⟩

/-- The texts are replaced at once if no replacement finds more than its placeholders, and only
then where no placeholder is followed by a dollar sign. -/
theorem substitution_exact (rendered : params.mapM Param.literal = .ok literals) :
    (Clean literals query → substituteParameters query literals = simultaneous literals query) ∧
      (Spaced (piecesOf literals query) →
        substituteParameters query literals = simultaneous literals query →
          Clean literals query) := by
  have closed := closed_of_rendered rendered
  have member {i : Nat} (inside : i - 1 < literals.length) : literalOf literals i ∈ literals := by
    rw [literalOf, List.getD_eq_getElem?_getD, List.getElem?_eq_getElem inside]
    exact List.getElem_mem inside
  have tame (m : Nat) : literalOf literals m = [] ∨ Closed (literalOf literals m) := by
    by_cases inside : m - 1 < literals.length
    · exact .inr (closed _ (member inside))
    · rw [literalOf, List.getD_eq_getElem?_getD, List.getElem?_eq_none (Nat.le_of_not_lt inside)]
      exact .inl rfl
  have heads (i : Nat) (low : 1 ≤ i) (high : i ≤ literals.length) :
      ∃ c s, literalOf literals i = c :: s ∧ c ≠ '$' := by
    rcases closed _ (member (show i - 1 < literals.length by omega)) with
      ⟨content, quoted⟩ | ⟨proper, plain⟩
    · exact ⟨'\'', content ++ ['\''], quoted, by decide⟩
    · obtain ⟨c, s, eq⟩ := List.exists_cons_of_ne_nil proper
      exact ⟨c, s, eq, fun dollar => plain (by rw [eq, dollar]; exact List.mem_cons_self)⟩
  have start : substituteParameters query literals =
      run literals literals.length (render literals literals.length (piecesOf literals query)) := by
    rw [piecesOf, render_pieces, List.drop_zero]
    rfl
  rw [start, simultaneous_eq]
  constructor
  · intro clean
    exact run_clear tame clean
  · intro spaced same k low high clash
    exact run_clash tame heads spaced (fun m mem => (mem_pieces mem).1) le_rfl
      ⟨k, low, high, clash⟩ same

theorem fromUtf8_utf8 (t : Text) : fromUtf8 (Server.utf8 t) = some t := by
  have decoded : (Server.utf8 t).toByteArray.utf8Decode? = some t.toArray :=
    List.utf8Decode?_utf8Encode
  rw [fromUtf8, decoded]
  simp

/-- A text parameter is its quoted text. -/
theorem literal_text (t : Text) :
    Param.literal (some (Server.utf8 t), 0, Server.Oid.text) = .ok (quoteString t) := by
  simp only [Param.literal, paramToSqlLiteral, renderText, fromUtf8_utf8]
  rfl

/-- A value is put in between the quotes of another one. -/
theorem value_leaves_its_quotes :
    let params : List Param := [(some (Server.utf8 " OR 1=1 --".toList), 0, Server.Oid.text),
      (some (Server.utf8 "$1".toList), 0, Server.Oid.text)]
    let literals := ["' OR 1=1 --'".toList, "'$1'".toList]
    params.mapM Param.literal = .ok literals ∧
      substituteParameters "a = $1 AND b = $2".toList literals =
        "a = ' OR 1=1 --' AND b = '' OR 1=1 --''".toList ∧
      simultaneous literals "a = $1 AND b = $2".toList =
        "a = ' OR 1=1 --' AND b = '$1'".toList := by
  refine ⟨?_, by decide +kernel, by decide +kernel⟩
  rfl

/-- One parameter in a query without other dollar signs. -/
theorem one_parameter_in_place :
    [((some (Server.utf8 "it's".toList), 0, Server.Oid.text) : Param)].mapM Param.literal =
        .ok ["'it''s'".toList] ∧
      substituteParameters "a = $1".toList ["'it''s'".toList] =
        simultaneous ["'it''s'".toList] "a = $1".toList := by
  have rendered : [((some (Server.utf8 "it's".toList), 0, Server.Oid.text) : Param)].mapM
      Param.literal = .ok ["'it''s'".toList] := by
    rfl
  refine ⟨rendered, (substitution_exact rendered).1 fun k low high clash => ?_⟩
  obtain rfl : k = 1 := Nat.le_antisymm high low
  have split : piecesOf ["'it''s'".toList] "a = $1".toList =
      [.char 'a', .char ' ', .char '=', .char ' ', .param 1] := by decide +kernel
  rw [split] at clash
  simp [Clash] at clash

end Exactness

end GalaxDb.Wire.ParamCodec
