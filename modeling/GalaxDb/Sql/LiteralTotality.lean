import GalaxDb.Sql.DateTexts

/-!
# Literals that panic

Reading a literal panics only where a pair of hexadecimal digits or a fraction is cut inside of
a character, and, in a debug build, where the arithmetic of dates and times overflows.
-/

namespace GalaxDb.Sql.Types

open Decoded Utf8 Calendar List
open Server (Text eqIgnoreAsciiCase)

section Pairs

variable {s : Text}

/-- Behind pairs of digits, a pair of bytes ends inside of a character. -/
def CutPair (s : Text) : Prop :=
  ∃ pairs : List Text, (∀ p ∈ pairs, fromStrRadix16 p ≠ none) ∧
    ∃ c rest, s = pairs.flatten ++ c :: rest ∧
      (2 < c.utf8Size ∨ c.utf8Size = 1 ∧ ∃ d rest', rest = d :: rest' ∧ 1 < d.utf8Size)

/-- All pairs are digits. -/
def PairsRead (s : Text) : Prop :=
  ∃ pairs : List Text, (∀ p ∈ pairs, fromStrRadix16 p ≠ none) ∧ s = pairs.flatten

variable {a b : Char} {t : Text} {n : Nat}

theorem hexValue_narrow {c : Char} (digit : hexValue c = some n) : c.utf8Size = 1 := by
  have high : c ≤ 'f' ∨ c ≤ 'F' ∨ c ≤ '9' := by
    unfold hexValue at digit
    split_ifs at digit with decimal lower upper
    · exact .inr (.inr decimal.2)
    · exact .inl lower.2
    · exact .inr (.inl upper.2)
  refine utf8Size_of_narrow ?_
  have bound : ∀ d : Char, c ≤ d → c.toNat ≤ d.toNat := fun d le => UInt32.le_iff_toNat_le.mp le
  rcases high with le | le | le
  · exact (bound _ le).trans_lt (by decide)
  · exact (bound _ le).trans_lt (by decide)
  · exact (bound _ le).trans_lt (by decide)

theorem pair_of_fromStrRadix16 {p : Text} (read : fromStrRadix16 p ≠ none) :
    ∃ a b, p = [a, b] ∧ a.utf8Size = 1 ∧ b.utf8Size = 1 := by
  match p, read with
  | [a, b], read =>
    refine ⟨a, b, rfl, ?_⟩
    simp only [fromStrRadix16] at read
    split_ifs at read with plus
    · obtain ⟨n, digit⟩ :=
        Option.ne_none_iff_exists'.mp (mt (congrArg (Option.map Nat.toUInt8)) read)
      exact ⟨by rw [plus]; rfl, hexValue_narrow digit⟩
    · cases high : hexValue a with
      | none => simp [high] at read
      | some n =>
        cases low : hexValue b with
        | none => simp [low] at read
        | some k => exact ⟨hexValue_narrow high, hexValue_narrow low⟩
  | [], read => exact absurd rfl read
  | [_], read => exact absurd rfl read
  | _ :: _ :: _ :: _, read => exact absurd rfl read

/-- The first pair of a text that begins with pairs. -/
theorem cutPair_cons (narrow : a.utf8Size = 1 ∧ b.utf8Size = 1) :
    CutPair (a :: b :: t) ↔ fromStrRadix16 [a, b] ≠ none ∧ CutPair t := by
  constructor
  · rintro ⟨pairs, digits, c, rest, eq, wide⟩
    cases pairs with
    | nil =>
      obtain ⟨rfl, rfl⟩ := cons.inj eq
      rcases wide with wide | ⟨-, d, rest', same, wide⟩
      · omega
      · obtain ⟨rfl, -⟩ := cons.inj same
        omega
    | cons p pairs =>
      obtain ⟨a', b', rfl, -⟩ := pair_of_fromStrRadix16 (digits p mem_cons_self)
      obtain ⟨rfl, rfl, rfl⟩ := eq
      exact ⟨digits _ mem_cons_self, pairs, fun p member => digits p (mem_cons_of_mem _ member),
        c, rest, rfl, wide⟩
  · rintro ⟨digit, pairs, digits, c, rest, rfl, wide⟩
    refine ⟨[a, b] :: pairs, ?_, c, rest, rfl, wide⟩
    intro p member
    rcases mem_cons.mp member with rfl | later
    · exact digit
    · exact digits p later

theorem pairsRead_cons : PairsRead (a :: b :: t) ↔ fromStrRadix16 [a, b] ≠ none ∧ PairsRead t := by
  constructor
  · rintro ⟨pairs, digits, eq⟩
    cases pairs with
    | nil => cases eq
    | cons p pairs =>
      obtain ⟨a', b', rfl, -⟩ := pair_of_fromStrRadix16 (digits p mem_cons_self)
      obtain ⟨rfl, rfl, rfl⟩ := eq
      exact ⟨digits _ mem_cons_self, pairs, fun p member =>
        digits p (mem_cons_of_mem _ member), rfl⟩
  · rintro ⟨digit, pairs, digits, rfl⟩
    refine ⟨[a, b] :: pairs, ?_, rfl⟩
    intro p member
    rcases mem_cons.mp member with rfl | later
    · exact digit
    · exact digits p later

/-- Text that begins with pairs of digits begins with two bytes. -/
theorem narrow_of_pairs {pairs : List Text} {behind : Text}
    (digits : ∀ p ∈ pairs, fromStrRadix16 p ≠ none) (proper : pairs ≠ [])
    (eq : a :: t = pairs.flatten ++ behind) :
    a.utf8Size = 1 ∧ ∃ b u, t = b :: u ∧ b.utf8Size = 1 := by
  obtain ⟨p, pairs, rfl⟩ := exists_cons_of_ne_nil proper
  obtain ⟨a', b', rfl, first, second⟩ := pair_of_fromStrRadix16 (digits p mem_cons_self)
  obtain ⟨rfl, rfl⟩ := eq
  exact ⟨first, b', _, rfl, second⟩

theorem PairsRead.narrow (read : PairsRead (a :: t)) :
    a.utf8Size = 1 ∧ ∃ b u, t = b :: u ∧ b.utf8Size = 1 := by
  obtain ⟨pairs, digits, eq⟩ := read
  have whole : a :: t = pairs.flatten ++ [] := by rw [eq, append_nil]
  refine narrow_of_pairs digits ?_ whole
  rintro rfl
  cases eq

/-- The reader panics exactly at a pair that is cut. -/
theorem readPairs_spec (message : Text) (length : byteLen s = 2 * n) :
    ((readPairs message n s).Safe ↔ ¬ CutPair s) ∧
      ((∃ bytes, readPairs message n s = .ok bytes) ↔ PairsRead s) := by
  induction n generalizing s with
  | zero =>
    obtain rfl : s = [] := byteLen_eq_zero.mp length
    refine ⟨iff_of_true (safe_ok []) ?_, iff_of_true ⟨[], rfl⟩ ⟨[], by simp, rfl⟩⟩
    rintro ⟨pairs, -, c, rest, eq, -⟩
    simp at eq
  | succ n ih =>
    cases s with
    | nil =>
      simp only [byteLen_nil] at length
      omega
    | cons a t =>
      rw [byteLen_cons] at length
      have positive := a.utf8Size_pos
      by_cases single : a.utf8Size = 1
      · cases t with
        | nil =>
          simp only [byteLen_nil] at length
          omega
        | cons b u =>
          rw [byteLen_cons] at length
          by_cases second : b.utf8Size = 1
          · have cut : (slice (a :: b :: u) 2 : Decoded Text _) = .ok ([a, b], u) := by
              have parts := splitAtByte_append [a, b] u
              simp only [byteLen_cons, byteLen_nil, single, second] at parts
              rw [slice, show (2 : Nat) = 1 + (1 + 0) by rfl]
              exact parts ▸ rfl
            have rest := ih (s := u) (by omega)
            rw [cutPair_cons ⟨single, second⟩, pairsRead_cons, readPairs, cut, ok_bind]
            dsimp only
            cases read : fromStrRadix16 [a, b] with
            | none => simp
            | some byte =>
              simp only [orError_some, ok_bind, ne_eq, reduceCtorEq, not_false_eq_true, true_and]
              refine ⟨?_, ?_⟩
              · rw [safe_bind_iff, ← rest.1]
                exact and_iff_left fun bytes _ => safe_ok _
              · rw [← rest.2]
                cases readPairs message n u <;> simp
          · have wide : 1 < b.utf8Size := by
              have := b.utf8Size_pos
              omega
            have cut : splitAtByte (a :: b :: u) 2 = none := by
              rw [splitAtByte, if_pos (by omega), single]
              rw [splitAtByte, if_neg (by omega)]
              rfl
            have stops : CutPair (a :: b :: u) :=
              ⟨[], by simp, a, b :: u, rfl, .inr ⟨single, b, u, rfl, wide⟩⟩
            have unread : ¬ PairsRead (a :: b :: u) := fun read => by
              obtain ⟨-, b', u', same, narrow⟩ := read.narrow
              obtain ⟨rfl, -⟩ := cons.inj same
              exact second narrow
            rw [readPairs, slice, cut]
            simp [stops, unread]
      · have unread : ¬ PairsRead (a :: t) := fun read => single read.narrow.1
        by_cases double : a.utf8Size = 2
        · have cut : splitAtByte (a :: t) 2 = some ([a], t) := by
            have parts := splitAtByte_append [a] t
            simpa [double] using parts
          have whole : ¬ CutPair (a :: t) := by
            rintro ⟨pairs, digits, c, rest, eq, wide⟩
            by_cases empty : pairs = []
            · subst empty
              obtain ⟨rfl, rfl⟩ := cons.inj eq
              omega
            · exact single (narrow_of_pairs digits empty eq).1
          rw [readPairs, slice, cut, ok_bind]
          simp [whole, unread, fromStrRadix16]
        · have wide : 2 < a.utf8Size := by omega
          have cut : splitAtByte (a :: t) 2 = none := by
            rw [splitAtByte, if_neg (by omega)]
          have stops : CutPair (a :: t) := ⟨[], by simp, a, t, rfl, .inl wide⟩
          rw [readPairs, slice, cut]
          simp [stops, unread]

end Pairs

section Behaviour

variable {ε ε' α β : Type}

/-- In a debug build the run makes no fault exactly under a condition; under it no build does, and
they all give a value for the same inputs. -/
structure Behaves (run : Build → Decoded ε α) (fits reads : Prop) : Prop where
  debug : (run .debug).Safe → fits
  safe : fits → ∀ b, (run b).Safe
  reads : fits → ∀ b, (∃ a, run b = .ok a) ↔ reads

theorem Behaves.orError (e : ε) (a : Option α) :
    Behaves (fun _ => Decoded.orError e a) True (a.isSome = true) where
  debug _ := trivial
  safe _ _ := orError_safe e a
  reads _ _ := by simp [orError_eq_ok, Option.isSome_iff_exists]

theorem Behaves.ok (a : α) : Behaves (fun _ => (.ok a : Decoded ε α)) True True where
  debug _ := trivial
  safe _ _ := safe_ok a
  reads _ _ := by simp

theorem Behaves.error (e : ε) : Behaves (fun _ => (.error e : Decoded ε α)) True False where
  debug _ := trivial
  safe _ _ := safe_error e
  reads _ _ := by simp

variable {run : Build → Decoded ε α} {fits reads : Prop}

/-- The value of a read is wrapped, its error gets a position. -/
theorem Behaves.wrap (behaves : Behaves run fits reads) (f : ε → ε') (g : α → β) :
    Behaves (fun b => mapErr f (run b) >>= fun a => .ok (g a)) fits reads := by
  have same : ∀ b, (mapErr f (run b) >>= fun a => (.ok (g a) : Decoded ε' β)).Safe ↔ (run b).Safe :=
    fun b => by cases run b <;> simp [mapErr]
  refine ⟨fun safe => behaves.debug ((same _).mp safe), fun room b =>
    (same b).mpr (behaves.safe room b),
    fun room b => ?_⟩
  rw [← behaves.reads room b]
  cases run b <;> simp [mapErr]

theorem Behaves.congr {run' : Build → Decoded ε α} {fits' reads' : Prop} (behaves :
    Behaves run fits reads)
    (eq : ∀ b, run' b = run b) (room : fits' ↔ fits) (read : reads' ↔ reads) :
      Behaves run' fits' reads' := by
  obtain rfl : run' = run := funext eq
  obtain rfl := propext room
  obtain rfl := propext read
  exact behaves

/-- Of two reads in a row the second runs where the first gave a value. -/
theorem Behaves.seq {γ : Type} {run' : Build → Decoded ε β} {fits' reads' : Prop}
    (first : Behaves run fits reads) (second : Behaves run' fits' reads') (g : α → β → γ) :
    Behaves (fun b => do
      let a ← run b
      let c ← run' b
      return g a c) (fits ∧ (reads → fits')) (reads ∧ reads') := by
  refine ⟨fun safe => ?_, fun room b => ?_, fun room b => ?_⟩
  · obtain ⟨safe, later⟩ := safe_bind_iff.mp safe
    have room := first.debug safe
    refine ⟨room, fun read => ?_⟩
    obtain ⟨a, value⟩ := (first.reads room .debug).mpr read
    exact second.debug (safe_bind_iff.mp (later a value)).1
  · refine safe_bind_iff.mpr
      ⟨first.safe room.1 b, fun a value => safe_bind_iff.mpr ⟨?_, fun c _ => safe_ok _⟩⟩
    exact second.safe (room.2 ((first.reads room.1 b).mp ⟨a, value⟩)) b
  · rw [← first.reads room.1 b]
    constructor
    · rintro ⟨_, both⟩
      obtain ⟨a, value, both⟩ := bind_eq_ok.mp both
      obtain ⟨c, value', -⟩ := bind_eq_ok.mp both
      have read := (first.reads room.1 b).mp ⟨a, value⟩
      exact ⟨⟨a, value⟩, (second.reads (room.2 read) b).mp ⟨c, value'⟩⟩
    · rintro ⟨⟨a, value⟩, read'⟩
      have read := (first.reads room.1 b).mp ⟨a, value⟩
      obtain ⟨c, value'⟩ := (second.reads (room.2 read) b).mpr read'
      exact ⟨g a c, by rw [value, ok_bind, value', ok_bind]; rfl⟩

/-- Elements are read in order, up to the first that gives no value. -/
theorem Behaves.collect {run : Build → α → Decoded ε β} {fits reads : α → Prop}
    (behaves : ∀ a, Behaves (run · a) (fits a) (reads a)) (elements : List α) :
    Behaves (fun b => Types.collect (run b) elements)
      (∀ front e rest, elements = front ++ e :: rest → (∀ x ∈ front, reads x) → fits e)
      (∀ e ∈ elements, reads e) := by
  induction elements with
  | nil =>
    refine (Behaves.ok []).congr (fun _ => rfl) (iff_of_true ?_ trivial)
      (iff_of_true (by simp) trivial)
    intro front e rest eq
    simp at eq
  | cons a rest ih =>
    have split :
        (∀ front e tail, a :: rest = front ++ e :: tail → (∀ x ∈ front, reads x) → fits e) ↔
        fits a ∧ (reads a → ∀ front e tail, rest = front ++ e :: tail → (∀ x ∈ front, reads x) →
          fits e) := by
      constructor
      · intro all
        refine ⟨all [] a rest rfl (by simp), fun read front e tail eq before => ?_⟩
        exact all (a :: front) e tail (by rw [eq]; rfl) (by simpa [read] using before)
      · rintro ⟨first, later⟩ front e tail eq before
        cases front with
        | nil =>
          obtain ⟨rfl, -⟩ := cons.inj eq
          exact first
        | cons x front =>
          obtain ⟨rfl, behind⟩ := cons.inj eq
          exact later (before a mem_cons_self) front e tail behind
            fun y member => before y (mem_cons_of_mem a member)
    refine ((behaves a).seq ih List.cons).congr (fun _ => rfl) split ?_
    simp

end Behaviour

section Temporal

variable {s : Text}

def DateReads (s : Text) : Prop := ∃ y m d, dateFields s = some (y, m, d) ∧ Coarse m d

/-- The number of a date that the parser accepts fits. -/
def DateRoom (s : Text) :
    Prop := ∀ y m d, dateFields s = some (y, m, d) → Coarse m d → CivilFits y m d

theorem behaves_date (s : Text) :
    Behaves (fun b => parseDateToDays b s) (DateRoom s) (DateReads s) := by
  by_cases read : DateReads s
  · obtain ⟨y, m, d, fields, coarse⟩ := read
    have run : ∀ b, parseDateToDays b s = daysFromCivil b y m d :=
      fun b => parseDateToDays_of_fields b fields coarse
    have value : DateRoom s →
        ∀ b, parseDateToDays b s = .ok (dayNumber y m d - dayNumber 1970 1 1) :=
      fun room b => (run b).trans (daysFromCivil_eq b coarse.1 coarse.2 (room y m d fields coarse))
    refine ⟨fun safe => ?_, fun room b => value room b ▸ safe_ok _,
      fun room b => iff_of_true ⟨_, value room b⟩ ⟨y, m, d, fields, coarse⟩⟩
    simp only [run] at safe
    intro y' m' d' fields' _
    obtain ⟨rfl, rfl, rfl⟩ : y' = y ∧ m' = m ∧ d' = d := by simpa using fields'.symm.trans fields
    exact civilFits_of_safe coarse.1 safe
  · have refused := fun b => parseDateToDays_error b (s := s)
      fun y m d fields coarse => read ⟨y, m, d, fields, coarse⟩
    refine ⟨fun _ y m d fields coarse => absurd ⟨y, m, d, fields, coarse⟩ read, fun _ b => ?_,
      fun _ b => iff_of_false ?_ read⟩
    · obtain ⟨e, run⟩ := refused b
      exact run ▸ safe_error e
    · rintro ⟨n, value⟩
      obtain ⟨e, run⟩ := refused b
      cases run.symm.trans value

/-- Every operation on the way to the microseconds fits. -/
def SumsFit (days h mi se f : Int) : Prop :=
  InI64 (h * 60) ∧ InI64 (h * 60 + mi) ∧ InI64 ((h * 60 + mi) * 60) ∧
    InI64 ((h * 60 + mi) * 60 + se) ∧
    InI64 (((h * 60 + mi) * 60 + se) * 1000000) ∧ InI64 (((h * 60 + mi) * 60 + se) * 1000000 + f) ∧
    InI64 (days * microsPerDay) ∧
      InI64 (days * microsPerDay + (((h * 60 + mi) * 60 + se) * 1000000 + f))

def StampReads (s : Text) : Prop :=
  DateReads (datePart s) ∧ (timeFields (timePart s)).isSome = true ∧
    (fractionMicros (timePart s)).isSome = true

/-- The date of a timestamp fits, its fraction is not cut, and the sums fit. -/
def StampRoom (s : Text) : Prop :=
  ∀ y m d, dateFields (datePart s) = some (y, m, d) → Coarse m d → CivilFits y m d ∧
    ∀ h mi se, timeFields (timePart s) = some (h, mi, se) → ¬ FractionCut (timePart s) ∧
      ∀ f, fractionMicros (timePart s) = some f →
        SumsFit (dayNumber y m d - dayNumber 1970 1 1) h mi se f

/-- What follows the date. -/
theorem behaves_time (days : Int) (s : Text) : Behaves (fun b => do
      let micros ← parseTimeToMicros b s
      i64 b ((← i64 b (days * microsPerDay)) + micros))
    (∀ h mi se, timeFields s = some (h, mi, se) → ¬ FractionCut s ∧
      ∀ f, fractionMicros s = some f → SumsFit days h mi se f)
    ((timeFields s).isSome = true ∧ (fractionMicros s).isSome = true) := by
  cases times : timeFields s with
  | none =>
    have refused := fun b => parseTimeToMicros_error b times
    refine ⟨fun _ => by simp, fun _ b => ?_, fun _ b => iff_of_false ?_ (by simp)⟩
    · obtain ⟨e, run⟩ := refused b
      rw [run, error_bind]
      exact safe_error e
    · rintro ⟨n, value⟩
      obtain ⟨e, run⟩ := refused b
      rw [run, error_bind] at value
      cases value
  | some read =>
    obtain ⟨h, mi, se⟩ := read
    have run := fun b => parseTimeToMicros_of_fields b times
    simp only [run]
    by_cases cut : FractionCut s
    · simp only [if_pos cut, fault_bind]
      exact ⟨fun safe => absurd safe (not_safe_fault _), fun room =>
        absurd cut (room h mi se rfl).1,
        fun room => absurd cut (room h mi se rfl).1⟩
    simp only [if_neg cut]
    cases micros : fractionMicros s with
    | none =>
      refine (Behaves.error (quoting "invalid time fraction '" s "'")).congr (fun _ => rfl) ?_
        (by simp)
      exact iff_of_true (fun _ _ _ _ => ⟨cut, by simp⟩) trivial
    | some f =>
      have room_iff : (∀ h' mi' se', some (h, mi, se) = some (h', mi', se') → ¬ FractionCut s ∧
          ∀ f', some f = some f' → SumsFit days h' mi' se' f') ↔ SumsFit days h mi se f := by
        constructor
        · intro all
          exact (all h mi se rfl).2 f rfl
        · intro fits h' mi' se' same
          obtain ⟨rfl, rfl, rfl⟩ : h = h' ∧ mi = mi' ∧ se = se' := by simpa using same
          exact ⟨cut, fun f' same => Option.some.inj same ▸ fits⟩
      rw [room_iff]
      simp only [orError_some, ok_bind]
      refine ⟨fun safe => ?_, fun room b => ?_, fun room b => iff_of_true ?_ ⟨rfl, rfl⟩⟩
      · obtain ⟨summed, later⟩ := safe_bind_iff.mp safe
        have sums := later _ (timeSum_debug summed)
        simp only [timeSum, i64_debug_bind_safe, i64_safe_iff, reduceCtorEq, false_or]
          at summed sums
        obtain ⟨a, c, d, e, g, k⟩ := summed
        exact ⟨a, c, d, e, g, k, sums⟩
      · obtain ⟨a, c, d, e, g, k, l, m⟩ := room
        simp only [timeSum]
        rw [i64_bind _ a, i64_bind _ c, i64_bind _ d, i64_bind _ e, i64_bind _ g, i64_of_fits k,
          ok_bind,
          i64_bind _ l, i64_of_fits m]
        exact safe_ok _
      · obtain ⟨a, c, d, e, g, k, l, m⟩ := room
        simp only [timeSum]
        rw [i64_bind _ a, i64_bind _ c, i64_bind _ d, i64_bind _ e, i64_bind _ g, i64_of_fits k,
          ok_bind,
          i64_bind _ l, i64_of_fits m]
        exact ⟨_, rfl⟩

theorem behaves_timestamp (s : Text) :
    Behaves (fun b => parseTimestampToMicros b s) (StampRoom s) (StampReads s) := by
  simp only [parseTimestampToMicros_eq]
  by_cases read : DateReads (datePart s)
  · obtain ⟨y, m, d, fields, coarse⟩ := id read
    have time := behaves_time (dayNumber y m d - dayNumber 1970 1 1) (timePart s)
    have value : CivilFits y m d → ∀ b, parseDateToDays b (datePart s) =
        .ok (dayNumber y m d - dayNumber 1970 1 1) := fun fits b => by
      rw [parseDateToDays_of_fields b fields coarse, daysFromCivil_eq b coarse.1 coarse.2 fits]
    have room_of : StampRoom s → _ := fun room => room y m d fields coarse
    refine ⟨fun safe => ?_, fun room b => ?_, fun room b => ?_⟩
    · have fits := (behaves_date (datePart s)).debug (safe_bind_iff.mp safe).1 y m d fields coarse
      rw [value fits, ok_bind] at safe
      intro y' m' d' fields' _
      obtain ⟨rfl, rfl, rfl⟩ : y' = y ∧ m' = m ∧ d' = d := by simpa using fields'.symm.trans fields
      exact ⟨fits, time.debug safe⟩
    · obtain ⟨fits, rest⟩ := room_of room
      rw [value fits, ok_bind]
      exact time.safe rest b
    · obtain ⟨fits, rest⟩ := room_of room
      rw [value fits, ok_bind]
      exact (time.reads rest b).trans ⟨fun both => ⟨read, both⟩, fun all => all.2⟩
  · have refused := fun b => parseDateToDays_error b (s := datePart s)
      fun y m d fields coarse => read ⟨y, m, d, fields, coarse⟩
    refine ⟨fun _ y m d fields coarse => absurd ⟨y, m, d, fields, coarse⟩ read, fun _ b => ?_,
      fun _ b => iff_of_false ?_ fun all => read all.1⟩
    · obtain ⟨e, run⟩ := refused b
      rw [run, error_bind]
      exact safe_error e
    · rintro ⟨n, value⟩
      obtain ⟨e, run⟩ := refused b
      rw [run, error_bind] at value
      cases value

end Temporal

section Literals

variable {s : Text}

/-- The digits of a literal of bytes. -/
def byteaDigits (s : Text) : Text :=
  if ['\\', 'x'].isPrefixOf (trim s) then (trim s).drop 2 else trim s

def uuidDigits (s : Text) : Text := (trim s).filter (· ≠ '-')

theorem behaves_bytea (s : Text) : Behaves (fun _ => parseBytea s)
    (byteLen (byteaDigits s) % 2 = 0 → ¬ CutPair (byteaDigits s))
    (byteLen (byteaDigits s) % 2 = 0 ∧ PairsRead (byteaDigits s)) := by
  have run : parseBytea s = if byteLen (byteaDigits s) % 2 ≠ 0 then
      .error (quoting "invalid bytea literal '" s "': odd hex length")
    else readPairs (quoting "invalid bytea literal '" s "'") (byteLen (byteaDigits s) / 2)
      (byteaDigits s) := rfl
  rw [run]
  by_cases even : byteLen (byteaDigits s) % 2 = 0
  · have spec := readPairs_spec (quoting "invalid bytea literal '" s "'") (s := byteaDigits s)
      (n := byteLen (byteaDigits s) / 2) (by omega)
    rw [if_neg (by omega)]
    exact ⟨fun safe _ => spec.1.mp safe, fun room _ => spec.1.mpr (room even),
      fun _ _ => spec.2.trans ⟨fun read => ⟨even, read⟩, fun read => read.2⟩⟩
  · rw [if_pos (by omega)]
    exact (Behaves.error _).congr (fun _ => rfl) (iff_of_true (fun h => absurd h even) trivial)
      (iff_of_false (fun read => even read.1) id)

theorem behaves_uuid (s : Text) : Behaves (fun _ => parseUuid s)
    (byteLen (uuidDigits s) = 32 → ¬ CutPair (uuidDigits s))
    (byteLen (uuidDigits s) = 32 ∧ PairsRead (uuidDigits s)) := by
  have run : parseUuid s =
      if byteLen (uuidDigits s) ≠ 32 then .error (quoting "invalid uuid literal '" s "'")
    else readPairs (quoting "invalid uuid literal '" s "'") 16 (uuidDigits s) := rfl
  rw [run]
  by_cases whole : byteLen (uuidDigits s) = 32
  · have spec := readPairs_spec (quoting "invalid uuid literal '" s "'") (s := uuidDigits s)
      (n := 16) (by omega)
    rw [if_neg (by omega)]
    exact ⟨fun safe _ => spec.1.mp safe, fun room _ => spec.1.mpr (room whole),
      fun _ _ => spec.2.trans ⟨fun read => ⟨whole, read⟩, fun read => read.2⟩⟩
  · rw [if_pos (by omega)]
    exact (Behaves.error _).congr (fun _ => rfl) (iff_of_true (fun h => absurd h whole) trivial)
      (iff_of_false (fun read => whole read.1) id)

/-- An element that stands for NULL. -/
def IsNull (e : Text) : Prop := eqIgnoreAsciiCase e nullText = true

instance (e : Text) : Decidable (IsNull e) := inferInstanceAs (Decidable (_ = true))

/-- The texts that a type takes. -/
def Reads : SqlType → Text → Prop
  | .int2, s | .int4, s | .int8, s => (parseInt (trim s)).isSome = true
  | .float4, s | .float8, s | .numeric _ _, s => (parseF64 (Server.utf8 (trim s))).isSome = true
  | .bool, s => (parseBool s).isSome = true
  | .text, _ | .varchar _, _ | .json, _ | .jsonb, _ => True
  | .bytea, s => byteLen (byteaDigits s) % 2 = 0 ∧ PairsRead (byteaDigits s)
  | .uuid, s => byteLen (uuidDigits s) = 32 ∧ PairsRead (uuidDigits s)
  | .date, s => DateReads s
  | .timestamp, s | .timestampTz, s => StampReads s
  | .array elem, s => ∃ elements, parseArrayElements s = .ok elements ∧
      ∀ e ∈ elements, IsNull e ∨ Reads elem e

/-- The texts that no build panics on. -/
def LiteralFits : SqlType → Text → Prop
  | .bytea, s => byteLen (byteaDigits s) % 2 = 0 → ¬ CutPair (byteaDigits s)
  | .uuid, s => byteLen (uuidDigits s) = 32 → ¬ CutPair (uuidDigits s)
  | .date, s => DateRoom s
  | .timestamp, s | .timestampTz, s => StampRoom s
  | .array elem, s => ∀ elements, parseArrayElements s = .ok elements → ∀ front e rest,
      elements = front ++ e :: rest → (∀ x ∈ front, IsNull x ∨ Reads elem x) →
        IsNull e ∨ LiteralFits elem e
  | _, _ => True

theorem parseArrayElements_ne_fault (s : Text) (g : DecodeFault) :
    parseArrayElements s ≠ .fault g := by
  unfold parseArrayElements
  simp only
  split_ifs <;> simp

/-- An element of an array: NULL or a literal. -/
def readElement (b : Build) (elem : SqlType) (e : Text) : Decoded ParseError Value :=
  if eqIgnoreAsciiCase e nullText then .ok .null else parseValue b e elem

variable {elem : SqlType} {b : Build} {e : Text}

theorem readElement_null (null : IsNull e) : readElement b elem e = .ok .null := if_pos null

theorem readElement_literal (literal : ¬ IsNull e) :
    readElement b elem e = parseValue b e elem := if_neg literal

theorem behaves_element
    (behaves : ∀ s, Behaves (fun b => parseValue b s elem) (LiteralFits elem s) (Reads elem s))
    (e : Text) :
    Behaves (fun b => readElement b elem e) (IsNull e ∨ LiteralFits elem e)
      (IsNull e ∨ Reads elem e) := by
  by_cases null : IsNull e
  · exact (Behaves.ok Value.null).congr (fun b => readElement_null null)
      (iff_of_true (.inl null) trivial)
      (iff_of_true (.inl null) trivial)
  · exact (behaves e).congr (fun b => readElement_literal null) (or_iff_right null)
      (or_iff_right null)

/-- No build panics on a literal exactly if a condition holds of its type and its text. -/
theorem behaves_literal (ty : SqlType) (s : Text) :
    Behaves (fun b => parseValue b s ty) (LiteralFits ty s) (Reads ty s) := by
  induction ty generalizing s with
  | int2 | int4 | int8 =>
    exact (Behaves.orError _ _).congr (fun _ => rfl) Iff.rfl (by simp [Reads])
  | float4 | float8 =>
    exact (Behaves.orError _ _).congr (fun _ => rfl) Iff.rfl (by simp [Reads])
  | bool => exact (Behaves.orError _ _).congr (fun _ => rfl) Iff.rfl (by simp [Reads])
  | numeric precision scale =>
    have run : ∀ b, parseValue b s (.numeric precision scale) =
        if (parseF64 (Server.utf8 (trim s))).isNone then
          .error (parseErr (quoting "invalid numeric literal '" s "'"))
        else .ok (.text (Server.utf8 (trim s))) := fun _ => rfl
    cases read : parseF64 (Server.utf8 (trim s)) with
    | none =>
      exact (Behaves.error _).congr (fun b => (run b).trans (by rw [read]; rfl)) Iff.rfl
        (by simp [Reads, read])
    | some f =>
      exact (Behaves.ok _).congr (fun b => (run b).trans (by rw [read]; rfl)) Iff.rfl
        (by simp [Reads, read])
  | text | varchar _ | json | jsonb => exact (Behaves.ok _).congr (fun _ => rfl) Iff.rfl Iff.rfl
  | bytea => exact (behaves_bytea s).wrap parseErr Value.blob
  | uuid => exact (behaves_uuid s).wrap parseErr Value.blob
  | date => exact (behaves_date s).wrap parseErr Value.integer
  | timestamp | timestampTz => exact (behaves_timestamp s).wrap parseErr Value.integer
  | array elem ih =>
    have run : ∀ b, parseValue b s (.array elem) =
        (mapErr parseErr (parseArrayElements s) >>= fun elements =>
        collect (fun e => readElement b elem e) elements >>= fun items => .ok (.array items)) :=
          fun _ => rfl
    cases split : parseArrayElements s with
    | fault g => exact absurd split (parseArrayElements_ne_fault s g)
    | error e =>
      exact (Behaves.error (parseErr e)).congr (fun b => by rw [run, split]; rfl)
        (by simp [LiteralFits, split]) (by simp [Reads, split])
    | ok elements =>
      have all := (Behaves.collect (behaves_element ih) elements).wrap id Value.array
      refine all.congr (fun b => ?_) (by simp [LiteralFits, split]) (by simp [Reads, split])
      rw [run, split]
      simp only [mapErr, ok_bind]
      cases collect (fun e => readElement b elem e) elements <;> rfl

end Literals

end GalaxDb.Sql.Types
