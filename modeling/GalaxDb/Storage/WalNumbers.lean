import GalaxDb.Storage.WalCallers

/-!
# Sequence numbers in file order

The counter starts at one in every process and is drawn from outside the insert lock. The
numbers in the file increase as long as appends write in the order of their numbers, and
every number that is written is greater than those the process found in the file.
-/

namespace GalaxDb

open List

namespace Wal

theorem le_maxSeqNo {records : List WalRecord} {r : WalRecord} (hr : r ∈ records) :
    r.seqNo ≤ maxSeqNo records := by
  have grows : ∀ (l : List WalRecord) (m : Nat), m ≤ l.foldl (fun m r => max m r.seqNo) m ∧
        ∀ r ∈ l, r.seqNo ≤ l.foldl (fun m r => max m r.seqNo) m := by
    intro l
    induction l with
    | nil => simp
    | cons x rest ih =>
      intro m
      obtain ⟨le, all⟩ := ih (max m x.seqNo)
      rw [foldl_cons]
      refine ⟨by omega, ?_⟩
      intro r hr
      rcases mem_cons.mp hr with rfl | later
      · omega
      · exact all r later
  exact (grows records 0).2 r hr

end Wal

namespace WalCallers

variable {codec : WalCodec}

/-- The calls of a log that is only appended to and reopened. -/
def Act.Appends : Act → Prop
  | .call (.append _ _) | .advance _ | .reopen => True
  | .call _ => False

/-- A number fits its eight bytes, and a record is written only if its number is greater than
those the process found in the file, and before any append that has drawn a greater one. -/
def State.AdvancesInOrder (s : State) : Option Pc → Prop
  | some (.appending _ _) => s.writer.nextSeqNo < 2 ^ 64
  | some (.drawn record _) =>
    s.found < record.seqNo ∧ ∀ pc ∈ s.calls, ∀ n ∈ pc.wrote, n < record.seqNo
  | _ => True

/-- Payloads fit their length field, and writes come in order. -/
def InOrder (codec : WalCodec) (s : State) : Act → Prop
  | .call (.append _ payload) => WalRecord.Fits codec payload
  | .advance i => s.AdvancesInOrder s.calls[i]?
  | _ => True

instance (s : State) : (pc : Option Pc) → Decidable (s.AdvancesInOrder pc)
  | some (.appending _ _) => inferInstanceAs (Decidable (_ < _))
  | some (.drawn record _) => inferInstanceAs (Decidable
    (s.found < record.seqNo ∧ ∀ pc ∈ s.calls, ∀ n ∈ pc.wrote, n < record.seqNo))
  | none | some .checkpointing | some (.sized _) | some (.written ..) | some (.syncing ..)
  | some (.durable ..) | some .truncating | some (.cloned _) | some .rewritten | some .done =>
    isTrue trivial

instance (s : State) : (a : Act) → Decidable (InOrder codec s a)
  | .call (.append _ payload) => inferInstanceAs (Decidable (WalRecord.Fits codec payload))
  | .advance i => inferInstanceAs (Decidable (s.AdvancesInOrder s.calls[i]?))
  | .call .writeCheckpoint | .call .truncateToCheckpoint | .reopen => isTrue trivial

instance : (a : Act) → Decidable a.Appends
  | .call (.append ..) | .advance _ | .reopen => isTrue trivial
  | .call .writeCheckpoint | .call .truncateToCheckpoint => isFalse id

/-- An append on its way. -/
def Pc.IsAppend (codec : WalCodec) : Pc → Prop
  | .appending _ payload => WalRecord.Fits codec payload
  | .drawn record none => WalRecord.Fits codec record.payload ∧ record.seqNo < 2 ^ 64
  | .written _ _ none | .syncing _ _ none | .durable _ none => True
  | _ => False

structure Ordered (codec : WalCodec) (s : State) : Prop where
  holds : Wal.Holds codec s.writer s.appended
  calls : ∀ pc ∈ s.calls, pc.IsAppend codec
  fits : ∀ r ∈ s.appended, WalRecord.Fits codec r.payload
  small : ∀ r ∈ s.appended, r.seqNo < 2 ^ 64
  ordered : s.appended.Pairwise fun a b => a.seqNo < b.seqNo
  traced : ∀ r ∈ s.appended, r.seqNo ≤ s.found ∨ ∃ pc ∈ s.calls, pc.wrote = some r.seqNo

theorem ordered_fresh : Ordered codec State.fresh := by
  obtain ⟨w, new, holds⟩ := @Wal.holds_new codec
  obtain rfl := Except.ok.inj ((State.new_fresh codec).symm.trans new)
  exact ⟨holds, nofun, nofun, nofun, List.Pairwise.nil, nofun⟩

variable {s s' : State} {i : Nat}

/-- A call that moves on without writing. -/
theorem Ordered.moved (h : Ordered codec s) {pc pc' : Pc} (here : s.calls[i]? = some pc)
    (same : s.SameLog s') (calls : s'.calls = s.calls.set i pc') (isAppend : pc'.IsAppend codec)
    (keeps : ∀ n, pc.wrote = some n → pc'.wrote = some n) : Ordered codec s' := by
  obtain ⟨layout, fileLen, writeOffset⟩ := h.holds
  refine ⟨⟨?_, ?_, ?_⟩, ?_, ?_, ?_, ?_, ?_⟩
  · rwa [same.file, same.appended]
  · rwa [same.fileLen, same.file]
  · rwa [same.writeOffset, same.appended]
  · rw [calls]
    exact State.set_forall h.calls isAppend
  · rw [same.appended]
    exact h.fits
  · rw [same.appended]
    exact h.small
  · rw [same.appended]
    exact h.ordered
  · rw [same.appended, same.found, calls]
    intro r hr
    exact (h.traced r hr).imp_right fun wrote => State.set_wrote here keeps wrote

theorem Ordered.insert (h : Ordered codec s) {record : WalRecord}
    (here : s.calls[i]? = some (.drawn record none))
    (guard : s.found < record.seqNo ∧ ∀ pc ∈ s.calls, ∀ n ∈ pc.wrote, n < record.seqNo) :
    Ordered codec (s.insert codec i record none) := by
  obtain ⟨fits, small⟩ := h.calls _ (mem_of_getElem? here)
  have below : ∀ x ∈ s.appended, x.seqNo < record.seqNo := by
    intro x hx
    rcases h.traced x hx with old | ⟨pc, hpc, wrote⟩
    · exact old.trans_lt guard.1
    · exact guard.2 pc hpc _ wrote
  refine ⟨Wal.holds_write h.holds record, State.set_forall h.calls trivial, ?_, ?_, ?_, ?_⟩
  · intro r hr
    rcases mem_append.mp hr with old | new
    · exact h.fits r old
    · exact mem_singleton.mp new ▸ fits
  · intro r hr
    rcases mem_append.mp hr with old | new
    · exact h.small r old
    · exact mem_singleton.mp new ▸ small
  · refine pairwise_append.mpr ⟨h.ordered, pairwise_singleton _ _, ?_⟩
    intro x hx y hy
    rw [mem_singleton.mp hy]
    exact below x hx
  · intro r hr
    rcases mem_append.mp hr with old | new
    · exact (h.traced r old).imp_right fun wrote => State.set_wrote here (by simp [Pc.wrote]) wrote
    · rw [mem_singleton.mp new]
      exact Or.inr ⟨_, mem_set (List.getElem?_eq_some_iff.mp here).1 _, rfl⟩

theorem Ordered.reopen (lossless : codec.Lossless) (h : Ordered codec s)
    (eq : s.reopen codec = some s') : Ordered codec s' := by
  obtain ⟨w, new, holds⟩ := Wal.holds_reopen lossless h.holds h.fits
  simp only [State.reopen, new, Option.some.injEq] at eq
  subst eq
  exact ⟨holds, nofun, h.fits, h.small, h.ordered, fun r hr => Or.inl (Wal.le_maxSeqNo hr)⟩

/-- Each append in order keeps the numbers increasing. -/
theorem Ordered.step {s s' : State} {a : Act} (lossless : codec.Lossless) (h : Ordered codec s)
    (appends : a.Appends) (guard : InOrder codec s a) (eq : s.step codec a = some s') :
    Ordered codec s' := by
  cases a with
  | call c =>
    cases c with
    | append recordType payload =>
      obtain rfl := Option.some.inj eq
      refine ⟨h.holds, ?_, h.fits, h.small, h.ordered, ?_⟩
      · intro pc hpc
        rcases mem_append.mp hpc with old | new
        · exact h.calls pc old
        · exact mem_singleton.mp new ▸ guard
      · intro r hr
        refine (h.traced r hr).imp_right ?_
        rintro ⟨pc, hpc, wrote⟩
        exact ⟨pc, mem_append_left _ hpc, wrote⟩
    | writeCheckpoint => cases appends
    | truncateToCheckpoint => cases appends
  | reopen => exact h.reopen lossless eq
  | advance i =>
    simp only [State.step] at eq
    cases here : s.calls[i]? with
    | none => simp only [here] at eq; cases eq
    | some pc =>
      simp only [here] at eq
      have isAppend := h.calls pc (mem_of_getElem? here)
      simp only [InOrder, here] at guard
      obtain ⟨pc', moves, same, calls, -⟩ | ⟨record, checkpoint, rfl, rfl⟩ | ⟨info, rfl, -⟩ :=
        State.advance_cases here eq
      · cases moves with
        | draw recordType payload => exact h.moved here same calls ⟨isAppend, guard⟩ nofun
        | durable seqNo myEnd checkpoint | sync seqNo myEnd checkpoint
        | synced seqNo target checkpoint =>
          cases checkpoint with
          | none => exact h.moved here same calls trivial fun _ => id
          | some => exact isAppend.elim
        | returned => exact h.moved here same calls trivial fun _ => id
        | _ => exact isAppend.elim
      · cases checkpoint with
        | none => exact h.insert here guard
        | some => exact isAppend.elim
      · exact isAppend.elim

/-- The records of the file, in the order in which they stand there, have increasing numbers. -/
def NumbersIncrease (codec : WalCodec) (file : Bytes) : Prop :=
  ∃ records, Wal.readRecords codec file.length (file.drop Wal.headerSize) = .ok records ∧
    records.Pairwise fun a b => a.seqNo < b.seqNo

/-- Opens, appends and reopens in which every write is in order leave increasing numbers. -/
theorem numbers_increase_in_order (lossless : codec.Lossless) {acts : List Act} {s : State}
    (appends : ∀ a ∈ acts, a.Appends)
    (inOrder : Run.Along (State.step codec) (InOrder codec) State.fresh acts)
    (run : Run.run (State.step codec) State.fresh acts = some s) :
    NumbersIncrease codec s.writer.file := by
  have along := (Run.along_of_forall State.fresh appends).and inOrder
  have h := Run.invariant_of_run
    (fun _ _ _ h guard eq => Ordered.step lossless h guard.1 guard.2 eq) ordered_fresh along run
  obtain ⟨_, enough, n, content⟩ := h.holds.reads
  refine ⟨s.appended, ?_, h.ordered⟩
  rw [content, Wal.readRecords_serializeAll lossless h.fits n enough, Wal.map_stored h.small]

section Schedules

def State.DrawsApart (s : State) : Option Pc → Prop
  | some (.appending _ _) | some (.sized _) =>
    s.writer.nextSeqNo < 2 ^ 64 ∧ ∀ pc ∈ s.calls, pc.isDrawn = false
  | _ => True

/-- In one process, no number is drawn while another one waits to be written. -/
def DrawnApart (codec : WalCodec) (s : State) : Act → Prop
  | .call (.append _ payload) => WalRecord.Fits codec payload
  | .call _ => True
  | .advance i => s.DrawsApart s.calls[i]?
  | .reopen => False

/-- At most one number waits to be written, and it is the greatest. -/
structure Numbered (s : State) : Prop where
  found : s.found < s.writer.nextSeqNo
  wrote : ∀ pc ∈ s.calls, ∀ n ∈ pc.wrote, n < s.writer.nextSeqNo
  alone : s.calls.countP Pc.isDrawn ≤ 1
  drawn : ∀ record checkpoint, .drawn record checkpoint ∈ s.calls →
    s.found < record.seqNo ∧ record.seqNo < s.writer.nextSeqNo ∧
      ∀ pc ∈ s.calls, ∀ n ∈ pc.wrote, n < record.seqNo

/-- A step after which no other number is drawn or written. -/
theorem Numbered.moved (h : Numbered s) (found : s'.found = s.found)
    (counter : s'.writer.nextSeqNo = s.writer.nextSeqNo)
    (calls : ∀ p ∈ s'.calls, p ∈ s.calls ∨
      p.isDrawn = false ∧ ∀ n ∈ p.wrote, ∃ q ∈ s.calls, n ∈ q.wrote)
    (count : s'.calls.countP Pc.isDrawn ≤ s.calls.countP Pc.isDrawn) : Numbered s' := by
  have among : ∀ {m : Nat}, (∀ p ∈ s.calls, ∀ n ∈ p.wrote, n < m) →
      ∀ p ∈ s'.calls, ∀ n ∈ p.wrote, n < m := by
    intro m all p mem n wrote
    obtain old | ⟨-, was⟩ := calls p mem
    · exact all p old n wrote
    · obtain ⟨q, old, wrote'⟩ := was n wrote
      exact all q old n wrote'
  refine ⟨?_, ?_, count.trans h.alone, fun record checkpoint mem => ?_⟩
  · rw [found, counter]
    exact h.found
  · rw [counter]
    exact among h.wrote
  · obtain old | ⟨not, -⟩ := calls _ mem
    · obtain ⟨above, small, least⟩ := h.drawn record checkpoint old
      rw [found, counter]
      exact ⟨above, small, among least⟩
    · cases not

theorem countP_set_add {calls : List Pc} {pc pc' : Pc} (here : calls[i]? = some pc) :
    (calls.set i pc').countP Pc.isDrawn + pc.isDrawn.toNat =
      calls.countP Pc.isDrawn + pc'.isDrawn.toNat := by
  obtain ⟨inside, rfl⟩ := List.getElem?_eq_some_iff.mp here
  rw [countP_set inside]
  cases drawn : calls[i].isDrawn
  · cases pc'.isDrawn <;> simp
  · have pos := countP_pos_iff.mpr ⟨_, getElem_mem inside, drawn⟩
    cases pc'.isDrawn <;> simp <;> omega

/-- Each step leaves at most one number waiting to be written. -/
theorem Numbered.step {a : Act} (h : Numbered s) (guard : DrawnApart codec s a)
    (eq : s.step codec a = some s') : Numbered s' := by
  cases a with
  | call c =>
    obtain rfl := Option.some.inj eq
    have start : c.start.wrote = none ∧ c.start.isDrawn = false := by cases c <;> exact ⟨rfl, rfl⟩
    refine h.moved rfl rfl (fun p mem => ?_) (by simp [start.2])
    obtain old | new := mem_append.mp mem
    · exact .inl old
    · rw [mem_singleton.mp new]
      exact .inr ⟨start.2, by simp [start.1]⟩
  | reopen => exact guard.elim
  | advance i =>
    simp only [State.step] at eq
    cases here : s.calls[i]? with
    | none => simp only [here] at eq; cases eq
    | some pc =>
      simp only [here] at eq
      simp only [DrawnApart, here] at guard
      have mem := mem_of_getElem? here
      have stays : ∀ {new : State} {pc' : Pc}, new.found = s.found →
          new.writer.nextSeqNo = s.writer.nextSeqNo → new.calls = s.calls.set i pc' →
          pc'.isDrawn = false → (∀ n ∈ pc'.wrote, n ∈ pc.wrote) → Numbered new := by
        intro new pc' found counter calls waits keeps
        refine h.moved found counter (fun p there => ?_) ?_
        · rw [calls] at there
          obtain old | rfl := mem_or_eq_of_mem_set there
          · exact .inl old
          · exact .inr ⟨waits, fun n wrote => ⟨pc, mem, keeps n wrote⟩⟩
        · have total := @countP_set_add _ _ _ pc' here
          rw [waits] at total
          exact calls ▸ Nat.le.intro total
      obtain ⟨pc', moves, same, calls, -, counter⟩ | ⟨record, checkpoint, rfl, rfl⟩ |
        ⟨info, rfl, -, rfl⟩ := State.advance_cases here eq
      · have total := @countP_set_add _ _ _ pc' here
        cases moves with
        | draw | drawCheckpoint =>
          have wrote : ∀ p ∈ s'.calls, ∀ n ∈ p.wrote, n < s.writer.nextSeqNo := by
            rw [calls]
            exact State.set_forall h.wrote nofun
          refine ⟨?_, ?_, ?_, ?_⟩
          · rw [same.found, counter]
            exact Nat.lt_succ_of_lt h.found
          · rw [counter]
            exact fun p there n wrote' => Nat.lt_succ_of_lt (wrote p there n wrote')
          · rw [calls]
            have none : s.calls.countP Pc.isDrawn = 0 := by simpa using guard.2
            simp only [none, Pc.isDrawn] at total
            exact total.le
          · rw [same.found, counter]
            intro r c there
            obtain old | new := mem_or_eq_of_mem_set (calls ▸ there)
            · cases guard.2 _ old
            · cases new
              exact ⟨h.found, Nat.lt_succ_self _, wrote⟩
        | durable | sync | synced | returned =>
          exact stays same.found counter calls rfl fun _ => id
        | _ => exact stays same.found counter calls rfl nofun
      · obtain ⟨above, small, least⟩ := h.drawn record checkpoint mem
        have none : (s.insert codec i record checkpoint).calls.countP Pc.isDrawn = 0 := by
          have total := @countP_set_add _ _ _ (.written record.seqNo
            (s.writer.write codec record).writeOffset checkpoint) here
          exact Nat.eq_zero_of_le_zero (Nat.le_of_succ_le_succ (total.le.trans h.alone))
        refine ⟨h.found, State.set_forall h.wrote ?_, none.trans_le (by omega), fun r c there => ?_⟩
        · rintro _ ⟨⟩
          exact small
        · cases countP_eq_zero.mp none _ there rfl
      · exact stays rfl rfl rfl rfl nofun

/-- Numbers that are drawn apart are written in order. -/
theorem inOrder_of_drawnApart {acts : List Act}
    (apart : Run.Along (State.step codec) (DrawnApart codec) State.fresh acts) :
    Run.Along (State.step codec) (InOrder codec) State.fresh acts := by
  refine apart.of_invariant (fun s a s' h guard eq => Numbered.step h guard eq) ?_
    ⟨Nat.one_pos, nofun, Nat.zero_le _, nofun⟩
  intro s a h guard
  cases a with
  | call c => cases c <;> exact guard
  | reopen => trivial
  | advance i =>
    simp only [InOrder, DrawnApart] at guard ⊢
    cases here : s.calls[i]? with
    | none => trivial
    | some pc =>
      rw [here] at guard
      cases pc with
      | appending => exact guard.1
      | drawn record checkpoint =>
        obtain ⟨above, -, least⟩ := h.drawn record checkpoint (mem_of_getElem? here)
        exact ⟨above, least⟩
      | _ => trivial

end Schedules

/-- Two appends whose steps interleave. -/
def twoWriters : List Act :=
  [.call (.append .rowPut [7]), .call (.append .rowDelete [8]), .advance 1, .advance 0,
    .advance 1, .advance 0, .advance 1, .advance 1, .advance 0]

theorem numbers_increase_of_two_writers :
    ∃ s, Run.run (State.step Wal.summing) State.fresh twoWriters = some s ∧
      NumbersIncrease Wal.summing s.writer.file :=
  ⟨_, rfl, @numbers_increase_in_order _ Wal.lossless_summing twoWriters _ (by decide)
    (by decide +kernel) rfl⟩

theorem nextSeqNo_new {onDisk : Bytes} {w : WalWriter} (new : WalWriter.new codec onDisk = .ok w) :
    w.nextSeqNo = 1 := by
  simp only [WalWriter.new] at new
  split at new
  · cases new
  · obtain rfl := Except.ok.inj new
    rfl

/-- One append, a reopen, one append. -/
def appendReopenAppend : List Act :=
  [.call (.append .rowPut [7]), .advance 0, .advance 0, .advance 0, .advance 0] ++
    .reopen :: [.call (.append .rowPut [8]), .advance 0, .advance 0]

/-- The reopened log hands out a number that a record already has. -/
theorem number_repeats_after_reopen : (∀ a ∈ appendReopenAppend, a.Appends) ∧
      ∃ s, Run.run (State.step Wal.summing) State.fresh appendReopenAppend = some s ∧
        ¬ NumbersIncrease Wal.summing s.writer.file := by
  refine ⟨by decide, ?_⟩
  let first : WalRecord := ⟨.rowPut, 1, [7]⟩
  have fits : ∀ r ∈ [first], WalRecord.Fits Wal.summing r.payload := by decide
  have holds1 := Wal.holds_write (@ordered_fresh Wal.summing).holds first
  obtain ⟨s1, run1, file1⟩ : ∃ s1, Run.run (State.step Wal.summing) State.fresh
      [.call (.append .rowPut [7]), .advance 0, .advance 0, .advance 0, .advance 0] = some s1 ∧
        s1.writer.file = (State.fresh.writer.write Wal.summing first).file := ⟨_, rfl, rfl⟩
  obtain ⟨w, new, holds⟩ := Wal.holds_reopen Wal.lossless_summing holds1 fits
  let second : WalRecord := ⟨.rowPut, w.nextSeqNo, [8]⟩
  obtain ⟨s, run2, file2⟩ : ∃ s, Run.run (State.step Wal.summing)
      ⟨w, w.writeOffset, none, [], s1.appended, Wal.maxSeqNo s1.appended⟩
      [.call (.append .rowPut [8]), .advance 0, .advance 0] = some s ∧
        s.writer.file = (w.write Wal.summing second).file := ⟨_, rfl, rfl⟩
  refine ⟨s, ?_, ?_⟩
  · have opened : State.step Wal.summing s1 .reopen =
        some ⟨w, w.writeOffset, none, [], s1.appended, Wal.maxSeqNo s1.appended⟩ := by
      simp only [State.step, State.reopen, file1, new]
    rw [Run.run] at run1 run2
    rw [appendReopenAppend, Run.run, foldlM_append, run1]
    simp only [Option.bind_eq_bind, Option.bind_some, foldlM_cons, opened]
    exact run2
  · -- the second process has started at one again
    have number : second = ⟨.rowPut, 1, [8]⟩ := by rw [← nextSeqNo_new new]
    have holds2 := Wal.holds_write holds second
    rintro ⟨records, read, increase⟩
    obtain ⟨_, enough, n, content⟩ := holds2.reads
    rw [file2, content, Wal.readRecords_serializeAll Wal.lossless_summing _ n enough] at read
    · obtain rfl := Except.ok.inj read
      rw [number] at increase
      revert increase
      decide
    · rw [number]
      decide

end WalCallers

end GalaxDb
