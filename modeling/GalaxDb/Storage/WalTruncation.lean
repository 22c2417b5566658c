import GalaxDb.Storage.WalCallers

/-!
# Truncation to a checkpoint

A truncation keeps what stands in the file from an offset on, and that offset was read when
a checkpoint began. Recovery does not see the difference as long as the offset is still the
beginning of a record, with the last checkpoint not before it.
-/

namespace GalaxDb

open List

namespace Wal

variable {codec : WalCodec}

theorem afterCheckpoint_snoc (records : List WalRecord) (r : WalRecord) :
    afterCheckpoint (records ++ [r]) =
      if r.recordType = .checkpoint then [] else afterCheckpoint records ++ [r] := by
  by_cases checkpoint : r.recordType = .checkpoint <;> simp [afterCheckpoint, checkpoint]

theorem afterCheckpoint_map_stored (records : List WalRecord) :
    afterCheckpoint (records.map WalRecord.stored) =
      (afterCheckpoint records).map WalRecord.stored := by
  rw [afterCheckpoint, afterCheckpoint, ← map_reverse, takeWhile_map, map_reverse]
  rfl

/-- A log that is cut in front of the records behind its last checkpoint keeps them. -/
theorem afterCheckpoint_of_suffix {gone kept : List WalRecord}
    (suffix : afterCheckpoint (gone ++ kept) <:+ kept) :
    afterCheckpoint kept = afterCheckpoint (gone ++ kept) := by
  have short := suffix.length_le
  rw [afterCheckpoint, length_reverse, reverse_append, takeWhile_append] at short
  rw [afterCheckpoint, afterCheckpoint, reverse_append, takeWhile_append]
  split
  · rename_i all
    rw [if_pos all, length_append, length_reverse] at short
    have none_left : (gone.reverse.takeWhile fun r => decide (r.recordType ≠ .checkpoint)) = [] :=
      eq_nil_of_length_eq_zero (by omega)
    rw [none_left, append_nil, (List.takeWhile_prefix _).eq_of_length all]
  · rfl

theorem holds_rewriteFrom {w : WalWriter} {offset : Nat} {kept : List WalRecord}
    (bytes : (w.file.drop offset).take (w.writeOffset - offset) = serializeAll codec kept) :
    Holds codec (w.rewriteFrom offset) kept := by
  have size : (superblock ++ serializeAll codec kept).length =
      headerSize + (serializeAll codec kept).length := length_append
  refine ⟨⟨max (headerSize + (serializeAll codec kept).length) defaultPreallocateBytes -
    (superblock ++ serializeAll codec kept).length, ?_⟩, ?_, ?_⟩
  · simp only [WalWriter.rewriteFrom, WalWriter.zeroFill, bytes]
  · simp only [WalWriter.rewriteFrom, WalWriter.zeroFill, bytes]
    rw [length_append, length_replicate, size]
    omega
  · simp only [WalWriter.rewriteFrom, bytes, size]

theorem take_drop_of_holds {w : WalWriter} {records : List WalRecord} (h : Holds codec w records)
    {offset : Nat} (inside : offset ≤ w.writeOffset) :
    (w.file.drop offset).take (w.writeOffset - offset) =
      (superblock ++ serializeAll codec records).drop offset := by
  obtain ⟨n, layout⟩ := h.layout
  rw [h.writeOffset] at inside ⊢
  rw [layout, drop_append_of_le_length inside, take_left' length_drop]

/-- The records behind the last checkpoint are among those behind any earlier place. -/
theorem afterCheckpoint_append_suffix {old new : List WalRecord} {r : WalRecord} (mem : r ∈ new)
    (checkpoint : r.recordType = .checkpoint) : afterCheckpoint (old ++ new) <:+ new := by
  rw [afterCheckpoint, reverse_append, takeWhile_append, if_neg]
  · exact reverse_suffix.mpr (List.takeWhile_prefix _) |>.trans (by simp)
  · intro all
    have none := @all_takeWhile _ (fun r : WalRecord => r.recordType ≠ .checkpoint) new.reverse
    rw [(List.takeWhile_prefix _).eq_of_length all, all_eq_true] at none
    simpa [checkpoint] using none r (mem_reverse.mpr mem)

end Wal

namespace WalCallers

variable {codec : WalCodec}

/-- From this offset on the log is whole records of those that were appended, among them all
behind the last checkpoint. -/
def CutsBehindCheckpoint (codec : WalCodec) (s : State) (offset : Nat) : Prop :=
  ∃ k ≤ s.appended.length, (s.writer.file.drop offset).take (s.writer.writeOffset - offset) =
      Wal.serializeAll codec (s.appended.drop k) ∧
    Wal.afterCheckpoint s.appended <:+ s.appended.drop k

instance (s : State) (offset : Nat) : Decidable (CutsBehindCheckpoint codec s offset) :=
  inferInstanceAs (Decidable (∃ k ≤ s.appended.length, _ = _ ∧ _ <:+ _))

def State.AdvancesCutRight (codec : WalCodec) (s : State) : Option Pc → Prop
  | some (.sized _) => WalRecord.Fits codec []
  | some (.cloned info) => CutsBehindCheckpoint codec s info.offset
  | _ => True

/-- Payloads fit their length field, and a rewrite cuts behind the last checkpoint. -/
def CutsRight (codec : WalCodec) (s : State) : Act → Prop
  | .call (.append _ payload) => WalRecord.Fits codec payload
  | .advance i => s.AdvancesCutRight codec s.calls[i]?
  | _ => True

instance (s : State) : (pc : Option Pc) → Decidable (s.AdvancesCutRight codec pc)
  | some (.sized _) => inferInstanceAs (Decidable (WalRecord.Fits codec []))
  | some (.cloned info) => inferInstanceAs (Decidable (CutsBehindCheckpoint codec s info.offset))
  | none | some (.appending ..) | some .checkpointing | some (.drawn ..) | some (.written ..)
  | some (.syncing ..) | some (.durable ..) | some .truncating | some .rewritten | some .done =>
    isTrue trivial

instance (s : State) : (a : Act) → Decidable (CutsRight codec s a)
  | .call (.append _ payload) => inferInstanceAs (Decidable (WalRecord.Fits codec payload))
  | .advance i => inferInstanceAs (Decidable (s.AdvancesCutRight codec s.calls[i]?))
  | .call .writeCheckpoint | .call .truncateToCheckpoint | .reopen => isTrue trivial

/-- The payload that a call will write. -/
def Pc.payload : Pc → Option Bytes
  | .appending _ payload => some payload
  | .drawn record _ => some record.payload
  | _ => none

structure Kept (codec : WalCodec) (s : State) : Prop where
  log : ∃ gone kept, s.appended = gone ++ kept ∧ Wal.Holds codec s.writer kept ∧
    Wal.afterCheckpoint s.appended <:+ kept
  fits : ∀ r ∈ s.appended, WalRecord.Fits codec r.payload
  calls : ∀ pc ∈ s.calls, ∀ payload, pc.payload = some payload → WalRecord.Fits codec payload

theorem kept_fresh : Kept codec State.fresh := by
  obtain ⟨w, new, holds⟩ := @Wal.holds_new codec
  obtain rfl := Except.ok.inj ((State.new_fresh codec).symm.trans new)
  exact ⟨⟨[], [], rfl, holds, suffix_rfl⟩, nofun, nofun⟩

variable {s s' : State} {i : Nat}

/-- A step that leaves the file alone. -/
theorem Kept.moved (h : Kept codec s) (same : s.SameLog s') {pc : Pc}
    (calls : s'.calls = s.calls.set i pc)
    (fits : ∀ payload, pc.payload = some payload → WalRecord.Fits codec payload) :
    Kept codec s' := by
  obtain ⟨gone, kept, eq, ⟨layout, fileLen, writeOffset⟩, suffix⟩ := h.log
  refine ⟨?_, ?_, ?_⟩
  · rw [same.appended]
    refine ⟨gone, kept, eq, ⟨?_, ?_, ?_⟩, suffix⟩
    · rwa [same.file]
    · rwa [same.fileLen, same.file]
    · rwa [same.writeOffset]
  · rw [same.appended]
    exact h.fits
  · rw [calls]
    exact State.set_forall h.calls fits

theorem Kept.insert (h : Kept codec s) {record : WalRecord} {checkpoint : Option Nat}
    (here : s.calls[i]? = some (.drawn record checkpoint)) :
    Kept codec (s.insert codec i record checkpoint) := by
  obtain ⟨gone, kept, eq, holds, suffix⟩ := h.log
  refine ⟨⟨gone, kept ++ [record], ?_, Wal.holds_write holds record, ?_⟩, ?_, ?_⟩
  · simp only [State.insert, eq, append_assoc]
  · simp only [State.insert, Wal.afterCheckpoint_snoc]
    split
    · exact nil_suffix
    · obtain ⟨before, rfl⟩ := suffix
      exact ⟨before, by rw [append_assoc]⟩
  · intro r hr
    rcases mem_append.mp hr with old | new
    · exact h.fits r old
    · rw [mem_singleton.mp new]
      exact h.calls _ (mem_of_getElem? here) _ rfl
  · exact State.set_forall h.calls nofun

theorem Kept.rewrite (h : Kept codec s) {offset : Nat} (cut : CutsBehindCheckpoint codec s offset) :
    Kept codec (s.rewrite i offset) := by
  obtain ⟨k, _, bytes, suffix⟩ := cut
  exact ⟨⟨s.appended.take k, s.appended.drop k, (take_append_drop k _).symm,
    Wal.holds_rewriteFrom bytes, suffix⟩, h.fits, State.set_forall h.calls nofun⟩

theorem Kept.reopen (lossless : codec.Lossless) (h : Kept codec s) (eq : s.reopen codec = some s') :
    Kept codec s' := by
  obtain ⟨gone, kept, split, holds, suffix⟩ := h.log
  have fits : ∀ r ∈ kept, WalRecord.Fits codec r.payload :=
    fun r hr => h.fits r (split ▸ mem_append_right _ hr)
  obtain ⟨w, new, holds'⟩ := Wal.holds_reopen lossless holds fits
  simp only [State.reopen, new, Option.some.injEq] at eq
  subst eq
  exact ⟨⟨gone, kept, split, holds', suffix⟩, h.fits, nofun⟩

theorem Kept.advance {pc : Pc} (h : Kept codec s) (here : s.calls[i]? = some pc)
    (guard : CutsRight codec s (.advance i)) (eq : s.advance codec i pc = some s') :
    Kept codec s' := by
  have fits := h.calls pc (mem_of_getElem? here)
  simp only [CutsRight, here] at guard
  obtain ⟨pc', moves, same, calls, -⟩ | ⟨record, checkpoint, rfl, rfl⟩ | ⟨info, rfl, -, rfl⟩ :=
    State.advance_cases here eq
  · refine h.moved same calls fun payload carries => ?_
    cases moves with
    | draw recordType payload' => exact fits payload carries
    | drawCheckpoint offset => exact Option.some.inj carries ▸ guard
    | _ => cases carries
  · exact h.insert here
  · exact h.rewrite guard

theorem Kept.step {s s' : State} {a : Act} (lossless : codec.Lossless) (h : Kept codec s)
    (guard : CutsRight codec s a) (eq : s.step codec a = some s') : Kept codec s' := by
  cases a with
  | call c =>
    obtain rfl := Option.some.inj eq
    refine ⟨h.log, h.fits, ?_⟩
    intro pc hpc
    rcases mem_append.mp hpc with old | new
    · exact h.calls pc old
    · obtain rfl := mem_singleton.mp new
      cases c with
      | append recordType payload =>
        intro payload' same
        exact Option.some.inj same ▸ guard
      | writeCheckpoint => nofun
      | truncateToCheckpoint => nofun
  | reopen => exact h.reopen lossless eq
  | advance i =>
    simp only [State.step] at eq
    cases here : s.calls[i]? with
    | none =>
      simp only [here] at eq
      cases eq
    | some pc =>
      simp only [here] at eq
      exact h.advance here guard eq

/-- Recovery returns the appended records behind the last checkpoint. -/
def RecoversAppended (codec : WalCodec) (s : State) : Prop :=
  Wal.recoverWal codec s.writer.file = .ok ((Wal.afterCheckpoint s.appended).map WalRecord.stored)

/-- Truncation is invisible to recovery in every run whose rewrites cut behind the last
checkpoint. -/
theorem recovers_appended_of_run (lossless : codec.Lossless) {acts : List Act} {s : State}
    (cuts : Run.Along (State.step codec) (CutsRight codec) State.fresh acts)
    (run : Run.run (State.step codec) State.fresh acts = some s) : RecoversAppended codec s := by
  have h := Run.invariant_of_run (fun _ _ _ h guard eq => Kept.step lossless h guard eq)
    kept_fresh cuts run
  obtain ⟨gone, kept, split, holds, suffix⟩ := h.log
  have fits : ∀ r ∈ kept, WalRecord.Fits codec r.payload :=
    fun r hr => h.fits r (split ▸ mem_append_right _ hr)
  rw [split] at suffix
  rw [RecoversAppended, Wal.recoverWal_of_holds lossless holds fits,
    Wal.afterCheckpoint_map_stored, Wal.afterCheckpoint_of_suffix suffix, split]

section Schedules

variable {offset k : Nat} {a : Act} {acts : List Act}

/-- At this offset stand the records that were appended from place `k` on. -/
structure BoundaryAt (codec : WalCodec) (s : State) (offset k : Nat) : Prop where
  inside : offset ≤ s.writer.writeOffset
  known : k ≤ s.appended.length
  bytes : (s.writer.file.drop offset).take (s.writer.writeOffset - offset) =
    Wal.serializeAll codec (s.appended.drop k)

theorem boundaryAt_end : BoundaryAt codec s s.writer.writeOffset s.appended.length :=
  ⟨le_refl _, le_refl _, by simp [Wal.serializeAll]⟩

theorem BoundaryAt.moved (h : BoundaryAt codec s offset k) (same : s.SameLog s') :
    BoundaryAt codec s' offset k := by
  obtain ⟨inside, known, bytes⟩ := h
  exact ⟨by rwa [same.writeOffset], by rwa [same.appended],
    by rwa [same.file, same.writeOffset, same.appended]⟩

theorem BoundaryAt.insert (h : BoundaryAt codec s offset k) (kept : Kept codec s) (i : Nat)
    (record : WalRecord) (checkpoint : Option Nat) :
    BoundaryAt codec (s.insert codec i record checkpoint) offset k := by
  obtain ⟨gone, records, -, holds, -⟩ := kept.log
  have written := Wal.holds_write holds record
  have bytes := h.bytes
  have inside : offset ≤ (s.writer.write codec record).writeOffset :=
    Nat.le_trans h.inside (Nat.le_add_right _ _)
  rw [Wal.take_drop_of_holds holds h.inside] at bytes
  refine ⟨inside, ?_, ?_⟩
  · simp only [State.insert, length_append]
    exact Nat.le_trans h.known (Nat.le_add_right _ _)
  · rw [State.insert, Wal.take_drop_of_holds written inside, drop_append_of_le_length h.known]
    have all : ∀ l, Wal.serializeAll codec (l ++ [record]) =
        Wal.serializeAll codec l ++ record.serialize codec := by simp [Wal.serializeAll]
    rw [all, all, ← bytes, ← append_assoc,
      drop_append_of_le_length (holds.writeOffset ▸ h.inside)]

/-- An offset that is the durable size, or will be. -/
def Durable (s : State) (offset : Nat) : Prop :=
  offset = s.flushOffset ∨ ∃ pc ∈ s.calls, pc.target = some offset

/-- The file is neither rewritten nor opened again. -/
def Unrewritten (s : State) : Act → Prop
  | .call _ => True
  | .advance i => ∀ info, s.calls[i]? ≠ some (.cloned info)
  | .reopen => False

/-- A step that does not rewrite the file keeps what stands there. -/
theorem Kept.unrewritten (kept : Kept codec s) (quiet : Unrewritten s a)
    (eq : s.step codec a = some s') :
    (∀ offset k, BoundaryAt codec s offset k → BoundaryAt codec s' offset k) ∧
      s.appended <+: s'.appended ∧
      ∀ offset, Durable s' offset → Durable s offset ∨ offset = s'.writer.writeOffset := by
  cases a with
  | call c =>
    obtain rfl := Option.some.inj eq
    refine ⟨fun _ _ h => h.moved ⟨rfl, rfl, rfl, rfl, rfl⟩, prefix_rfl, ?_⟩
    rintro offset (rfl | ⟨p, mem, at_p⟩)
    · exact .inl (.inl rfl)
    · obtain old | new := mem_append.mp mem
      · exact .inl (.inr ⟨p, old, at_p⟩)
      · rw [mem_singleton.mp new] at at_p
        cases c <;> cases at_p
  | reopen => exact quiet.elim
  | advance i =>
    simp only [State.step] at eq
    cases here : s.calls[i]? with
    | none => simp only [here] at eq; cases eq
    | some pc =>
      simp only [here] at eq
      have others : ∀ {offset : Nat} {pc' p : Pc}, p ∈ s.calls.set i pc' →
          p.target = some offset → Durable s offset ∨ pc'.target = some offset := by
        intro offset pc' p mem at_p
        rcases mem_or_eq_of_mem_set mem with old | rfl
        · exact .inl (.inr ⟨p, old, at_p⟩)
        · exact .inr at_p
      obtain ⟨pc', moves, same, calls, flushed, -⟩ | ⟨record, checkpoint, rfl, rfl⟩ |
        ⟨info, rfl, -⟩ := State.advance_cases here eq
      · refine ⟨fun _ _ h => h.moved same, same.appended ▸ prefix_rfl, fun offset => ?_⟩
        rw [Durable, calls, flushed, same.writeOffset]
        rintro (rfl | ⟨p, mem, at_p⟩)
        · cases moves with
          | synced => exact .inl (.inr ⟨_, mem_of_getElem? here, rfl⟩)
          | _ => exact .inl (.inl rfl)
        · refine (others mem at_p).imp_right fun at_pc => ?_
          cases moves with
          | sync => exact (Option.some.inj at_pc).symm
          | _ => cases at_pc
      · refine ⟨fun _ _ h => h.insert kept .., prefix_append .., ?_⟩
        rintro offset (rfl | ⟨p, mem, at_p⟩)
        · exact .inl (.inl rfl)
        · exact (others mem at_p).imp_right nofun
      · exact absurd here (quiet info)

/-- The log in order, and every offset that is durable or will be begins a record. -/
structure Flushed (codec : WalCodec) (s : State) : Prop where
  kept : Kept codec s
  boundary : ∀ offset, Durable s offset → ∃ k, BoundaryAt codec s offset k

theorem flushed_fresh : Flushed codec State.fresh := by
  refine ⟨kept_fresh, ?_⟩
  rintro _ (rfl | ⟨_, mem, -⟩)
  · exact ⟨_, boundaryAt_end⟩
  · cases mem

theorem Flushed.step (lossless : codec.Lossless) (h : Flushed codec s)
    (guard : CutsRight codec s a) (eq : s.step codec a = some s') : Flushed codec s' := by
  refine ⟨h.kept.step lossless guard eq, fun offset durable => ?_⟩
  by_cases quiet : Unrewritten s a
  · obtain ⟨stays, -, old⟩ := h.kept.unrewritten quiet eq
    obtain before | rfl := old offset durable
    · obtain ⟨k, boundary⟩ := h.boundary offset before
      exact ⟨k, stays offset k boundary⟩
    · exact ⟨_, boundaryAt_end⟩
  · cases a with
    | call => exact absurd trivial quiet
    | reopen =>
      simp only [State.step, State.reopen] at eq
      split at eq
      · obtain rfl := Option.some.inj eq
        obtain rfl | ⟨_, mem, -⟩ := durable
        · exact ⟨_, boundaryAt_end⟩
        · cases mem
      · cases eq
    | advance i =>
      simp only [Unrewritten, ne_eq, not_forall, not_not] at quiet
      obtain ⟨info, here⟩ := quiet
      simp only [State.step, here, State.advance] at eq
      split at eq
      · cases eq
      · rename_i unlocked
        obtain rfl := Option.some.inj eq
        obtain rfl | ⟨p, mem, at_p⟩ := durable
        · exact ⟨_, boundaryAt_end⟩
        · refine absurd (any_eq_true.mpr ?_) unlocked
          rcases mem_or_eq_of_mem_set mem with old | rfl
          · cases p with
            | syncing => exact ⟨_, old, rfl⟩
            | _ => cases at_p
          · cases at_p

/-- The durable size that a checkpoint reads begins a record in front of its own, as long as
the file is not rewritten: a truncation to it cuts behind the last checkpoint. -/
theorem cutsBehindCheckpoint_of_unrewritten (lossless : codec.Lossless) {before acts : List Act}
    (right : Run.Along (State.step codec) (CutsRight codec) State.fresh (before ++ acts))
    (run : Run.run (State.step codec) State.fresh before = some s)
    (quiet : Run.Along (State.step codec) Unrewritten s acts)
    (run' : Run.run (State.step codec) s acts = some s')
    (checkpoint : ∃ r ∈ s'.appended.drop s.appended.length, r.recordType = .checkpoint) :
    CutsBehindCheckpoint codec s' s.flushOffset := by
  have flushed := Run.invariant_of_run (fun _ _ _ h guard eq => Flushed.step lossless h guard eq)
    flushed_fresh right.front run
  obtain ⟨k, boundary⟩ := flushed.boundary _ (.inl rfl)
  have stays : ∀ x a y, (Kept codec x ∧ BoundaryAt codec x s.flushOffset k ∧
        s.appended <+: x.appended) → CutsRight codec x a ∧ Unrewritten x a →
      x.step codec a = some y →
      Kept codec y ∧ BoundaryAt codec y s.flushOffset k ∧ s.appended <+: y.appended := by
    rintro x a y ⟨kept, at_k, since⟩ ⟨guard, live⟩ eq
    obtain ⟨there, more, -⟩ := kept.unrewritten live eq
    exact ⟨kept.step lossless guard eq, there _ k at_k, since.trans more⟩
  obtain ⟨-, ⟨-, known, bytes⟩, new, same⟩ := Run.invariant_of_run stays
    ⟨flushed.kept, boundary, prefix_rfl⟩ ((right.after run).and quiet) run'
  refine ⟨k, known, bytes, ?_⟩
  obtain ⟨r, mem, here⟩ := checkpoint
  rw [← same, drop_append_of_le_length boundary.known]
  rw [← same, drop_left] at mem
  exact (Wal.afterCheckpoint_append_suffix mem here).trans (suffix_append ..)

end Schedules

/-- A checkpoint behind an append, then a truncation. -/
def oneTruncation : List Act :=
  [.call (.append .rowPut [7]), .advance 0, .advance 0, .advance 0, .advance 0,
    .call .writeCheckpoint, .advance 1, .advance 1, .advance 1, .advance 1, .advance 1, .advance 1,
    .call (.append .rowPut [8]), .advance 2, .advance 2,
    .call .truncateToCheckpoint, .advance 3, .advance 3, .advance 3]

theorem recovers_after_one_truncation :
    ∃ s, Run.run (State.step Wal.summing) State.fresh oneTruncation = some s ∧
      RecoversAppended Wal.summing s :=
  ⟨_, rfl, @recovers_appended_of_run _ Wal.lossless_summing oneTruncation _ (by decide +kernel) rfl⟩

/-- Two truncations clone the same offset; the second one rewrites after the first one has
moved the checkpoint to the front, and after another append. -/
def twoTruncations : List Act :=
  [.call (.append .rowPut (List.replicate 22 7)), .advance 0, .advance 0, .advance 0, .advance 0,
    .call .writeCheckpoint, .advance 1, .advance 1, .advance 1, .advance 1, .advance 1, .advance 1,
    .call .truncateToCheckpoint, .call .truncateToCheckpoint, .advance 2, .advance 3,
    .advance 2, .advance 2,
    .call (.append .rowPut [8]), .advance 4, .advance 4, .advance 4, .advance 4,
    .advance 3]

/-- The second of two truncations cuts at an offset of the log before the first. -/
theorem stale_offset_cuts_a_live_record :
    ∃ s, Run.run (State.step Wal.summing) State.fresh twoTruncations = some s ∧
      ¬ RecoversAppended Wal.summing s := by
  obtain ⟨s, w, run, rewritten, size, appended⟩ : ∃ s w,
      Run.run (State.step Wal.summing) State.fresh twoTruncations = some s ∧
        s.writer = WalWriter.rewriteFrom w 59 ∧ w.writeOffset = 59 ∧
        s.appended = [⟨.rowPut, 1, List.replicate 22 7⟩, ⟨.checkpoint, 2, []⟩, ⟨.rowPut, 3, [8]⟩] :=
    ⟨_, _, rfl, rfl, by decide +kernel, rfl⟩
  refine ⟨s, run, ?_⟩
  have bytes : (w.file.drop 59).take (w.writeOffset - 59) = Wal.serializeAll Wal.summing [] := by
    rw [size]
    rfl
  have holds := Wal.holds_rewriteFrom bytes
  rw [← rewritten] at holds
  rw [RecoversAppended, Wal.recoverWal_of_holds Wal.lossless_summing holds nofun, appended]
  decide

end WalCallers

end GalaxDb
