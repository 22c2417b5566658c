import GalaxDb.Lib.Run
import GalaxDb.Storage.WalDamage

/-!
# Concurrent callers of the log

Appends, checkpoints and truncations as the atomic steps of the code. An append draws its
number before it takes the insert lock; a checkpoint reads the durable size before it
appends its record, and publishes that offset afterwards; a truncation clones the offset
before it takes both locks.
-/

namespace GalaxDb

open Option

namespace WalWriter

variable (codec : WalCodec)

/-- The insert phase of `do_append`, for a record that has its number already. -/
def write (w : WalWriter) (r : WalRecord) : WalWriter :=
  let data := r.serialize codec
  let grown := w.fileLen < w.writeOffset + data.length
  let growTo := max (w.writeOffset + data.length) (w.fileLen + Wal.defaultPreallocateBytes)
  let file := if grown then zeroFill w.file growTo else w.file
  { file := file.take w.writeOffset ++ data ++ file.drop (w.writeOffset + data.length)
    fileLen := if grown then growTo else w.fileLen
    writeOffset := w.writeOffset + data.length
    nextSeqNo := w.nextSeqNo }

/-- The rewrite of `truncate_to_checkpoint`: the superblock, what stands from the offset on,
and padding. -/
def rewriteFrom (w : WalWriter) (offset : Nat) : WalWriter :=
  let remaining := (w.file.drop offset).take (w.writeOffset - offset)
  let newEnd := Wal.headerSize + remaining.length
  let want := max newEnd Wal.defaultPreallocateBytes
  { file := zeroFill (Wal.superblock ++ remaining) want
    fileLen := want
    writeOffset := newEnd
    nextSeqNo := w.nextSeqNo }

end WalWriter

namespace Wal

variable {codec : WalCodec}

theorem holds_write {w : WalWriter} {records : List WalRecord} (h : Holds codec w records)
    (r : WalRecord) : Holds codec (w.write codec r) (records ++ [r]) := by
  have numbered : Holds codec { w with nextSeqNo := r.seqNo } records :=
    ⟨h.layout, h.fileLen, h.writeOffset⟩
  have written := holds_append numbered r.recordType r.payload
  exact ⟨written.layout, written.fileLen, written.writeOffset⟩

end Wal

namespace WalCallers

structure CheckpointInfo where
  seqNo : Nat
  offset : Nat
  deriving DecidableEq

inductive Call where
  | append (recordType : WalRecordType) (payload : Bytes)
  | writeCheckpoint
  | truncateToCheckpoint
  deriving DecidableEq

/-- How far a call has come. The record of a checkpoint carries the offset that was read for
it; an append has returned once it is durable. -/
inductive Pc where
  | appending (recordType : WalRecordType) (payload : Bytes)
  | checkpointing
  | sized (offset : Nat)
  | drawn (record : WalRecord) (checkpoint : Option Nat)
  | written (seqNo myEnd : Nat) (checkpoint : Option Nat)
  | syncing (seqNo target : Nat) (checkpoint : Option Nat)
  | durable (seqNo : Nat) (checkpoint : Option Nat)
  | truncating
  | cloned (info : CheckpointInfo)
  | rewritten
  | done
  deriving DecidableEq

def Call.start : Call → Pc
  | .append recordType payload => .appending recordType payload
  | .writeCheckpoint => .checkpointing
  | .truncateToCheckpoint => .truncating

/-- The call holds the flush lock. -/
def Pc.isSyncing : Pc → Bool
  | .syncing _ _ _ => true
  | _ => false

/-- The number of a call that has written its record. -/
def Pc.wrote : Pc → Option Nat
  | .written seqNo _ _ | .syncing seqNo _ _ | .durable seqNo _ => some seqNo
  | _ => none

/-- The call has drawn a number and not written its record. -/
def Pc.isDrawn : Pc → Bool
  | .drawn _ _ => true
  | _ => false

/-- What a sync under way makes durable. -/
def Pc.target : Pc → Option Nat
  | .syncing _ target _ => some target
  | _ => none

/-- `appended` records every record that was written, and `found` the greatest number among
those that were there when the process opened the log. -/
structure State where
  writer : WalWriter
  flushOffset : Nat
  lastCheckpoint : Option CheckpointInfo
  calls : List Pc
  appended : List WalRecord
  found : Nat

inductive Act where
  | call (c : Call)
  | advance (i : Nat)
  | reopen
  deriving DecidableEq

namespace State

variable (codec : WalCodec)

def moveTo (s : State) (i : Nat) (pc : Pc) : State := { s with calls := s.calls.set i pc }

def flushLocked (s : State) : Bool := s.calls.any Pc.isSyncing

/-- `next_seq_no.fetch_add(1)`. -/
def draw (s : State) (i : Nat) (recordType : WalRecordType) (payload : Bytes)
    (checkpoint : Option Nat) : State :=
  { s with
    writer := { s.writer with nextSeqNo := s.writer.nextSeqNo + 1 }
    calls := s.calls.set i (.drawn ⟨recordType, s.writer.nextSeqNo, payload⟩ checkpoint) }

def insert (s : State) (i : Nat) (record : WalRecord) (checkpoint : Option Nat) : State :=
  { s with
    writer := s.writer.write codec record
    calls := s.calls.set i
      (.written record.seqNo (s.writer.write codec record).writeOffset checkpoint)
    appended := s.appended ++ [record] }

def rewrite (s : State) (i : Nat) (offset : Nat) : State :=
  { s with
    writer := s.writer.rewriteFrom offset
    flushOffset := (s.writer.rewriteFrom offset).writeOffset
    calls := s.calls.set i .rewritten }

/-- The next step of the call at place `i`; nothing while it waits for the flush lock. -/
def advance (s : State) (i : Nat) : Pc → Option State
  | .appending recordType payload => some (s.draw i recordType payload none)
  | .checkpointing => some (s.moveTo i (.sized s.flushOffset))
  | .sized offset => some (s.draw i .checkpoint [] (some offset))
  | .drawn record checkpoint => some (s.insert codec i record checkpoint)
  | .written seqNo myEnd checkpoint =>
    if myEnd ≤ s.flushOffset then some (s.moveTo i (.durable seqNo checkpoint))
    else if s.flushLocked then none
    else some (s.moveTo i (.syncing seqNo s.writer.writeOffset checkpoint))
  | .syncing seqNo target checkpoint =>
    some ({ s with flushOffset := target }.moveTo i (.durable seqNo checkpoint))
  | .durable seqNo (some offset) =>
    some ({ s with lastCheckpoint := some ⟨seqNo, offset⟩ }.moveTo i .done)
  | .truncating =>
    match s.lastCheckpoint with
    | some info => some (s.moveTo i (.cloned info))
    | none => some (s.moveTo i .done)
  | .cloned info => if s.flushLocked then none else some (s.rewrite i info.offset)
  | .rewritten =>
    let moved := s.lastCheckpoint.map (fun info => { info with offset := Wal.headerSize })
    some ({ s with lastCheckpoint := moved }.moveTo i .done)
  | .durable _ none | .done => some s

/-- A new process on the file: its calls, its counter and its checkpoint are gone. -/
def reopen (s : State) : Option State :=
  match WalWriter.new codec s.writer.file with
  | .ok w => some ⟨w, w.writeOffset, none, [], s.appended, Wal.maxSeqNo s.appended⟩
  | .error _ => none

def step (s : State) : Act → Option State
  | .call c => some { s with calls := s.calls ++ [c.start] }
  | .advance i =>
    match s.calls[i]? with
    | some pc => s.advance codec i pc
    | none => none
  | .reopen => s.reopen codec

/-- The first process, on a log that it has created. -/
def fresh : State where
  writer := ⟨WalWriter.zeroFill Wal.superblock Wal.defaultPreallocateBytes,
    Wal.defaultPreallocateBytes, Wal.headerSize, 1⟩
  flushOffset := Wal.headerSize
  lastCheckpoint := none
  calls := []
  appended := []
  found := 0

theorem new_fresh : WalWriter.new codec [] = .ok fresh.writer := by
  have begins : Wal.dataStart (Wal.stamped []) = .ok Wal.headerSize := by decide
  have ends : Wal.scanLogicalEnd codec (Wal.stamped []).length
      ((Wal.stamped []).drop Wal.headerSize) Wal.headerSize = Wal.headerSize := rfl
  exact Wal.new_eq begins ends (by decide)

/-- The log and what was written to it stay. -/
structure SameLog (s s' : State) : Prop where
  file : s'.writer.file = s.writer.file
  fileLen : s'.writer.fileLen = s.writer.fileLen
  writeOffset : s'.writer.writeOffset = s.writer.writeOffset
  appended : s'.appended = s.appended
  found : s'.found = s.found

/-- A call moves on and leaves the file alone. -/
inductive Moves (s : State) : Pc → Pc → Prop
  | draw (recordType : WalRecordType) (payload : Bytes) :
    Moves s (.appending recordType payload)
      (.drawn ⟨recordType, s.writer.nextSeqNo, payload⟩ none)
  | read : Moves s .checkpointing (.sized s.flushOffset)
  | drawCheckpoint (offset : Nat) :
    Moves s (.sized offset) (.drawn ⟨.checkpoint, s.writer.nextSeqNo, []⟩ (some offset))
  | durable (seqNo myEnd : Nat) (checkpoint : Option Nat) :
    Moves s (.written seqNo myEnd checkpoint) (.durable seqNo checkpoint)
  | sync (seqNo myEnd : Nat) (checkpoint : Option Nat) :
    Moves s (.written seqNo myEnd checkpoint) (.syncing seqNo s.writer.writeOffset checkpoint)
  | synced (seqNo target : Nat) (checkpoint : Option Nat) :
    Moves s (.syncing seqNo target checkpoint) (.durable seqNo checkpoint)
  | publish (seqNo offset : Nat) : Moves s (.durable seqNo (some offset)) .done
  | clone (info : CheckpointInfo) : Moves s .truncating (.cloned info)
  | nothing : Moves s .truncating .done
  | relocate : Moves s .rewritten .done
  | returned (seqNo : Nat) : Moves s (.durable seqNo none) (.durable seqNo none)
  | done : Moves s .done .done

variable {calls : List Pc} {i : Nat} {pc : Pc} {s s' : State} {codec}

theorem advance_cases (here : s.calls[i]? = some pc) (eq : s.advance codec i pc = some s') :
    (∃ pc', s.Moves pc pc' ∧ s.SameLog s' ∧ s'.calls = s.calls.set i pc' ∧
      s'.flushOffset = pc.target.getD s.flushOffset ∧
      s'.writer.nextSeqNo = s.writer.nextSeqNo + pc'.isDrawn.toNat) ∨
    (∃ record checkpoint, pc = .drawn record checkpoint ∧
      s' = s.insert codec i record checkpoint) ∨
    ∃ info, pc = .cloned info ∧ s.flushLocked = false ∧ s' = s.rewrite i info.offset := by
  have stays : s.calls = s.calls.set i pc := by
    obtain ⟨inside, rfl⟩ := List.getElem?_eq_some_iff.mp here
    exact (List.set_getElem_self inside).symm
  cases pc with
  | drawn record checkpoint => exact .inr (.inl ⟨_, _, rfl, (some.inj eq).symm⟩)
  | cloned info =>
    simp only [advance] at eq
    split at eq
    · cases eq
    · rename_i unlocked
      exact .inr (.inr ⟨_, rfl, Bool.eq_false_of_not_eq_true unlocked, (some.inj eq).symm⟩)
  | written seqNo myEnd checkpoint =>
    simp only [advance] at eq
    split at eq
    · obtain rfl := some.inj eq
      exact .inl ⟨_, .durable .., ⟨rfl, rfl, rfl, rfl, rfl⟩, rfl, rfl, rfl⟩
    · split at eq
      · cases eq
      · obtain rfl := some.inj eq
        exact .inl ⟨_, .sync .., ⟨rfl, rfl, rfl, rfl, rfl⟩, rfl, rfl, rfl⟩
  | truncating =>
    simp only [advance] at eq
    split at eq
    · obtain rfl := some.inj eq
      exact .inl ⟨_, .clone _, ⟨rfl, rfl, rfl, rfl, rfl⟩, rfl, rfl, rfl⟩
    · obtain rfl := some.inj eq
      exact .inl ⟨_, .nothing, ⟨rfl, rfl, rfl, rfl, rfl⟩, rfl, rfl, rfl⟩
  | durable seqNo checkpoint =>
    cases checkpoint with
    | none =>
      obtain rfl := some.inj eq
      exact .inl ⟨_, .returned _, ⟨rfl, rfl, rfl, rfl, rfl⟩, stays, rfl, rfl⟩
    | some =>
      obtain rfl := some.inj eq
      exact .inl ⟨_, .publish .., ⟨rfl, rfl, rfl, rfl, rfl⟩, rfl, rfl, rfl⟩
  | appending | checkpointing | sized | syncing | rewritten =>
    obtain rfl := some.inj eq
    exact .inl ⟨_, by constructor, ⟨rfl, rfl, rfl, rfl, rfl⟩, rfl, rfl, rfl⟩
  | done =>
    obtain rfl := some.inj eq
    exact .inl ⟨_, .done, ⟨rfl, rfl, rfl, rfl, rfl⟩, stays, rfl, rfl⟩

theorem set_forall {P : Pc → Prop} (all : ∀ p ∈ calls, P p) (new : P pc) :
    ∀ p ∈ calls.set i pc, P p := by
  intro p hp
  rcases List.mem_or_eq_of_mem_set hp with old | rfl
  · exact all p old
  · exact new

/-- A call that moves on keeps its number once it has written. -/
theorem set_wrote {pc' : Pc} (here : calls[i]? = some pc)
    (keeps : ∀ n, pc.wrote = some n → pc'.wrote = some n) {n : Nat}
    (wrote : ∃ p ∈ calls, p.wrote = some n) : ∃ p ∈ calls.set i pc', p.wrote = some n := by
  obtain ⟨p, hp, eq⟩ := wrote
  obtain ⟨j, hj⟩ := List.mem_iff_getElem?.mp hp
  by_cases same : i = j
  · subst same
    obtain rfl := some.inj (here.symm.trans hj)
    exact ⟨pc', List.mem_set (List.getElem?_eq_some_iff.mp here).1 _, keeps n eq⟩
  · refine ⟨p, List.mem_iff_getElem?.mpr ⟨j, ?_⟩, eq⟩
    rw [List.getElem?_set_ne same, hj]

end State

end WalCallers

end GalaxDb
