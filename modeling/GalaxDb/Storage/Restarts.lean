import GalaxDb.Storage.Durability

/-!
# Histories of a data directory

A history consists of calls on the engine and restarts. The number in the name of a file
comes from a counter that all engines of a process share and that a new process starts
over, while the registry goes on behind the files it finds. Here is what every completed
call leaves behind, whatever state it started from, and which names it draws.
-/

namespace GalaxDb

open Row Compaction Option

namespace Engine

/-- A failed write is a put or a delete whose record could not be appended: its timestamp
is drawn by then. A restart keeps the counter of names if the process lives on. -/
inductive Event where
  | op (op : Op)
  | failedWrite
  | restart (config : EngineConfig) (sameProcess : Bool)

def advance (env : Platform) (e : Engine) : Event → Option Engine
  | .op op => step env e op
  | .failedWrite => some { e with nextTimestamp := e.nextTimestamp + 1 }
  | .restart config sameProcess =>
    (Engine.new env config e.close).map (fun opened =>
      { opened with nextBlockId := if sameProcess then e.nextBlockId else opened.nextBlockId })

def registeredPaths (e : Engine) : List Nat := e.sstRegistry.toList.map (fun i => i.2.path)

theorem mem_registeredPaths {e : Engine} {n : Nat} :
    n ∈ e.registeredPaths ↔ ∃ id : Nat, e.sstRegistry[id]? = some ⟨n⟩ := by
  simp only [registeredPaths, List.mem_map, Prod.exists,
    Std.ExtTreeMap.mem_toList_iff_getElem?_eq_some]
  constructor
  · rintro ⟨id, ⟨path⟩, found, rfl⟩
    exact ⟨id, found⟩
  · rintro ⟨id, found⟩
    exact ⟨id, ⟨n⟩, found, rfl⟩

/-- The files of the outputs of a compaction, named in the order they are written. -/
def outputFiles (base : Nat) (outs : List CompactionOutput) : List (Nat × SstFile) :=
  (outs.zipIdx base).map (fun o => (o.2, o.1.blocks))

def flushNames (env : Platform) (e : Engine) : List Nat :=
  (flushResult env e).files.map Prod.fst

def compactNames (env : Platform) (e : Engine) (order : IterOrder) (force : Bool) : List Nat :=
  if (order.order e.sstRegistry.toList).length < (if force then 1 else 2) then []
  else (outputFiles e.nextBlockId (compactOutputs env e order)).map Prod.fst

/-- The names an operation gives to new files, with the engine at that time. A flush may
be followed by a compaction. -/
def draws (env : Platform) (e : Engine) : Op → List (Engine × List Nat)
  | .flush order =>
    if e.memtableMgr.active.iterAll = [] then []
    else (e, flushNames env e) :: (e.flushActive env).toList.flatMap (fun flushed =>
      if flushed.bgWorkerActive then []
      else if flushed.sstRegistry.size < flushed.config.l0CompactionTrigger then []
      else [(flushed, compactNames env flushed order false)])
  | .compact order => [(e, compactNames env e order false)]
  | .forceCompact order => [(e, compactNames env e order true)]
  | _ => []

/-- The names are new, and no two of them are the same. -/
def FreshNames (drawn : Engine × List Nat) : Prop :=
  drawn.2.Nodup ∧ ∀ n ∈ drawn.2, n ∉ drawn.1.registeredPaths

instance (drawn : Engine × List Nat) : Decidable (FreshNames drawn) :=
  inferInstanceAs (Decidable (drawn.2.Nodup ∧ ∀ n ∈ drawn.2, n ∉ drawn.1.registeredPaths))

theorem map_fst_outputFiles (base : Nat) (outs : List CompactionOutput) :
    (outputFiles base outs).map Prod.fst = List.range' base outs.length := by
  rw [outputFiles, List.map_map]
  exact List.zipIdx_map_snd base outs

section Completed

variable {env : Platform} {e e' : Engine}

variable {rows : List (Bytes × Bytes)} {config : EngineConfig} {order : IterOrder}
  {key value : Bytes}

theorem applyPut_eq_some {ts : Timestamp} (h : e.applyPut env key value ts = some e') :
    ∃ art, e' = { e with
      memtableMgr := { e.memtableMgr with
        active := (e.memtableMgr.active.put key ts (some value)).1 }
      art := art } := by
  obtain ⟨art, _, rfl⟩ := map_eq_some_iff.mp h
  exact ⟨art, rfl⟩

theorem putSync_eq_some (h : step env e (.put key value) = some e') : ∃ art, e' = { e with
      nextTimestamp := e.nextTimestamp + 1
      wal := e.wal.append env.toWalCodec .rowPut (encodeKv key value)
      memtableMgr := { e.memtableMgr with
        active := (e.memtableMgr.active.put key e.nextTimestamp (some value)).1 }
      art := art
      rowCount := e.rowCount + 1 } := by
  obtain ⟨⟨e1, ts⟩, put, rfl⟩ := map_eq_some_iff.mp h
  obtain ⟨e2, applied, eq⟩ := map_eq_some_iff.mp put
  obtain ⟨art, rfl⟩ := applyPut_eq_some applied
  cases eq
  exact ⟨art, rfl⟩

/-- What one row of a batch keeps, the whole batch keeps. -/
theorem applyBatch_induction {P : List (Bytes × Bytes) → Engine → Prop}
    (next : ∀ done e key value art, P done e → P (done ++ [(key, value)]) { e with
      nextTimestamp := e.nextTimestamp + 1
      memtableMgr := { e.memtableMgr with
        active := (e.memtableMgr.active.put key e.nextTimestamp (some value)).1 }
      art := art }) (h : e.applyBatch env rows = some e') (start : P [] e) : P rows e' := by
  have from_any : ∀ rows done e, P done e → applyBatch env e rows = some e' →
      P (done ++ rows) e' := by
    intro rows
    induction rows with
    | nil =>
      intro done e start h
      cases h
      simpa using start
    | cons row rest ih =>
      intro done e start h
      obtain ⟨e1, first, later⟩ := bind_eq_some_iff.mp h
      obtain ⟨art, rfl⟩ := applyPut_eq_some first
      rw [List.append_cons]
      exact ih (done ++ [row]) _ (next done e row.1 row.2 art start) later
  exact from_any rows [] e start h

theorem putBatchSync_eq_some (h : step env e (.putBatch rows) = some e') :
    (rows = [] ∧ e' = e) ∨ (rows ≠ [] ∧ ∃ e1, applyBatch env { e with
        wal := e.wal.append env.toWalCodec .rowPut (encodeBatch rows) } rows = some e1 ∧
      e' = { e1 with rowCount := e1.rowCount + rows.length }) := by
  obtain ⟨⟨e1, n⟩, put, rfl⟩ := map_eq_some_iff.mp h
  unfold putBatchSync at put
  by_cases empty : rows = []
  · rw [if_pos empty] at put
    cases put
    exact Or.inl ⟨empty, rfl⟩
  · rw [if_neg empty] at put
    obtain ⟨e2, applied, eq⟩ := map_eq_some_iff.mp put
    cases eq
    exact Or.inr ⟨empty, e2, applied, rfl⟩

theorem foldl_registerNext_with (files : List (Nat × SstFile)) (e : Engine)
    (art : ArtIndex RowLocation) (n : Nat) :
    files.foldl registerNext { e with art := art, nextBlockId := n } =
      { files.foldl registerNext e with art := art, nextBlockId := n } := by
  induction files generalizing e with
  | nil => rfl
  | cons f rest ih => exact ih (e.registerNext f)

/-- The outputs of a compaction are registered one by one; only the index differs. -/
theorem commitOutputs_eq_some {ids : List Nat} {outs : List CompactionOutput}
    (h : outs.foldlM (commitOutput ids) e = some e') :
    ∃ art, e' = { (outputFiles e.nextBlockId outs).foldl registerNext e with
      art := art
      nextBlockId := e.nextBlockId + outs.length } := by
  induction outs generalizing e with
  | nil => exact ⟨e.art, (some.inj h).symm⟩
  | cons out rest ih =>
    obtain ⟨e1, first, later⟩ := bind_eq_some_iff.mp h
    obtain ⟨art1, _, rfl⟩ := map_eq_some_iff.mp first
    obtain ⟨art, rfl⟩ := ih later
    refine ⟨art, ?_⟩
    have rest_eq := foldl_registerNext_with (outputFiles (e.nextBlockId + 1) rest)
      (e.registerNext (e.nextBlockId, out.blocks)) art1 (e.nextBlockId + 1)
    have count : e.nextBlockId + 1 + rest.length = e.nextBlockId + (out :: rest).length := by
      rw [List.length_cons]
      omega
    rw [← count]
    exact congrArg (fun x : Engine => { x with
      art := art
      nextBlockId := e.nextBlockId + 1 + rest.length }) rest_eq

theorem compactInner_eq_some {force : Bool} (h : e.compactInner env order force = some e') :
    ((order.order e.sstRegistry.toList).length < (if force then 1 else 2) ∧ e' = e) ∨
      (¬ (order.order e.sstRegistry.toList).length < (if force then 1 else 2) ∧
        ∃ written art, written = (outputFiles e.nextBlockId (compactOutputs env e order)).foldl
            registerNext e ∧
          e' = ({ written with
            art := art
            nextBlockId := e.nextBlockId + (compactOutputs env e order).length } : Engine).dropFiles
              (order.order e.sstRegistry.toList)) := by
  rw [compactInner_eq] at h
  by_cases few : (order.order e.sstRegistry.toList).length < if force then 1 else 2
  · rw [if_pos few] at h
    cases h
    exact Or.inl ⟨few, rfl⟩
  · rw [if_neg few] at h
    obtain ⟨e1, committed, rfl⟩ := map_eq_some_iff.mp h
    obtain ⟨art, rfl⟩ := commitOutputs_eq_some committed
    exact Or.inr ⟨few, _, art, rfl, rfl⟩

theorem flushActive_eq_some (entries : e.memtableMgr.active.iterAll ≠ [])
    (h : e.flushActive env = some e') :
    ∃ art, e' = { flushRegistered env e with
      art := art
      memtableMgr := (flushRegistered env e).memtableMgr.sealActive.onFlushComplete
        e.memtableMgr.active.size } := by
  rw [flushActive_eq env (files_flushResult_ne_nil env entries)] at h
  obtain ⟨art, _, rfl⟩ := map_eq_some_iff.mp h
  exact ⟨art, rfl⟩

theorem flushMemtable_eq_some (h : step env e (.flush order) = some e') :
    (e.memtableMgr.active.iterAll = [] ∧ e' = e) ∨
      (e.memtableMgr.active.iterAll ≠ [] ∧ ∃ flushed, e.flushActive env = some flushed ∧
        (e' = flushed ∨ (flushed.bgWorkerActive = false ∧
          ¬ flushed.sstRegistry.size < flushed.config.l0CompactionTrigger ∧
          flushed.compactInner env order false = some e'))) := by
  obtain ⟨⟨e1, n⟩, flush, rfl⟩ := map_eq_some_iff.mp h
  simp only [flushMemtable] at flush
  by_cases empty : e.memtableMgr.active.iterAll = []
  · rw [if_pos empty] at flush
    cases flush
    exact Or.inl ⟨empty, rfl⟩
  · rw [if_neg empty] at flush
    obtain ⟨flushed, active, later⟩ := bind_eq_some_iff.mp flush
    obtain ⟨e2, compacted, eq⟩ := map_eq_some_iff.mp later
    cases eq
    refine Or.inr ⟨empty, flushed, active, ?_⟩
    cases bg : flushed.bgWorkerActive with
    | true =>
      rw [bg, if_pos rfl] at compacted
      exact Or.inl (some.inj compacted).symm
    | false =>
      rw [bg, if_neg Bool.false_ne_true, maybeCompact] at compacted
      split at compacted
      · exact Or.inl (some.inj compacted).symm
      · next many => exact Or.inr ⟨rfl, many, compacted⟩

theorem new_eq_some {dir : DataDir} (h : Engine.new env config dir = some e) :
    ∃ wal s, WalWriter.new env.toWalCodec dir.wal = .ok wal ∧
      ((Wal.recoverWal env.toWalCodec wal.file).toOption.getD []).foldlM (replayRecord env)
        ⟨Memtable.new config.memtableSizeBytes, ArtIndex.new, 1, 0⟩ = some s ∧
      e = reopened config wal dir.files s := by
  unfold Engine.new at h
  cases log : WalWriter.new env.toWalCodec dir.wal with
  | error err =>
    rw [log] at h
    cases h
  | ok wal =>
    rw [log] at h
    obtain ⟨s, replay, rfl⟩ := map_eq_some_iff.mp h
    exact ⟨wal, s, rfl, replay, rfl⟩

/-- A restart on a log of which every record is known. -/
theorem restart_eq_some (lossless : env.toWalCodec.Lossless) {records : List WalRecord}
    (holds : Wal.Holds env.toWalCodec e.wal records)
    (fits : ∀ r ∈ records, WalRecord.Fits env.toWalCodec r.payload)
    (clean : Wal.afterCheckpoint (records.map WalRecord.stored) = records.map WalRecord.stored)
    (sameProcess : Bool) {s : ReplayState}
    (replay : (records.map WalRecord.stored).foldlM (replayRecord env)
      ⟨Memtable.new config.memtableSizeBytes, ArtIndex.new, 1, 0⟩ = some s) :
    ∃ wal, advance env e (.restart config sameProcess) = some { reopened config wal e.files s with
        nextBlockId := if sameProcess then e.nextBlockId else 1 } := by
  obtain ⟨wal, new⟩ := new_close lossless holds fits clean config
  refine ⟨wal, ?_⟩
  rw [replay] at new
  simp only [advance, new, map_some]
  rfl

end Completed

end Engine

end GalaxDb
