import GalaxDb.Storage.MapRefinement
import Mathlib.Data.List.TakeWhile

/-!
# Restart

Every row that was put or deleted is in the log, and a restart replays the log from its
beginning into the memtable, where it hides what the files say. So a restart shows the
contents of the engine again, provided that every record decodes to the row it was
written for.
-/

namespace GalaxDb

open Row Compaction List

namespace Engine

/-- The payload of a put decodes to its row, unless the key length overflows its field. -/
theorem decodeKv_encodeKv {key : Bytes} (h : key.length < 2 ^ 32) (value : Bytes) :
    decodeKv (encodeKv key value) = some (key, value) := by
  have len : Bytes.ofLe ((encodeKv key value).take 4) = key.length := by
    have front : (encodeKv key value).take 4 = Bytes.toLe 4 key.length := by
      rw [encodeKv, append_assoc]
      exact take_left' (by simp)
    rw [front]
    exact Bytes.ofLe_toLe_of_lt (by simpa using h)
  have size : (encodeKv key value).length = 4 + key.length + value.length := by
    simp [encodeKv, Nat.add_assoc]
  have rest : (encodeKv key value).drop 4 = key ++ value := by
    rw [encodeKv, append_assoc]
    exact drop_left' (by simp)
  have short : ¬ (encodeKv key value).length < 4 := by omega
  have whole : ¬ (encodeKv key value).length < 4 + key.length := by omega
  rw [decodeKv, if_neg short]
  simp only [len, if_neg whole, rest, ← drop_drop, take_left, drop_left]

/-- The record of a write. -/
def recordOf (w : Bytes × Option Bytes) (seqNo : Nat) : WalRecord :=
  match w.2 with
  | some value => ⟨.rowPut, seqNo, encodeKv w.1 value⟩
  | none => ⟨.rowDelete, seqNo, w.1⟩

/-- The length fields of the record of a write do not overflow. -/
def Loggable (codec : WalCodec) (w : Bytes × Option Bytes) : Prop :=
  w.1.length < 2 ^ 32 ∧ WalRecord.Fits codec (recordOf w 0).payload

theorem payload_recordOf (w : Bytes × Option Bytes) (n : Nat) :
    (recordOf w n).payload = (recordOf w 0).payload := by
  unfold recordOf
  cases w.2 <;> rfl

section Replay

variable {env : Platform}

/-- Memtable and index after the records of these writes. -/
structure Replayed (s : ReplayState) (log : List (Bytes × Option Bytes)) : Prop where
  unsealed : s.active.isSealed = false
  wf : s.art.WF
  index : ∀ k, s.art.lookup k ≠ none → k ∈ log.map Prod.fst
  value : ∀ k : Bytes, (s.active.map[k]?).map VersionedValue.value = WriteLog.lastWrite log k

theorem replayed_nil (sealThreshold : Nat) :
    Replayed ⟨Memtable.new sealThreshold, ArtIndex.new, 1, 0⟩ [] where
  unsealed := rfl
  wf := ArtIndex.wf_new
  index k h := absurd rfl h
  value k := by simp [Memtable.new, WriteLog.lastWrite]

variable {log : List (Bytes × Option Bytes)} {records : List WalRecord}

variable {s : ReplayState}

theorem replayRecord_spec (h : Replayed s log) {w : Bytes × Option Bytes}
    (short : w.1.length < 2 ^ 32) (apart : ∀ k ∈ log.map Prod.fst, ¬ Clash w.1 k) (seqNo : Nat) :
    ∃ s', replayRecord env s (recordOf w seqNo) = some s' ∧ Replayed s' (log ++ [w]) := by
  obtain ⟨key, value⟩ := w
  obtain ⟨art, eq, wf, look⟩ := ArtIndex.lookup_insert h.wf (memtableLocation env key)
    fun k hk => apart k (h.index k hk)
  have index : ∀ k, art.lookup k ≠ none → k ∈ (log ++ [(key, value)]).map Prod.fst := by
    intro k hk
    rw [map_append, mem_append]
    by_cases same : k = key
    · exact Or.inr (by simp [same])
    · rw [look, if_neg same] at hk
      exact Or.inl (h.index k hk)
  have found : ∀ k : Bytes, ((s.active.put key s.nextTs value).1.map[k]?).map
      VersionedValue.value = WriteLog.lastWrite (log ++ [(key, value)]) k := by
    intro k
    rw [Memtable.getElem?_put h.unsealed, WriteLog.lastWrite_snoc]
    by_cases same : key = k
    · simp [same]
    · simp [same, h.value k]
  have unsealed := (Memtable.isSealed_put s.active key s.nextTs value).trans h.unsealed
  cases value with
  | some v =>
    refine ⟨⟨(s.active.put key s.nextTs (some v)).1, art, s.nextTs + 1, s.replayedPuts + 1⟩, ?_,
      unsealed, wf, index, found⟩
    simp only [replayRecord, recordOf, decodeKv_encodeKv short, eq, Option.map_some]
  | none =>
    refine ⟨⟨(s.active.put key s.nextTs none).1, art, s.nextTs + 1, s.replayedPuts⟩, ?_,
      unsealed, wf, index, found⟩
    simp only [replayRecord, recordOf, eq, Option.map_some]

/-- The records of a log of writes, whatever their sequence numbers. -/
def Records (records : List WalRecord) (log : List (Bytes × Option Bytes)) : Prop :=
  List.Forall₂ (fun r w => ∃ seqNo, r = recordOf w seqNo) records log

theorem replay_spec (env : Platform) {seen : List (Bytes × Option Bytes)} (h : Replayed s seen)
    (rs : Records records log) (short : ∀ w ∈ log, w.1.length < 2 ^ 32)
    (apart : ∀ k ∈ (seen ++ log).map Prod.fst, ∀ k' ∈ (seen ++ log).map Prod.fst, ¬ Clash k k') :
    ∃ s', records.foldlM (replayRecord env) s = some s' ∧ Replayed s' (seen ++ log) := by
  induction rs generalizing s seen with
  | nil => exact ⟨s, rfl, by simpa using h⟩
  | @cons r w records log first _ ih =>
    obtain ⟨seqNo, rfl⟩ := first
    rw [append_cons] at apart
    have here : ∀ k ∈ seen.map Prod.fst, ¬ Clash w.1 k := by
      intro k hk
      refine apart w.1 (by simp) k ?_
      rw [map_append, map_append]
      exact mem_append_left _ (mem_append_left _ hk)
    obtain ⟨s1, eq, h1⟩ := replayRecord_spec h (short w mem_cons_self) here seqNo
    obtain ⟨s2, eq2, h2⟩ := ih h1 (fun w hw => short w (mem_cons_of_mem _ hw)) apart
    refine ⟨s2, ?_, by rwa [append_cons]⟩
    rw [foldlM_cons, eq]
    exact eq2

theorem records_stored (h : Records records log) : Records (records.map WalRecord.stored) log := by
  induction h with
  | nil => exact List.Forall₂.nil
  | @cons r w _ _ first _ ih =>
    obtain ⟨seqNo, rfl⟩ := first
    refine List.Forall₂.cons ⟨seqNo % 2 ^ 64, ?_⟩ ih
    unfold recordOf WalRecord.stored
    cases w.2 <;> rfl

/-- The engine writes no checkpoint, so recovery starts at the beginning. -/
theorem afterCheckpoint_records (h : Records records log) :
    Wal.afterCheckpoint records = records := by
  have none_found : ∀ r ∈ records.reverse, decide (r.recordType ≠ .checkpoint) = true := by
    intro r hr
    rw [mem_reverse] at hr
    obtain ⟨w, _, seqNo, rfl⟩ := exists_mem_zip h r hr
    unfold recordOf
    cases w.2 <;> rfl
  rw [Wal.afterCheckpoint, takeWhile_eq_self_iff.mpr none_found, reverse_reverse]

end Replay

section Log

variable {env : Platform} {e e' : Engine} {log : List (Bytes × Option Bytes)}

/-- The log holds the records of some writes that leave the contents of the engine behind,
and it names every key in the memtable and the files. A delete that found nothing is not
among them. -/
structure Logged (env : Platform) (e : Engine) (log : List (Bytes × Option Bytes)) : Prop where
  written : e.Written log
  stored : ∃ records logged, Wal.Holds env.toWalCodec e.wal records ∧ Records records logged ∧
    WriteLog.contents logged = WriteLog.contents log ∧
    (∀ w ∈ logged, w ∈ log) ∧
    (∀ k : Bytes, e.memtableMgr.active.map[k]? ≠ none → k ∈ logged.map Prod.fst) ∧
    ∀ r ∈ e.storedRows, r.key ∈ logged.map Prod.fst

theorem wal_fresh (env : Platform) (config : EngineConfig) :
    Wal.Holds env.toWalCodec (fresh env config).wal [] := by
  obtain ⟨w, eq, holds⟩ : ∃ w, WalWriter.new env.toWalCodec [] = .ok w ∧
      Wal.Holds env.toWalCodec w [] := Wal.holds_new
  have wal : (fresh env config).wal = w := by simp [fresh, eq, Except.toOption]
  exact wal ▸ holds

theorem logged_fresh (env : Platform) (config : EngineConfig) :
    Logged env (fresh env config) [] := by
  refine ⟨written_fresh env config, [], [], wal_fresh env config, List.Forall₂.nil, rfl, by simp,
    ?_, ?_⟩
  · exact fun k hk => absurd (by simp [fresh, MemtableManager.new, Memtable.new]) hk
  · have rows : (fresh env config).storedRows = [] := storedRows_eq_nil rfl
    simp [rows]

/-- A write that is logged before it reaches the memtable. -/
theorem Logged.pushed (h : Logged env e log) {key : Bytes} {value : Option Bytes}
    (p : Pushed e e' key e.nextTimestamp value) (written : e'.Written (log ++ [(key, value)]))
    (wal : e'.wal = e.wal.append env.toWalCodec (recordOf (key, value) 0).recordType
      (recordOf (key, value) 0).payload) : Logged env e' (log ++ [(key, value)]) := by
  obtain ⟨records, logged, holds, rs, contents, inside, buffered, stored⟩ := h.stored
  have record : (⟨(recordOf (key, value) 0).recordType, e.wal.nextSeqNo,
      (recordOf (key, value) 0).payload⟩ : WalRecord) = recordOf (key, value) e.wal.nextSeqNo := by
    cases value <;> rfl
  refine ⟨written, records ++ [recordOf (key, value) e.wal.nextSeqNo], logged ++ [(key, value)],
    ?_, ?_, ?_, ?_, ?_, ?_⟩
  · rw [wal, ← record]
    exact Wal.holds_append holds _ _
  · exact rel_append rs (List.Forall₂.cons ⟨_, rfl⟩ List.Forall₂.nil)
  · rw [WriteLog.contents_snoc, WriteLog.contents_snoc, contents]
  · intro w hw
    rcases mem_append.mp hw with hw | hw
    · exact mem_append_left _ (inside w hw)
    · exact mem_append_right _ hw
  · intro k hk
    rw [p.buffered h.written.holds.contains.unsealed] at hk
    rw [map_append, mem_append]
    split at hk
    · rename_i same
      exact Or.inr (by simp [same])
    · exact Or.inl (buffered k hk)
  · rw [storedRows_congr p.registry p.files]
    intro r hr
    rw [map_append]
    exact mem_append_left _ (stored r hr)

theorem Logged.flushed (h : Logged env e log) (f : Flushed e e') : Logged env e' log := by
  obtain ⟨records, logged, holds, rs, contents, inside, buffered, stored⟩ := h.stored
  refine ⟨h.written.flushed f, records, logged, f.settings.wal ▸ holds, rs, contents, inside,
    ?_, ?_⟩
  · intro k hk
    rw [f.active] at hk
    simp [Memtable.new] at hk
  · intro r hr
    rcases (h.written.holds.contains.mem_flushed f r).mp hr with old | ⟨v, hv, _⟩
    · exact stored r old
    · exact buffered r.key (by simp [hv])

theorem Logged.compacted (h : Logged env e log) {order : IterOrder} (c : Compacted e e' order) :
    Logged env e' log := by
  obtain ⟨records, logged, holds, rs, contents, inside, buffered, stored⟩ := h.stored
  refine ⟨h.written.compacted c, records, logged, c.same.wal ▸ holds, rs, contents, inside,
    c.same.memtableMgr ▸ buffered, ?_⟩
  exact fun r hr => stored r (compacted_subset c hr)

/-- The operation is no batch with rows in it. -/
def Op.NoBatch : Op → Prop
  | .putBatch rows => rows = []
  | _ => True

/-- Each operation logs what it writes. -/
theorem Logged.step (h : Logged env e log) {op : Op} (values : op.NonemptyValues)
    (apart : e.NoClash op) (single : op.NoBatch) :
    ∃ e', step env e op = some e' ∧ Logged env e' (log ++ op.writes) := by
  have contains : e.Contains _ := h.written.holds
  have compaction : ∀ order force,
      ∃ e', e.compactInner env order force = some e' ∧ Logged env e' (log ++ []) := by
    intro order force
    rw [append_nil]
    obtain ⟨e', eq, rfl | compacted⟩ :=
      compactInner_spec env contains.sst contains.wf contains.distinct order force
    · exact ⟨e', eq, h⟩
    · exact ⟨e', eq, h.compacted compacted⟩
  cases op with
  | put key value =>
    obtain ⟨e', eq, put, wal⟩ :=
      putSync_spec env contains.wf value (apart.index key mem_cons_self)
    have nonempty : value ≠ [] :=
      fun empty => values (key, some value) mem_cons_self (by rw [empty])
    refine ⟨e', by simp [Engine.step, eq], ?_⟩
    exact h.pushed put.toPushed ((preserved_written env).put h.written nonempty put) wal
  | putBatch rows =>
    have empty : rows = [] := single
    exact ⟨e, by simp [Engine.step, putBatchSync, empty], by simpa [Op.writes, empty] using h⟩
  | delete key =>
    rcases deleteSync_spec env contains.wf key with ⟨missing, eq⟩ | ⟨_, e', eq, deleted, wal⟩
    · refine ⟨e, by simp [Engine.step, eq], (preserved_written env).skip h.written missing, ?_⟩
      obtain ⟨records, logged, holds, rs, contents, inside, rest⟩ := h.stored
      have absent : WriteLog.contents log key = none := by
        by_contra present
        exact contains.indexed key present missing
      refine ⟨records, logged, holds, rs, ?_, ?_, rest⟩
      · rw [Op.writes, WriteLog.contents_snoc, WriteLog.write_of_eq absent, contents]
      · exact fun w hw => mem_append_left _ (inside w hw)
    · refine ⟨e', by simp [Engine.step, eq], ?_⟩
      exact h.pushed deleted.toPushed ((preserved_written env).delete h.written deleted) wal
  | flush order =>
    obtain ⟨e', n, eq, what⟩ := flushMemtable_spec env contains order apart
    refine ⟨e', by simp [Engine.step, eq], ?_⟩
    change Logged env e' (log ++ [])
    rw [append_nil]
    rcases what with rfl | ⟨e1, flushed, rfl | ⟨_, compacted⟩⟩
    · exact h
    · exact h.flushed flushed
    · exact (h.flushed flushed).compacted compacted
  | compact order => exact compaction order false
  | forceCompact order => exact compaction order true
  | configure pins bg columnar =>
    refine ⟨_, rfl, ?_⟩
    change Logged env _ (log ++ [])
    rw [append_nil]
    exact ⟨(preserved_written env).store h.written ⟨rfl, rfl, rfl, rfl, rfl, rfl, rfl⟩, h.stored⟩

end Log

section Reopen

variable {env : Platform} {e : Engine} {log : List (Bytes × Option Bytes)}

/-- A new process registers exactly the files that were registered before. -/
theorem fileOf_discover {e' : Engine} (registry : e'.sstRegistry = discover e.files)
    (files : e'.files = e.files) (id : Nat) : e'.fileOf id = e.files[id]? := by
  rw [fileOf, registry, files, discover, Std.ExtTreeMap.getElem?_map]
  cases h : e.files[id]? with
  | none => rfl
  | some f => simp [h]

theorem mem_storedRows_discover (inv : e.SstInv) {e' : Engine}
    (registry : e'.sstRegistry = discover e.files) (files : e'.files = e.files)
    (x : Row Bytes Bytes) : x ∈ e'.storedRows ↔ x ∈ e.storedRows := by
  have same : ∀ r, r ∈ e'.sstRows ↔ r ∈ e.sstRows := by
    intro r
    rw [mem_sstRows_iff, mem_sstRows_iff]
    constructor
    · rintro ⟨id, f, hf, hr⟩
      rw [fileOf_discover registry files] at hf
      obtain ⟨id', he⟩ := inv.registered id f hf
      exact ⟨id', f, fileOf_eq_some.mpr ⟨_, he, hf⟩, hr⟩
    · rintro ⟨id, f, hf, hr⟩
      obtain ⟨entry, _, hf⟩ := fileOf_eq_some.mp hf
      exact ⟨entry.path, f, by rw [fileOf_discover registry files]; exact hf, hr⟩
  simp only [storedRows, mem_map, same]

/-- The engine that opening builds around the replayed state. -/
def reopened (config : EngineConfig) (wal : WalWriter)
    (files : Std.ExtTreeMap Nat SstFile compare) (s : ReplayState) : Engine where
  config := config
  memtableMgr := { MemtableManager.new config.memtableSizeBytes with active := s.active }
  art := s.art
  wal := wal
  sstRegistry := discover files
  nextTimestamp := max s.nextTs 1
  nextSstId := max (files.toList.foldl (fun m f => max m f.1) 0 + 1) 1
  rowCount := s.replayedPuts
  pinSource := []
  bgWorkerActive := false
  columnar := []
  files := files
  nextBlockId := 1

/-- Opening replays every record of a log that has no checkpoint. -/
theorem new_close (lossless : env.toWalCodec.Lossless) {records : List WalRecord}
    (holds : Wal.Holds env.toWalCodec e.wal records)
    (fits : ∀ r ∈ records, WalRecord.Fits env.toWalCodec r.payload)
    (clean : Wal.afterCheckpoint (records.map WalRecord.stored) = records.map WalRecord.stored)
    (config : EngineConfig) :
    ∃ wal, Engine.new env config e.close = ((records.map WalRecord.stored).foldlM
      (replayRecord env) ⟨Memtable.new config.memtableSizeBytes, ArtIndex.new, 1, 0⟩).map
        (reopened config wal e.files) := by
  obtain ⟨wal, opened, holds'⟩ := Wal.holds_reopen lossless holds fits
  have recovered : Wal.recoverWal env.toWalCodec wal.file = .ok (records.map WalRecord.stored) := by
    rw [Wal.recoverWal_of_holds lossless holds' fits, clean]
  refine ⟨wal, ?_⟩
  simp only [Engine.new, close, opened, recovered, Except.toOption, Option.getD_some]
  rfl

/-- The reopened engine shows the rows of the closed one. -/
theorem Logged.reopen (h : Logged env e log) (lossless : env.toWalCodec.Lossless)
    (loggable : ∀ w ∈ log, Loggable env.toWalCodec w)
    (apart : ∀ k ∈ log.map Prod.fst, ∀ k' ∈ log.map Prod.fst, ¬ Clash k k')
    (config : EngineConfig) :
    ∃ e', Engine.new env config e.close = some e' ∧
      ∀ order order', e'.scanAll order' = e.scanAll order := by
  have contains : e.Contains _ := h.written.holds
  obtain ⟨records, logged, holds, rs, contents, inside, _, stored⟩ := h.stored
  have fits : ∀ r ∈ records, WalRecord.Fits env.toWalCodec r.payload := by
    intro r hr
    obtain ⟨w, hw, seqNo, rfl⟩ := exists_mem_zip rs r hr
    rw [payload_recordOf]
    exact (loggable w (inside w (of_mem_zip hw).2)).2
  obtain ⟨wal, new⟩ :=
    new_close lossless holds fits (afterCheckpoint_records (records_stored rs)) config
  have keys : ∀ k ∈ logged.map Prod.fst, k ∈ log.map Prod.fst := by
    intro k hk
    obtain ⟨w, hw, rfl⟩ := mem_map.mp hk
    exact mem_map_of_mem (inside w hw)
  obtain ⟨s, replayed, state⟩ := replay_spec env (replayed_nil config.memtableSizeBytes)
    (records_stored rs) (fun w hw => (loggable w (inside w hw)).1)
    (fun k hk k' hk' => apart k (keys k hk) k' (keys k' hk'))
  rw [nil_append] at state
  rw [replayed, Option.map_some] at new
  generalize he' : reopened config wal e.files s = e' at new
  have active : e'.memtableMgr.active = s.active := by rw [← he']; rfl
  have registry : e'.sstRegistry = discover e.files := by rw [← he']; rfl
  have files : e'.files = e.files := by rw [← he']; rfl
  have rows := mem_storedRows_discover contains.sst registry files
  have readable : e'.Readable := by
    refine readable_of (contains.distinct.sublist fun x => (rows x).mp) ?_
    intro id f hf
    rw [fileOf_discover registry files] at hf
    obtain ⟨id', he⟩ := contains.sst.registered id f hf
    exact contains.zoned id' f (fileOf_eq_some.mpr ⟨_, he, hf⟩)
  have current : ∀ k v, e'.Current k v ↔ WriteLog.contents log k = some v := by
    intro k v
    rw [← contents, WriteLog.contents_eq, ← state.value k, ← active]
    unfold Current
    cases found : e'.memtableMgr.active.map[k]? with
    | some versioned => simp
    | none =>
      have unlogged : k ∉ logged.map Prod.fst := by
        rw [← WriteLog.lastWrite_ne_none_iff, ← state.value k, ← active, found]
        simp
      simp only [Option.map_none, Option.join_none, reduceCtorEq, iff_false]
      rintro ⟨t, newest⟩
      exact unlogged (stored _ ((rows _).mp newest.1))
  refine ⟨e', new, fun order order' => ?_⟩
  refine Bytes.eq_of_ordered_of_mem_iff Prod.fst (e'.scanAllWithPrefix_ordered order' none)
    (e.scanAllWithPrefix_ordered order none) ?_
  rintro ⟨k, v⟩
  exact ((mem_scanAll readable order').trans (current k v)).trans
    ((mem_scanAll contains.readable order).trans contains.current_iff).symm

/-- A run without batches, with keys that do not clash and records that fit their length
fields: the engine opens again and shows the same rows. -/
theorem scanAll_reopen (env : Platform) (lossless : env.toWalCodec.Lossless)
    (config config' : EngineConfig) (ops : List Op) (values : ∀ op ∈ ops, op.NonemptyValues)
    (single : ∀ op ∈ ops, op.NoBatch)
    (loggable : ∀ w ∈ ops.flatMap Op.writes, Loggable env.toWalCodec w)
    (apart : ∀ k ∈ (ops.flatMap Op.writes).map Prod.fst,
      ∀ k' ∈ (ops.flatMap Op.writes).map Prod.fst, ¬ Clash k k') :
    ∃ e e', Run.run (step env) (fresh env config) ops = some e ∧
      Engine.new env config' e.close = some e' ∧
      (∀ order order', e'.scanAll order' = e.scanAll order) ∧
      ∀ key value, .put key value ∈ ops → decodeKv (encodeKv key value) = some (key, value) := by
  have along : Run.Along (step env) (fun e op => (op.NonemptyValues ∧ op.NoBatch) ∧ e.NoClash op)
      (fresh env config) ops :=
    (Run.along_of_forall _ fun op hop => ⟨values op hop, single op hop⟩).and
      (along_noClash (written_fresh env config) values apart)
  have next : ∀ e log op, Logged env e log → ((op.NonemptyValues ∧ op.NoBatch) ∧ e.NoClash op) →
        ∃ e', step env e op = some e' ∧ Logged env e' (log ++ op.writes) :=
    fun e log op h ok => h.step ok.1.1 ok.2 ok.1.2
  obtain ⟨e, run, logged⟩ := Run.simulation _ next (logged_fresh env config) along
  rw [foldl_append_eq_append, nil_append] at logged
  obtain ⟨e', new, scans⟩ := logged.reopen lossless loggable apart config'
  refine ⟨e, e', run, new, scans, fun key value hop => decodeKv_encodeKv ?_ value⟩
  exact (loggable (key, some value) (mem_flatMap.mpr ⟨_, hop, mem_cons_self⟩)).1

theorem lossless_plain : Platform.plain.toWalCodec.Lossless := fun _ => rfl

theorem scanAll_reopen_flushed_delete :
    let ops : List Op := [.put [97] [49], .put [98] [50], .flush .byId, .delete [97],
      .flush .byId, .compact .byId]
    ∃ e e', Run.run (step .plain) (fresh .plain .default) ops = some e ∧
      Engine.new .plain .default e.close = some e' ∧
      ∀ order order', e'.scanAll order' = e.scanAll order := by
  intro ops
  have values : ∀ op ∈ ops, op.NonemptyValues := by simp [ops, Op.NonemptyValues, Op.writes]
  have single : ∀ op ∈ ops, op.NoBatch := by simp [ops, Op.NoBatch]
  have loggable : ∀ w ∈ ops.flatMap Op.writes, Loggable Platform.plain.toWalCodec w := by
    simp [ops, Op.writes, Loggable, WalRecord.Fits, recordOf, Platform.plain, encodeKv]
  obtain ⟨e, e', run, new, scans, _⟩ := scanAll_reopen .plain lossless_plain .default .default ops
    values single loggable (by decide)
  exact ⟨e, e', run, new, scans⟩

/-- The payload of a batch starts with its row count, which the replay takes for the length
of a key. -/
theorem scanAll_reopen_batch :
    ∃ e e', Run.run (step .plain) (fresh .plain .default) [.putBatch [([97], [49])]] = some e ∧
      Engine.new .plain .default e.close = some e' ∧ e.scanAll .byId = [([97], [49])] ∧
      e'.scanAll .byId = [([1], [0, 0, 0, 97, 1, 0, 0, 0, 49])] := by
  obtain ⟨e, run, wal, files⟩ : ∃ e, Run.run (step .plain) (fresh .plain .default)
      [.putBatch [([97], [49])]] = some e ∧ e.wal = (fresh .plain .default).wal.append
        Platform.plain.toWalCodec .rowPut (encodeBatch [([97], [49])]) ∧ e.files = ∅ :=
    ⟨_, rfl, rfl, rfl⟩
  have holds : Wal.Holds Platform.plain.toWalCodec e.wal
      [⟨.rowPut, (fresh .plain .default).wal.nextSeqNo, encodeBatch [([97], [49])]⟩] :=
    wal ▸ Wal.holds_append (wal_fresh .plain .default) _ _
  obtain ⟨wal', new⟩ := new_close lossless_plain holds
    (by simp [WalRecord.Fits, Platform.plain, encodeBatch]) rfl .default
  let start : ReplayState :=
    ⟨Memtable.new EngineConfig.default.memtableSizeBytes, ArtIndex.new, 1, 0⟩
  let replayed : ReplayState :=
    ⟨(start.active.put [1] 1 (some [0, 0, 0, 97, 1, 0, 0, 0, 49])).1,
      ⟨some (.leaf [1] (memtableLocation .plain [1])), 1⟩, 2, 1⟩
  have replay : ∀ seqNo, [(⟨.rowPut, seqNo, encodeBatch [([97], [49])]⟩ : WalRecord)].foldlM
      (replayRecord .plain) start = some replayed := fun _ => rfl
  have before : (Run.run (step .plain) (fresh .plain .default) [.putBatch [([97], [49])]]).map
      (fun e => e.scanAll .byId) = some [([97], [49])] := by decide +kernel
  rw [run, Option.map_some, Option.some.injEq] at before
  refine ⟨e, reopened .default wal' e.files replayed, run, ?_, before, ?_⟩
  · rw [new]
    exact congrArg (Option.map (reopened .default wal' e.files)) (replay _)
  · rw [files]
    have after : (reopened .default ⟨[], 0, 0, 1⟩ ∅ replayed).scanAll .byId =
        [([1], [0, 0, 0, 97, 1, 0, 0, 0, 49])] := by decide +kernel
    exact after

end Reopen

end Engine

end GalaxDb
