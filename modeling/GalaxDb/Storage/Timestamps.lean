import GalaxDb.Storage.FileNames

/-!
# Timestamps across restarts

A restart draws one timestamp for every record of the log, starting over at one, while the
rows of a batch and writes that failed drew timestamps without a record of their own. As
long as nothing is flushed that is younger than the log is long, the next timestamp of a
reopened engine lies above every row of its files. Then a value that is written after the
restart wins over all of them, before and after it is flushed.
-/

namespace GalaxDb

open Std Row Compaction Flush WalRecord List

namespace Engine

section Replay

variable {env : Platform}

/-- Replaying the record draws a timestamp. -/
def Replayable (r : WalRecord) : Prop :=
  (r.recordType = .rowPut ∧ decodeKv r.payload ≠ none) ∨ r.recordType = .rowDelete

/-- A length field is never larger than the length it stores. -/
theorem ofLe_toLe_le (w n : Nat) : Bytes.ofLe (Bytes.toLe w n) ≤ n := by
  rw [Bytes.ofLe_toLe]
  exact Nat.mod_le n _

theorem decodeKv_ne_none {n : Nat} {rest : Bytes} (enough : n ≤ rest.length) :
    decodeKv (Bytes.toLe 4 n ++ rest) ≠ none := by
  have front : (Bytes.toLe 4 n ++ rest).take 4 = Bytes.toLe 4 n := take_left' (by simp)
  have size : (Bytes.toLe 4 n ++ rest).length = 4 + rest.length := by simp
  have small := ofLe_toLe_le 4 n
  rw [decodeKv, if_neg (by omega)]
  simp only [front]
  rw [if_neg (by omega)]
  exact Option.some_ne_none _

theorem decodeKv_encodeKv_ne_none (key value : Bytes) : decodeKv (encodeKv key value) ≠ none := by
  rw [encodeKv, append_assoc]
  exact decodeKv_ne_none (by simp)

/-- The row count of a batch is shorter than its rows, so it passes for a key length. -/
theorem decodeKv_encodeBatch_ne_none (rows : List (Bytes × Bytes)) :
    decodeKv (encodeBatch rows) ≠ none := by
  refine decodeKv_ne_none ?_
  induction rows with
  | nil => exact Nat.zero_le _
  | cons row rest ih =>
    rw [flatMap_cons, length_append, length_cons]
    simp only [length_append, Bytes.toLe_length]
    omega

/-- Every row of the replayed memtable is older than the next timestamp. -/
structure Ahead (s : ReplayState) : Prop where
  unsealed : s.active.isSealed = false
  rows_lt : ∀ r ∈ s.active.rows, r.ts < s.nextTs

theorem mem_rows_put {m : Memtable} (unsealed : m.isSealed = false) {key : Bytes}
    {ts : Timestamp} {value : Option Bytes} {r : Row Bytes Bytes}
    (hr : r ∈ (m.put key ts value).1.rows) : r = ⟨key, ts, value⟩ ∨ r ∈ m.rows := by
  obtain ⟨v, hv, hw⟩ := Memtable.mem_rows.mp hr
  rw [Memtable.getElem?_put unsealed] at hv
  by_cases same : key = r.key
  · rw [if_pos same] at hv
    cases hv
    unfold Memtable.push at hw
    cases old : m.map[key]? with
    | none =>
      rw [old] at hw
      obtain ⟨rfl, rfl⟩ : r.ts = ts ∧ r.val = value := by
        simpa [VersionedValue.versions] using hw
      exact .inl (by rw [same])
    | some existing =>
      rw [old] at hw
      rcases mem_cons.mp hw with first | before
      · obtain ⟨rfl, rfl⟩ : r.ts = ts ∧ r.val = value := by simpa using first
        exact .inl (by rw [same])
      · exact .inr (Memtable.mem_rows.mpr ⟨existing, same ▸ old, before⟩)
  · rw [if_neg same] at hv
    exact .inr (Memtable.mem_rows.mpr ⟨v, hv, hw⟩)

variable {s s' : ReplayState}

theorem Ahead.put (h : Ahead s) (key : Bytes) (value : Option Bytes) (art : ArtIndex RowLocation)
    (puts : Nat) : Ahead ⟨(s.active.put key s.nextTs value).1, art, s.nextTs + 1, puts⟩ := by
  refine ⟨(Memtable.isSealed_put s.active key s.nextTs value).trans h.unsealed, ?_⟩
  intro r hr
  rcases mem_rows_put h.unsealed hr with rfl | old
  · exact Nat.lt_succ_self _
  · exact Nat.lt_succ_of_lt (h.rows_lt r old)

theorem replayRecord_ahead (h : Ahead s) {r : WalRecord} (draws : Replayable r)
    (replay : replayRecord env s r = some s') : Ahead s' ∧ s'.nextTs = s.nextTs + 1 := by
  unfold replayRecord at replay
  rcases draws with ⟨put, decodes⟩ | delete
  · rw [put] at replay
    obtain ⟨⟨key, value⟩, kv⟩ := Option.ne_none_iff_exists'.mp decodes
    simp only [kv] at replay
    obtain ⟨art, _, rfl⟩ := Option.map_eq_some_iff.mp replay
    exact ⟨h.put key (some value) art _, rfl⟩
  · rw [delete] at replay
    obtain ⟨art, _, rfl⟩ := Option.map_eq_some_iff.mp replay
    exact ⟨h.put r.payload none art _, rfl⟩

theorem replay_ahead (h : Ahead s) {records : List WalRecord} (draws : ∀ r ∈ records, Replayable r)
    (replay : records.foldlM (replayRecord env) s = some s') :
    Ahead s' ∧ s'.nextTs = s.nextTs + records.length := by
  induction records generalizing s with
  | nil =>
    cases replay
    exact ⟨h, rfl⟩
  | cons r rest ih =>
    rw [foldlM_cons] at replay
    obtain ⟨s1, first, later⟩ := Option.bind_eq_some_iff.mp replay
    obtain ⟨h1, one⟩ := replayRecord_ahead h (draws r mem_cons_self) first
    obtain ⟨h2, count⟩ := ih h1 (fun r hr => draws r (mem_cons_of_mem _ hr)) later
    refine ⟨h2, ?_⟩
    rw [count, one, length_cons, add_assoc, add_comm 1]

end Replay

section Log

variable {env : Platform}

/-- The records that an operation appends to the log. -/
def logs (e : Engine) : Op → List (WalRecordType × Bytes)
  | .put key value => [(.rowPut, encodeKv key value)]
  | .putBatch rows => if rows = [] then [] else [(.rowPut, encodeBatch rows)]
  | .delete key => if e.art.lookup key = none then [] else [(.rowDelete, key)]
  | _ => []

/-- An engine with the number of records its log has received. -/
structure History where
  engine : Engine
  logged : Nat

def Event.logged (e : Engine) : Event → Nat
  | .op call => (e.logs call).length
  | _ => 0

def History.step (env : Platform) (h : History) (event : Event) : Option History :=
  (advance env h.engine event).map (fun e => ⟨e, h.logged + event.logged h.engine⟩)

def History.fresh (env : Platform) (config : EngineConfig) : History :=
  ⟨Engine.fresh env config, 0⟩

/-- Nothing is flushed whose timestamp is above the number of records, and every record
fits its length field. -/
def Accounted (env : Platform) (h : History) : Event → Prop
  | .op (.flush _) => ∀ entry ∈ h.engine.memtableMgr.active.iterAll, entry.2.timestamp ≤ h.logged
  | .op op => ∀ record ∈ h.engine.logs op, WalRecord.Fits env.toWalCodec record.2
  | _ => True

/-- The log holds as many records as counted, and the files no timestamp beyond. -/
structure Counted (env : Platform) (h : History) : Prop where
  log : ∃ records, Wal.Holds env.toWalCodec h.engine.wal records ∧ records.length = h.logged ∧
    ∀ r ∈ records, Replayable r ∧ WalRecord.Fits env.toWalCodec r.payload
  files : ∀ (path : Nat) (f : SstFile), h.engine.files[path]? = some f →
    ∀ r ∈ SstFile.rows f, r.ts ≤ h.logged

theorem counted_fresh (env : Platform) (config : EngineConfig) :
    Counted env (History.fresh env config) := by
  refine ⟨⟨[], wal_fresh env config, rfl, by simp⟩, ?_⟩
  intro path f hf
  simp [History.fresh, Engine.fresh] at hf

variable {e : Engine} {f : SstFile} {path : Nat}

theorem files_foldl_registerNext (files : List (Nat × SstFile))
    (hf : (files.foldl registerNext e).files[path]? = some f) :
    e.files[path]? = some f ∨ ∃ g ∈ files, g.2 = f := by
  induction files generalizing e with
  | nil => exact .inl hf
  | cons g rest ih =>
    rcases ih hf with here | ⟨g', hg, eq⟩
    · simp only [registerNext, registerFile, ExtTreeMap.getElem?_insert] at here
      split at here
      · exact .inr ⟨g, mem_cons_self, Option.some.inj here⟩
      · exact .inl here
    · exact .inr ⟨g', mem_cons_of_mem g hg, eq⟩

variable {h : History} {e' : Engine}

/-- Only the log and the files matter. -/
theorem Counted.of_eq (c : Counted env h) (wal : e'.wal = h.engine.wal)
    (files : e'.files = h.engine.files) : Counted env ⟨e', h.logged⟩ :=
  ⟨wal ▸ c.log, files ▸ c.files⟩

theorem Counted.appended (c : Counted env h) {recordType : WalRecordType} {payload : Bytes}
    (draws : ∀ n, Replayable ⟨recordType, n, payload⟩)
    (fits : WalRecord.Fits env.toWalCodec payload)
    (wal : e'.wal = h.engine.wal.append env.toWalCodec recordType payload)
    (files : e'.files = h.engine.files) : Counted env ⟨e', h.logged + 1⟩ := by
  obtain ⟨records, holds, count, each⟩ := c.log
  refine ⟨⟨records ++ [⟨recordType, h.engine.wal.nextSeqNo, payload⟩], ?_, ?_, ?_⟩, ?_⟩
  · rw [wal]
    exact Wal.holds_append holds recordType payload
  · rw [length_append, count]
    rfl
  · intro r hr
    rcases mem_append.mp hr with hr | hr
    · exact each r hr
    · obtain rfl := mem_singleton.mp hr
      exact ⟨draws _, fits⟩
  · rw [files]
    exact fun path f hf r hr => Nat.le_succ_of_le (c.files path f hf r hr)

/-- A flush writes what the memtable shows and nothing else. -/
theorem files_flushActive (entries : e.memtableMgr.active.iterAll ≠ [])
    (flush : e.flushActive env = some e') (hf : e'.files[path]? = some f) :
    e.files[path]? = some f ∨ SstFile.rows f ⊆ e.memtableMgr.active.iterAll.map entryToRow := by
  obtain ⟨art, rfl⟩ := flushActive_eq_some entries flush
  rcases files_foldl_registerNext (flushResult env e).files hf with old | ⟨g, hg, rfl⟩
  · exact .inl old
  · refine .inr (fun r hr => ?_)
    rw [← rows_flushResult env e]
    exact mem_flatMap.mpr ⟨g, hg, hr⟩

variable {order : IterOrder} {force : Bool} {op : Op}

/-- A compaction writes rows that it has read. -/
theorem files_compactInner (compact : e.compactInner env order force = some e')
    (hf : e'.files[path]? = some f) :
    e.files[path]? = some f ∨ ∀ r ∈ SstFile.rows f, ∃ (path' : Nat) (f' : SstFile),
      e.files[path']? = some f' ∧ ∃ r' ∈ SstFile.rows f', r'.toRow = r.toRow := by
  rcases compactInner_eq_some compact with ⟨_, rfl⟩ | ⟨_, written, art, rfl, rfl⟩
  · exact .inl hf
  have before : ((outputFiles e.nextBlockId (compactOutputs env e order)).foldl
      registerNext e).files[path]? = some f := by
    have eq := getElem?_foldl_erase ((outputFiles e.nextBlockId (compactOutputs env e order)).foldl
      registerNext e).files ((order.order e.sstRegistry.toList).map (fun i => i.2.path)) path
    rw [foldl_map] at eq
    simp only [dropFiles] at hf
    rw [eq] at hf
    split at hf
    · cases hf
    · exact hf
  rcases files_foldl_registerNext _ before with old | ⟨g, hg, rfl⟩
  · exact .inl old
  refine .inr (fun r hr => ?_)
  obtain ⟨⟨out, n⟩, ho, rfl⟩ := mem_map.mp hg
  have written := ((splits_compactOutputs env e order).mem_rows r).mp
    ⟨out, fst_mem_of_mem_zipIdx ho, hr⟩
  obtain ⟨r', read, same⟩ := mem_map.mp
    (collect_subset (mem_map_of_mem (f := SstRow.toRow) written))
  obtain ⟨id, f', hf', hr'⟩ := mem_sstRows_iff.mp ((mem_inputRows order r').mp read)
  obtain ⟨entry, _, found⟩ := fileOf_eq_some.mp hf'
  exact ⟨entry.path, f', found, r', hr', same⟩

theorem wal_flushActive (entries : e.memtableMgr.active.iterAll ≠ [])
    (flush : e.flushActive env = some e') : e'.wal = e.wal := by
  obtain ⟨art, rfl⟩ := flushActive_eq_some entries flush
  have wal : (flushRegistered env e).wal = e.wal := (frame_foldl_registerNext _ _).2.2.wal
  exact wal

/-- A call appends its records and nothing else. -/
theorem wal_step (next : step env e op = some e') :
    e'.wal = (e.logs op).foldl (fun wal r => wal.append env.toWalCodec r.1 r.2) e.wal := by
  cases op with
  | put key value =>
    obtain ⟨art, rfl⟩ := putSync_eq_some next
    rfl
  | putBatch rows =>
    rcases putBatchSync_eq_some next with ⟨rfl, rfl⟩ | ⟨some_rows, e1, applied, rfl⟩
    · rfl
    · have kept := applyBatch_induction
        (P := fun _ e1 => e1.wal = e.wal.append env.toWalCodec .rowPut (encodeBatch rows))
        (fun _ _ _ _ _ before => before) applied rfl
      rw [logs, if_neg some_rows]
      exact kept
  | delete key =>
    cases next
    simp only [deleteSync, logs]
    by_cases missing : e.art.lookup key = none
    · rw [if_pos missing, if_pos missing]
      rfl
    · rw [if_neg missing, if_neg missing]
      rfl
  | flush order =>
    rcases flushMemtable_eq_some next with ⟨_, rfl⟩ | ⟨entries, flushed, flush, outcome⟩
    · rfl
    · have wal := wal_flushActive entries flush
      rcases outcome with rfl | ⟨_, _, compact⟩
      · exact wal
      · exact (frame_compactInner compact).wal.trans wal
  | compact order | forceCompact order => exact (frame_compactInner next).wal
  | configure pins bg columnar =>
    cases next
    rfl

theorem Counted.flushActive (c : Counted env h)
    (below : ∀ entry ∈ h.engine.memtableMgr.active.iterAll, entry.2.timestamp ≤ h.logged)
    (entries : h.engine.memtableMgr.active.iterAll ≠ [])
    (flush : h.engine.flushActive env = some e') : Counted env ⟨e', h.logged⟩ := by
  constructor
  case log => exact wal_flushActive entries flush ▸ c.log
  case files =>
    intro path f hf r hr
    rcases files_flushActive entries flush hf with old | written
    · exact c.files path f old r hr
    · obtain ⟨entry, he, rfl⟩ := mem_map.mp (written hr)
      exact below entry he

theorem Counted.compactInner (c : Counted env h)
    (compact : h.engine.compactInner env order force = some e') : Counted env ⟨e', h.logged⟩ := by
  constructor
  case log => exact (frame_compactInner compact).wal ▸ c.log
  case files =>
    intro path f hf r hr
    rcases files_compactInner compact hf with old | read
    · exact c.files path f old r hr
    · obtain ⟨path', f', hf', r', hr', same⟩ := read r hr
      have ts : r'.ts = r.ts := congrArg Row.ts same
      exact ts ▸ c.files path' f' hf' r' hr'

theorem Counted.call (c : Counted env h) (accounted : Accounted env h (.op op))
    (next : step env h.engine op = some e') :
    Counted env ⟨e', h.logged + (h.engine.logs op).length⟩ := by
  cases op with
  | put key value =>
    obtain ⟨art, rfl⟩ := putSync_eq_some next
    exact c.appended (fun _ => .inl ⟨rfl, decodeKv_encodeKv_ne_none key value⟩)
      (accounted _ mem_cons_self) rfl rfl
  | putBatch rows =>
    rcases putBatchSync_eq_some next with ⟨rfl, rfl⟩ | ⟨some_rows, e1, applied, rfl⟩
    · exact c
    · have wal := wal_step next
      simp only [Accounted, logs, if_neg some_rows] at accounted wal ⊢
      have files := applyBatch_induction (P := fun _ e => e.files = h.engine.files)
        (fun _ _ _ _ _ before => before) applied rfl
      exact c.appended (fun _ => .inl ⟨rfl, decodeKv_encodeBatch_ne_none rows⟩)
        (accounted _ mem_cons_self) wal files
  | delete key =>
    cases next
    simp only [Accounted, logs, deleteSync] at accounted ⊢
    by_cases missing : h.engine.art.lookup key = none
    · rw [if_pos missing, if_pos missing]
      exact c
    · rw [if_neg missing] at accounted
      rw [if_neg missing, if_neg missing]
      exact c.appended (fun _ => .inr rfl) (accounted _ mem_cons_self) rfl rfl
  | flush order =>
    rcases flushMemtable_eq_some next with ⟨_, rfl⟩ | ⟨entries, flushed, flush, outcome⟩
    · exact c
    · have after := c.flushActive accounted entries flush
      rcases outcome with rfl | ⟨_, _, compact⟩
      · exact after
      · exact after.compactInner compact
  | compact order | forceCompact order => exact c.compactInner next
  | configure pins bg columnar =>
    cases next
    exact c.of_eq rfl rfl

end Log

section Reopen

variable {env : Platform} {h : History}

theorem stored_replayable {r : WalRecord} (draws : Replayable r) : Replayable r.stored := draws

/-- The engine recovers all records, and only them. -/
theorem recovered_of_holds (lossless : env.toWalCodec.Lossless) {wal : WalWriter}
    {records : List WalRecord} (holds : Wal.Holds env.toWalCodec wal records)
    (each : ∀ r ∈ records, Replayable r ∧ WalRecord.Fits env.toWalCodec r.payload) :
    (Wal.recoverWal env.toWalCodec wal.file).toOption.getD [] = records.map stored := by
  rw [Wal.recoverWal_of_holds lossless holds (fun r hr => (each r hr).2)]
  have rows_only : ∀ r ∈ (records.map stored).reverse,
      decide (r.recordType ≠ .checkpoint) = true := by
    intro r hr
    obtain ⟨r0, hr0, rfl⟩ := mem_map.mp (mem_reverse.mp hr)
    rcases (each r0 hr0).1 with ⟨put, _⟩ | delete
    · simp [stored, put]
    · simp [stored, delete]
  have all : Wal.afterCheckpoint (records.map stored) = records.map stored := by
    rw [Wal.afterCheckpoint, takeWhile_eq_self_iff.mpr rows_only, reverse_reverse]
  rw [all]
  rfl

/-- What a reopened engine has: the files, the log, and a counter behind all records. -/
theorem Counted.reopen (c : Counted env h) (lossless : env.toWalCodec.Lossless)
    {config : EngineConfig} {e : Engine} (opened : Engine.new env config h.engine.close = some e) :
    Counted env ⟨e, h.logged⟩ ∧ e.nextTimestamp = h.logged + 1 ∧
      e.memtableMgr.active.isSealed = false ∧
      ∀ r ∈ e.memtableMgr.active.rows, r.ts < e.nextTimestamp := by
  obtain ⟨records, holds, count, each⟩ := c.log
  obtain ⟨wal, s, log, replay, rfl⟩ := new_eq_some opened
  obtain ⟨wal', log', holds'⟩ := Wal.holds_reopen lossless holds (fun r hr => (each r hr).2)
  obtain rfl : wal' = wal := Except.ok.inj (log'.symm.trans log)
  rw [recovered_of_holds lossless holds' each] at replay
  have start : Ahead ⟨Memtable.new config.memtableSizeBytes, ArtIndex.new, 1, 0⟩ := by
    refine ⟨rfl, ?_⟩
    intro r hr
    obtain ⟨v, hv, _⟩ := Memtable.mem_rows.mp hr
    simp [Memtable.new] at hv
  have draws : ∀ r ∈ records.map stored, Replayable r := by
    intro r hr
    obtain ⟨r0, hr0, rfl⟩ := mem_map.mp hr
    exact stored_replayable (each r0 hr0).1
  obtain ⟨ahead, next⟩ := replay_ahead start draws replay
  rw [length_map, count] at next
  have counter : max s.nextTs 1 = s.nextTs := by
    rw [next]
    exact max_eq_left (Nat.le_add_right 1 _)
  refine ⟨⟨⟨records, holds', count, each⟩, c.files⟩, ?_, ahead.unsealed, ?_⟩
  · exact counter.trans (next.trans (add_comm 1 _))
  · exact fun r hr => lt_of_lt_of_eq (ahead.rows_lt r hr) counter.symm

theorem Counted.step (c : Counted env h) (lossless : env.toWalCodec.Lossless) {event : Event}
    {h' : History} (accounted : Accounted env h event) (next : h.step env event = some h') :
    Counted env h' := by
  obtain ⟨e, advanced, rfl⟩ := Option.map_eq_some_iff.mp next
  cases event with
  | op op => exact c.call accounted advanced
  | failedWrite =>
    cases advanced
    exact c.of_eq rfl rfl
  | restart config sameProcess =>
    obtain ⟨opened, new, rfl⟩ := Option.map_eq_some_iff.mp advanced
    exact (c.reopen lossless new).1.of_eq rfl rfl

/-- A registered row is a row of some file of the directory. -/
theorem Counted.stored_le (c : Counted env h) {r : Row Bytes Bytes}
    (hr : r ∈ h.engine.storedRows) : r.ts ≤ h.logged := by
  obtain ⟨row, hrow, rfl⟩ := mem_map.mp hr
  obtain ⟨id, f, hf, hrf⟩ := mem_sstRows_iff.mp hrow
  obtain ⟨entry, _, found⟩ := fileOf_eq_some.mp hf
  exact c.files entry.path f found row hrf

end Reopen

section Scan

/-- The newest row of its key, with nothing else as new. -/
def Latest (rows : List (Row Bytes Bytes)) (n : Row Bytes Bytes) : Prop :=
  n ∈ rows ∧ ∀ r ∈ rows, r.key = n.key → r ≠ n → r.ts < n.ts

def newestSeen (s : ScanState) (k : Bytes) : Timestamp :=
  max (((s.out[k]?).map Prod.snd).getD 0) ((s.tombstoned[k]?).getD 0)

variable {s : ScanState} {k v : Bytes} {r : SstRow}

theorem scanRow_other (other : r.key ≠ k) :
    (scanRow s r).out[k]? = s.out[k]? ∧ (scanRow s r).tombstoned[k]? = s.tombstoned[k]? := by
  simp only [scanRow]
  split
  · exact ⟨rfl, rfl⟩
  · split <;> simp [ExtTreeMap.getElem?_erase, ExtTreeMap.getElem?_insert, other]

/-- A row that is not older than what was seen takes its place. -/
theorem scanRow_newer (newer : newestSeen s r.key ≤ r.ts) :
    (scanRow s r).out[r.key]? = (r.toRow.val).map (fun v => (v, r.ts)) ∧
      newestSeen (scanRow s r) r.key = r.ts := by
  have kept : ¬ r.ts < newestSeen s r.key := newer.not_gt
  have eq : scanRow s r = if r.value = [] then ⟨s.out.erase r.key, s.tombstoned.insert r.key r.ts⟩
      else ⟨s.out.insert r.key (r.value, r.ts), s.tombstoned.erase r.key⟩ := if_neg kept
  rw [eq, SstRow.toRow]
  by_cases empty : r.value = []
  · simp [empty, newestSeen]
  · simp [empty, newestSeen]

theorem scanRow_older (older : r.ts < newestSeen s r.key) : scanRow s r = s := if_pos older

variable {t : Timestamp} {e : Engine}

/-- A scan finds the latest row of a key, in whatever order it meets the rows. -/
theorem foldl_scanRow_latest {rows : List SstRow}
    (others : ∀ r ∈ rows, r.key = k → r.toRow ≠ ⟨k, t, some v⟩ → r.ts < t)
    (bound : newestSeen s k ≤ t)
    (found : (∃ r ∈ rows, r.toRow = ⟨k, t, some v⟩) ∨ s.out[k]? = some (v, t)) :
    (rows.foldl scanRow s).out[k]? = some (v, t) := by
  induction rows generalizing s with
  | nil =>
    rcases found with ⟨r, hr, _⟩ | here
    · cases hr
    · exact here
  | cons r rest ih =>
    have rest_others : ∀ r ∈ rest, r.key = k → r.toRow ≠ ⟨k, t, some v⟩ → r.ts < t :=
      fun r hr => others r (mem_cons_of_mem _ hr)
    rw [foldl_cons]
    by_cases same : r.key = k
    · subst same
      by_cases this : r.toRow = ⟨r.key, t, some v⟩
      · -- the latest row itself
        have ts : r.ts = t := congrArg Row.ts this
        have val : r.toRow.val = some v := congrArg Row.val this
        obtain ⟨out, newest⟩ := scanRow_newer (ts.symm ▸ bound)
        refine ih rest_others (newest.trans ts).le (.inr ?_)
        rw [out, val, ts]
        rfl
      · have older := others r mem_cons_self rfl this
        have later : (∃ r' ∈ rest, r'.toRow = ⟨r.key, t, some v⟩) ∨
            s.out[r.key]? = some (v, t) := by
          refine found.imp_left ?_
          rintro ⟨r', hr', eq⟩
          rcases mem_cons.mp hr' with rfl | hr'
          · exact absurd eq this
          · exact ⟨r', hr', eq⟩
        by_cases skip : r.ts < newestSeen s r.key
        · rw [scanRow_older skip]
          exact ih rest_others bound later
        · obtain ⟨_, newest⟩ := scanRow_newer (Nat.le_of_not_lt skip)
          refine ih rest_others (newest.trans_le older.le) ?_
          rcases later with later | here
          · exact .inl later
          · -- the row it found would have hidden this one
            have seen : t ≤ newestSeen s r.key := by
              rw [newestSeen, here]
              exact le_max_left _ _
            exact absurd (older.trans_le seen) skip
    · obtain ⟨out, tomb⟩ := scanRow_other (s := s) same
      refine ih rest_others ?_ ?_
      · rw [newestSeen, out, tomb]
        exact bound
      · rw [out]
        refine found.imp_left ?_
        rintro ⟨r', hr', eq⟩
        rcases mem_cons.mp hr' with rfl | hr'
        · exact absurd (congrArg Row.key eq) same
        · exact ⟨r', hr', eq⟩

theorem scanAll_of_buffered {x : VersionedValue} (buffered : e.memtableMgr.active.map[k]? = some x)
    (value : x.value = some v) (order : IterOrder) : (k, v) ∈ e.scanAll order := by
  simp only [scanAll, scanAllWithPrefix, ExtTreeMap.mem_toList_iff_getElem?_eq_some, memEntries]
  have entry : (k, x) ∈ e.memtableMgr.active.iterAll := Memtable.mem_iterAll.mpr buffered
  rw [overlayMemtable_of_mem (iterAll_pairwise_ne _) entry]
  exact value

theorem scanAll_of_latest (absent : e.memtableMgr.active.map[k]? = none)
    (latest : Latest e.storedRows ⟨k, t, some v⟩) (order : IterOrder) :
    (k, v) ∈ e.scanAll order := by
  simp only [scanAll, scanAllWithPrefix, ExtTreeMap.mem_toList_iff_getElem?_eq_some, memEntries]
  have outside : ∀ x ∈ e.memtableMgr.active.iterAll, x.1 ≠ k := by
    rintro ⟨k', w⟩ hx rfl
    rw [Memtable.mem_iterAll.mp hx] at absent
    cases absent
  rw [overlayMemtable_of_not_mem outside, ExtTreeMap.getElem?_map]
  have others : ∀ r ∈ scanRows (e.scanBlocks order) none, r.key = k →
      r.toRow ≠ ⟨k, t, some v⟩ → r.ts < t := by
    intro r hr hk differs
    exact latest.2 r.toRow (mem_map_of_mem ((mem_scanRows order).mp hr)) hk differs
  have found : ∃ r ∈ scanRows (e.scanBlocks order) none, r.toRow = ⟨k, t, some v⟩ := by
    obtain ⟨r, hr, eq⟩ := mem_map.mp latest.1
    exact ⟨r, (mem_scanRows order).mpr hr, eq⟩
  have empty : newestSeen ⟨∅, ∅⟩ k ≤ t := by simp [newestSeen]
  rw [foldl_scanRow_latest others empty (Or.inl found)]
  rfl

end Scan

section Rows

variable {env : Platform} {e e' : Engine}

/-- Registering files under new names adds their rows to the registered ones. -/
theorem Registered.mem_sstRows (h : e.Registered) {files : List (Nat × SstFile)}
    (fresh : FreshNames (e, files.map Prod.fst)) (r : SstRow) :
    r ∈ (files.foldl registerNext e).sstRows ↔
      r ∈ e.sstRows ∨ r ∈ files.flatMap (fun f => SstFile.rows f.2) := by
  obtain ⟨_, all⟩ := h.registerAll fresh
  rw [mem_sstRows_iff, mem_sstRows_iff]
  constructor
  · rintro ⟨id, f, hf, hr⟩
    rw [all] at hf
    split at hf
    · exact .inl ⟨id, f, hf, hr⟩
    · obtain ⟨g, hg, rfl⟩ := Option.map_eq_some_iff.mp hf
      exact .inr (mem_flatMap.mpr ⟨g, mem_of_getElem? hg, hr⟩)
  · rintro (⟨id, f, hf, hr⟩ | hr)
    · obtain ⟨entry, found, _⟩ := fileOf_eq_some.mp hf
      exact ⟨id, f, by rw [all, if_pos (h.id_lt found)]; exact hf, hr⟩
    · obtain ⟨g, hg, hr⟩ := mem_flatMap.mp hr
      obtain ⟨i, hi⟩ := getElem?_of_mem hg
      refine ⟨e.nextSstId + i, g.2, ?_, hr⟩
      rw [all, if_neg (by omega), Nat.add_sub_cancel_left, hi]
      rfl

theorem Registered.storedRows_flushActive (h : e.Registered)
    (fresh : FreshNames (e, flushNames env e)) (entries : e.memtableMgr.active.iterAll ≠ [])
    (flush : e.flushActive env = some e') (x : Row Bytes Bytes) :
    x ∈ e'.storedRows ↔ x ∈ e.storedRows ∨
      x ∈ (e.memtableMgr.active.iterAll.map entryToRow).map SstRow.toRow := by
  obtain ⟨art, rfl⟩ := flushActive_eq_some entries flush
  have raised : ({ e with nextBlockId := (flushResult env e).nextBlockId } : Engine).Registered :=
    h.of_eq rfl rfl rfl
  have rows : ∀ r, r ∈ (flushRegistered env e).sstRows ↔
      r ∈ e.sstRows ∨ r ∈ e.memtableMgr.active.iterAll.map entryToRow := by
    intro r
    rw [← rows_flushResult env e]
    exact raised.mem_sstRows fresh r
  change x ∈ (flushRegistered env e).sstRows.map SstRow.toRow ↔ _
  simp only [storedRows, mem_map, rows]
  constructor
  · rintro ⟨r, old | new, rfl⟩
    · exact .inl ⟨r, old, rfl⟩
    · exact .inr ⟨r, new, rfl⟩
  · rintro (⟨r, old, rfl⟩ | ⟨r, new, rfl⟩)
    · exact ⟨r, .inl old, rfl⟩
    · exact ⟨r, .inr new, rfl⟩

/-- A compaction leaves exactly the survivors behind. -/
theorem Registered.storedRows_compactInner (h : e.Registered) {order : IterOrder} {force : Bool}
    (fresh : FreshNames (e, compactNames env e order force))
    (compact : e.compactInner env order force = some e') :
    e' = e ∨ ∀ x, x ∈ e'.storedRows ↔ x ∈ ((collect e.pinSource (e.inputRows order)).map
      SurvivorRow.toSstRow).map SstRow.toRow := by
  rcases compactInner_eq_some compact with ⟨_, rfl⟩ | ⟨many, written, art, hw, rfl⟩
  · exact .inl rfl
  rw [compactNames, if_neg many] at fresh
  obtain ⟨⟨n, inv⟩, all⟩ := h.registerAll fresh
  have inside := inputs_registered h (compactOutputs env e order) order
  rw [← hw] at inv all inside
  have inputs : ∀ i ∈ order.order e.sstRegistry.toList, e.sstRegistry[i.1]? = some i.2 :=
    fun i hi => ExtTreeMap.mem_toList_iff_getElem?_eq_some.mp ((order.perm _).mem_iff.mp hi)
  obtain ⟨_, dropped⟩ := dropFiles_spec inv inside
  have blocks : ∀ i : Nat,
      (outputFiles e.nextBlockId (compactOutputs env e order))[i]?.map Prod.snd =
      ((compactOutputs env e order)[i]?).map CompactionOutput.blocks := by
    intro i
    simp [outputFiles, Function.comp_def]
  generalize he' : ({ written with
    art := art
    nextBlockId := e.nextBlockId + (compactOutputs env e order).length } : Engine).dropFiles
      (order.order e.sstRegistry.toList) = e'
  have left : ∀ id, e'.fileOf id = if id < e.nextSstId then none
      else ((compactOutputs env e order)[id - e.nextSstId]?).map CompactionOutput.blocks := by
    intro id
    rw [← he']
    refine (dropped id).trans ?_
    by_cases old : id < e.nextSstId
    · rw [if_pos old]
      by_cases input : id ∈ (order.order e.sstRegistry.toList).map Prod.fst
      · rw [if_pos input]
      · rw [if_neg input]
        refine (all id).trans ?_
        rw [if_pos old, fileOf]
        cases found : e.sstRegistry[id]? with
        | none => rfl
        | some entry =>
          have mem := ExtTreeMap.mem_toList_iff_getElem?_eq_some.mpr found
          exact absurd (mem_map.mpr ⟨(id, entry), (order.perm _).mem_iff.mpr mem, rfl⟩) input
    · have unlisted : id ∉ (order.order e.sstRegistry.toList).map Prod.fst := by
        intro input
        obtain ⟨i, hi, rfl⟩ := mem_map.mp input
        exact old (h.id_lt (inputs i hi))
      rw [if_neg unlisted, if_neg old]
      refine (all id).trans ?_
      rw [if_neg old, blocks]
  have rows : ∀ r, r ∈ e'.sstRows ↔
      r ∈ (collect e.pinSource (e.inputRows order)).map SurvivorRow.toSstRow := by
    intro r
    rw [mem_sstRows_iff, ← (splits_compactOutputs env e order).mem_rows]
    constructor
    · rintro ⟨id, f, hf, hr⟩
      rw [left] at hf
      split at hf
      · cases hf
      · obtain ⟨out, hout, rfl⟩ := Option.map_eq_some_iff.mp hf
        exact ⟨out, mem_of_getElem? hout, hr⟩
    · rintro ⟨out, hout, hr⟩
      obtain ⟨i, hi⟩ := getElem?_of_mem hout
      refine ⟨e.nextSstId + i, out.blocks, ?_, hr⟩
      rw [left, if_neg (by omega), Nat.add_sub_cancel_left, hi]
      rfl
  refine .inr (fun x => ?_)
  simp only [storedRows, mem_map, rows]

theorem Latest.collect {rows : List SstRow} {k v : Bytes} {t : Timestamp}
    (latest : Latest (rows.map SstRow.toRow) ⟨k, t, some v⟩) (pins : List Timestamp) :
    Latest (((collect pins rows).map SurvivorRow.toSstRow).map SstRow.toRow) ⟨k, t, some v⟩ := by
  have newest : ∀ w ∈ versionsOf rows k, w ≠ ⟨t, some v⟩ → w.timestamp < t := by
    intro w hw differs
    refine latest.2 ⟨k, w.timestamp, w.value⟩ (mem_versionsOf.mp hw) rfl ?_
    intro same
    cases w
    cases same
    exact differs rfl
  refine ⟨mem_collect_toRow.mpr ?_, fun r hr => latest.2 r (collect_subset hr)⟩
  exact live_mem_gcKey pins (mem_versionsOf.mpr latest.1) newest (Option.some_ne_none v)

theorem Latest.congr {rows rows' : List (Row Bytes Bytes)} {n : Row Bytes Bytes}
    (same : ∀ r, r ∈ rows' ↔ r ∈ rows) (latest : Latest rows n) : Latest rows' n :=
  ⟨(same n).mpr latest.1, fun r hr => latest.2 r ((same r).mp hr)⟩

end Rows

section Written

variable {env : Platform} {e e' : Engine} {log : List (Bytes × Option Bytes)}

/-- Where the last value written to a key since the restart is found: in the memtable, above
everything in the files, or in the files, above everything else there. -/
def Found (e : Engine) (k v : Bytes) : Prop :=
  (∃ x, e.memtableMgr.active.map[k]? = some x ∧ x.value = some v ∧
    ∀ r ∈ e.storedRows, r.key = k → r.ts < x.timestamp) ∨
  (e.memtableMgr.active.map[k]? = none ∧ ∃ t, Latest e.storedRows ⟨k, t, some v⟩)

theorem Found.scanAll {k v : Bytes} (found : e.Found k v) (order : IterOrder) :
    (k, v) ∈ e.scanAll order := by
  rcases found with ⟨x, buffered, value, _⟩ | ⟨absent, t, latest⟩
  · exact scanAll_of_buffered buffered value order
  · exact scanAll_of_latest absent latest order

/-- The engine of a process that has run these writes since it was opened. -/
structure Since (e : Engine) (log : List (Bytes × Option Bytes)) : Prop where
  registered : e.Registered
  unsealed : e.memtableMgr.active.isSealed = false
  stored_lt : ∀ r ∈ e.storedRows, r.ts < e.nextTimestamp
  mem_lt : ∀ (k : Bytes) (x : VersionedValue), e.memtableMgr.active.map[k]? = some x →
    x.timestamp < e.nextTimestamp
  nonempty : ∀ w ∈ log, w.2 ≠ some []
  found : ∀ k v, WriteLog.lastWrite log k = some (some v) → e.Found k v

/-- A write under the next timestamp. -/
theorem Since.pushed (s : e.Since log) {key : Bytes} {value : Option Bytes}
    (nonempty : value ≠ some [])
    (active : e'.memtableMgr.active = (e.memtableMgr.active.put key e.nextTimestamp value).1)
    (registry : e'.sstRegistry = e.sstRegistry) (files : e'.files = e.files)
    (sstId : e'.nextSstId = e.nextSstId) (next : e'.nextTimestamp = e.nextTimestamp + 1) :
    e'.Since (log ++ [(key, value)]) := by
  have rows : e'.storedRows = e.storedRows := storedRows_congr registry files
  have buffered : ∀ k : Bytes, e'.memtableMgr.active.map[k]? =
      if key = k then some (e.memtableMgr.active.push key e.nextTimestamp value)
      else e.memtableMgr.active.map[k]? := by
    intro k
    rw [active]
    exact Memtable.getElem?_put s.unsealed key _ value k
  constructor
  case registered => exact s.registered.of_eq registry files sstId
  case unsealed =>
    rw [active]
    exact (Memtable.isSealed_put _ key _ value).trans s.unsealed
  case stored_lt =>
    rw [rows, next]
    exact fun r hr => Nat.lt_succ_of_lt (s.stored_lt r hr)
  case mem_lt =>
    intro k x hx
    rw [buffered] at hx
    rw [next]
    split at hx
    · cases hx
      rw [Memtable.push_timestamp]
      exact Nat.lt_succ_self _
    · exact Nat.lt_succ_of_lt (s.mem_lt k x hx)
  case nonempty =>
    intro w hw
    rcases mem_append.mp hw with old | new
    · exact s.nonempty w old
    · exact mem_singleton.mp new ▸ nonempty
  case found =>
    intro k v last
    rw [WriteLog.lastWrite_snoc] at last
    by_cases same : key = k
    · subst same
      have written : value = some v := by simpa using last
      refine .inl ⟨_, by rw [buffered, if_pos rfl], ?_, ?_⟩
      · rw [Memtable.push_value]
        exact written
      · rw [rows, Memtable.push_timestamp]
        exact fun r hr _ => s.stored_lt r hr
    · have earlier : WriteLog.lastWrite log k = some (some v) := by simpa [same] using last
      have here := s.found k v earlier
      unfold Found
      rw [buffered, if_neg same, rows]
      exact here

/-- A delete that finds nothing writes nothing. -/
theorem Since.skip (s : e.Since log) (key : Bytes) : e.Since (log ++ [(key, none)]) := by
  refine ⟨s.registered, s.unsealed, s.stored_lt, s.mem_lt, ?_, ?_⟩
  · intro w hw
    rcases mem_append.mp hw with old | new
    · exact s.nonempty w old
    · rw [mem_singleton.mp new]
      exact nofun
  · intro k v last
    rw [WriteLog.lastWrite_snoc] at last
    by_cases same : key = k
    · simp [same] at last
    · exact s.found k v (by simpa [same] using last)

theorem active_flushActive (unsealed : e.memtableMgr.active.isSealed = false)
    (entries : e.memtableMgr.active.iterAll ≠ []) (flush : e.flushActive env = some e') :
    e'.memtableMgr.active = Memtable.new e.memtableMgr.sealThreshold ∧
      e'.nextTimestamp = e.nextTimestamp := by
  obtain ⟨art, rfl⟩ := flushActive_eq_some entries flush
  have same : SameBut _ (flushRegistered env e) := (frame_foldl_registerNext _ _).2.2
  refine ⟨?_, same.nextTimestamp⟩
  simp [same.memtableMgr, MemtableManager.sealActive, unsealed, MemtableManager.onFlushComplete]

/-- A flush keeps what was written since the opening. -/
theorem Since.flushActive (s : e.Since log) (fresh : FreshNames (e, flushNames env e))
    (entries : e.memtableMgr.active.iterAll ≠ []) (flush : e.flushActive env = some e') :
    e'.Since log := by
  obtain ⟨active, next⟩ := active_flushActive s.unsealed entries flush
  have rows := s.registered.storedRows_flushActive fresh entries flush
  have empty : ∀ k : Bytes, e'.memtableMgr.active.map[k]? = none := by
    intro k
    rw [active]
    simp [Memtable.new]
  have flushed : ∀ r ∈ (e.memtableMgr.active.iterAll.map entryToRow).map SstRow.toRow,
      ∃ x, e.memtableMgr.active.map[r.key]? = some x ∧ r = (entryToRow (r.key, x)).toRow := by
    intro r hr
    rw [map_map] at hr
    obtain ⟨⟨k, x⟩, hx, rfl⟩ := mem_map.mp hr
    exact ⟨x, Memtable.mem_iterAll.mp hx, rfl⟩
  constructor
  case registered => exact s.registered.flushActive fresh entries flush
  case unsealed =>
    rw [active]
    rfl
  case stored_lt =>
    intro r hr
    rw [next]
    rcases (rows r).mp hr with old | new
    · exact s.stored_lt r old
    · obtain ⟨x, hx, eq⟩ := flushed r new
      rw [eq]
      exact s.mem_lt r.key x hx
  case mem_lt =>
    intro k x hx
    rw [empty] at hx
    cases hx
  case nonempty => exact s.nonempty
  case found =>
    intro k v last
    have value_ne : v ≠ [] := by
      rintro rfl
      exact s.nonempty _ (WriteLog.mem_of_lastWrite last) rfl
    refine .inr ⟨empty k, ?_⟩
    rcases s.found k v last with ⟨x, hx, value, newer⟩ | ⟨absent, t, latest⟩
    · -- it moves from the memtable into the files
      have row : (entryToRow (k, x)).toRow = ⟨k, x.timestamp, some v⟩ := by
        rw [toRow_entryToRow (by rw [value]; simpa using value_ne), value]
      refine ⟨x.timestamp, (rows _).mpr (.inr ?_), ?_⟩
      · rw [← row]
        exact mem_map_of_mem (mem_map_of_mem (Memtable.mem_iterAll.mpr hx))
      · intro r hr hk differs
        rcases (rows r).mp hr with old | new
        · exact newer r old hk
        · obtain ⟨x', hx', eq⟩ := flushed r new
          rw [hk] at hx' eq
          rw [hx] at hx'
          cases hx'
          exact absurd (eq.trans row) differs
    · refine ⟨t, (rows _).mpr (.inl latest.1), ?_⟩
      intro r hr hk differs
      rcases (rows r).mp hr with old | new
      · exact latest.2 r old hk differs
      · obtain ⟨x', hx', _⟩ := flushed r new
        rw [hk, absent] at hx'
        cases hx'

theorem Since.compactInner (s : e.Since log) {order : IterOrder} {force : Bool}
    (fresh : FreshNames (e, compactNames env e order force))
    (compact : e.compactInner env order force = some e') : e'.Since log := by
  rcases s.registered.storedRows_compactInner fresh compact with rfl | rows
  · exact s
  have same := frame_compactInner compact
  have sub : ∀ r ∈ e'.storedRows, r ∈ e.storedRows := by
    intro r hr
    exact (mem_inputRows_toRow order r).mp (collect_subset ((rows r).mp hr))
  constructor
  case registered => exact s.registered.compactInner fresh compact
  case unsealed => exact same.memtableMgr ▸ s.unsealed
  case stored_lt =>
    rw [same.nextTimestamp]
    exact fun r hr => s.stored_lt r (sub r hr)
  case mem_lt =>
    rw [same.memtableMgr, same.nextTimestamp]
    exact s.mem_lt
  case nonempty => exact s.nonempty
  case found =>
    intro k v last
    unfold Found
    rw [same.memtableMgr]
    rcases s.found k v last with ⟨x, hx, value, newer⟩ | ⟨absent, t, latest⟩
    · exact .inl ⟨x, hx, value, fun r hr => newer r (sub r hr)⟩
    · refine .inr ⟨absent, t, ?_⟩
      have read : Latest ((e.inputRows order).map SstRow.toRow) ⟨k, t, some v⟩ :=
        latest.congr (mem_inputRows_toRow order)
      exact (read.collect e.pinSource).congr rows

/-- Each operation adds its writes to those since the opening. -/
theorem Since.call (s : e.Since log) {op : Op} (values : op.NonemptyValues)
    (fresh : ∀ drawn ∈ draws env e op, FreshNames drawn) (next : step env e op = some e') :
    e'.Since (log ++ op.writes) := by
  cases op with
  | put key value =>
    obtain ⟨art, rfl⟩ := putSync_eq_some next
    exact s.pushed (values _ mem_cons_self) rfl rfl rfl rfl rfl
  | putBatch rows =>
    rcases putBatchSync_eq_some next with ⟨rfl, rfl⟩ | ⟨_, e1, applied, rfl⟩
    · simpa [Op.writes] using s
    · have nonempty : ∀ r ∈ rows, r.2 ≠ [] := by
        rintro ⟨key, value⟩ hr rfl
        exact values (key, some []) (mem_map.mpr ⟨(key, []), hr, rfl⟩) rfl
      have start : Since { e with wal := e.wal.append env.toWalCodec .rowPut (encodeBatch rows) }
          (log ++ ([] : List (Bytes × Bytes)).map (fun r => (r.1, some r.2))) := by
        rw [map_nil, append_nil]
        exact ⟨s.registered.of_eq rfl rfl rfl, s.unsealed, s.stored_lt, s.mem_lt, s.nonempty,
          s.found⟩
      have all := applyBatch_induction (P := fun done e => (∀ r ∈ done, r.2 ≠ []) →
        e.Since (log ++ done.map (fun r => (r.1, some r.2)))) (by
          intro done e key value art before nonempty
          have so_far := before (fun r hr => nonempty r (mem_append_left _ hr))
          have here : value ≠ [] := nonempty (key, value) (by simp)
          rw [map_append, ← append_assoc]
          exact so_far.pushed (by simpa using here) rfl rfl rfl rfl rfl)
        applied (fun _ => start) nonempty
      exact ⟨all.registered.of_eq rfl rfl rfl, all.unsealed, all.stored_lt, all.mem_lt,
        all.nonempty, all.found⟩
  | delete key =>
    cases next
    unfold deleteSync
    split
    · exact s.skip key
    · exact s.pushed (by rintro ⟨⟩) rfl rfl rfl rfl rfl
  | flush order =>
    change e'.Since (log ++ [])
    rw [append_nil]
    rcases flushMemtable_eq_some next with ⟨_, rfl⟩ | ⟨entries, flushed, flush, outcome⟩
    · exact s
    · simp only [draws, if_neg entries, flush, Option.toList_some, flatMap_singleton] at fresh
      have after := s.flushActive (fresh _ mem_cons_self) entries flush
      rcases outcome with rfl | ⟨bg, many, compact⟩
      · exact after
      · refine after.compactInner (fresh _ (mem_cons_of_mem _ ?_)) compact
        simp [bg, many]
  | compact order | forceCompact order =>
    change e'.Since (log ++ [])
    rw [append_nil]
    exact s.compactInner (fresh _ mem_cons_self) next
  | configure pins bg columnar =>
    cases next
    change Since _ (log ++ [])
    rw [append_nil]
    exact ⟨s.registered.of_eq rfl rfl rfl, s.unsealed, s.stored_lt, s.mem_lt, s.nonempty, s.found⟩

def Event.writes : Event → List (Bytes × Option Bytes)
  | .op call => call.writes
  | _ => []

/-- A call within a process: no empty value is written and no live file's name is taken. -/
def Undisturbed (env : Platform) (e : Engine) : Event → Prop
  | .op op => op.NonemptyValues ∧ ∀ drawn ∈ draws env e op, FreshNames drawn
  | .failedWrite => True
  | .restart _ _ => False

theorem Since.advance (s : e.Since log) {event : Event} (ok : Undisturbed env e event)
    (next : advance env e event = some e') : e'.Since (log ++ event.writes) := by
  cases event with
  | op op => exact s.call ok.1 ok.2 next
  | failedWrite =>
    cases next
    change Since _ (log ++ [])
    rw [append_nil]
    exact ⟨s.registered.of_eq rfl rfl rfl, s.unsealed,
      fun r hr => Nat.lt_succ_of_lt (s.stored_lt r hr),
      fun k x hx => Nat.lt_succ_of_lt (s.mem_lt k x hx), s.nonempty, s.found⟩
  | restart config sameProcess => exact absurd ok id

end Written

section Histories

variable {env : Platform}

variable {e : Engine} {ops : List Op}

variable {records : List WalRecord} {config : EngineConfig} {h : History}

/-- What holds as soon as an engine is reopened. -/
theorem Counted.restarted (c : Counted env h) (lossless : env.toWalCodec.Lossless)
    {sameProcess : Bool}
    (opened : Engine.advance env h.engine (.restart config sameProcess) = some e) :
    (∀ r ∈ e.storedRows, r.ts < e.nextTimestamp) ∧
      (∀ r ∈ e.memtableMgr.active.rows, r.ts < e.nextTimestamp) ∧ e.Since [] := by
  obtain ⟨e0, new, rfl⟩ := Option.map_eq_some_iff.mp opened
  obtain ⟨counted, next, unsealed, replayed⟩ := c.reopen lossless new
  have stored : ∀ r ∈ e0.storedRows, r.ts < e0.nextTimestamp := by
    intro r hr
    rw [next]
    exact Nat.lt_succ_of_le (counted.stored_le hr)
  refine ⟨stored, replayed, (registered_new new).of_eq rfl rfl rfl, unsealed, stored, ?_, ?_, ?_⟩
  · intro k x hx
    refine replayed ⟨k, x.timestamp, x.value⟩ (Memtable.mem_rows.mpr ⟨x, hx, ?_⟩)
    exact mem_cons_self
  · simp
  · intro k v last
    simp [WriteLog.lastWrite] at last

/-- After a history whose flushes are accounted for by the log, a restart leaves the next
timestamp above every row of the files and of the log, and what is written from then on is
what a scan returns, however often it is flushed and compacted. -/
theorem timestamps_advance_of_run (env : Platform) (lossless : env.toWalCodec.Lossless)
    (config config' : EngineConfig) (sameProcess : Bool) (events : List Event)
    (accounted : Run.Along (History.step env) (Accounted env) (History.fresh env config) events)
    (h : History) (run : Run.run (History.step env) (History.fresh env config) events = some h)
    (e : Engine) (opened : advance env h.engine (.restart config' sameProcess) = some e) :
    (∀ r ∈ e.storedRows, r.ts < e.nextTimestamp) ∧
    (∀ r ∈ e.memtableMgr.active.rows, r.ts < e.nextTimestamp) ∧
    ∀ (later : List Event) (e' : Engine), Run.Along (advance env) (Undisturbed env) e later →
      Run.run (advance env) e later = some e' →
      ∀ k v, WriteLog.lastWrite (later.flatMap Event.writes) k = some (some v) →
        ∀ order, (k, v) ∈ e'.scanAll order := by
  have preserved : ∀ h event h', Counted env h → Accounted env h event →
      h.step env event = some h' → Counted env h' :=
    fun h event h' c ok next => c.step lossless ok next
  have counted := Run.invariant_of_run preserved (counted_fresh env config) accounted run
  obtain ⟨stored, replayed, since⟩ := counted.restarted lossless opened
  refine ⟨stored, replayed, ?_⟩
  intro later e' along rest k v last order
  have writes : ∀ e log event e', e.Since log → Undisturbed env e event →
      advance env e event = some e' → e'.Since (log ++ event.writes) :=
    fun e log event e' s ok next => s.advance ok next
  have done := Run.simulation_of_run (fun log event => log ++ event.writes) writes since along rest
  rw [foldl_append_eq_append, nil_append] at done
  exact (done.found k v last).scanAll order

instance (codec : WalCodec) (payload : Bytes) : Decidable (WalRecord.Fits codec payload) :=
  inferInstanceAs (Decidable ((codec.lz4Compress payload).length < 2 ^ 32))

instance (env : Platform) (h : History) (event : Event) : Decidable (Accounted env h event) := by
  unfold Accounted
  rcases event with (_ | _ | _ | _ | _ | _ | _) | _ | _ <;> infer_instance

/-- The records that a list of calls appends. -/
def runLogs (env : Platform) (e : Engine) : List Op → List (WalRecordType × Bytes)
  | [] => []
  | op :: rest => e.logs op ++ ((step env e op).map (fun e' => runLogs env e' rest)).getD []

theorem holds_append_all {wal : WalWriter} (holds : Wal.Holds env.toWalCodec wal records)
    (logged : List (WalRecordType × Bytes)) :
    ∃ more, Wal.Holds env.toWalCodec
        (logged.foldl (fun wal r => wal.append env.toWalCodec r.1 r.2) wal) (records ++ more) ∧
      more.map (fun r => (r.recordType, r.payload)) = logged := by
  induction logged generalizing wal records with
  | nil => exact ⟨[], by simpa using holds, rfl⟩
  | cons r rest ih =>
    obtain ⟨more, holds', kinds⟩ := ih (Wal.holds_append holds r.1 r.2)
    refine ⟨⟨r.1, wal.nextSeqNo, r.2⟩ :: more, ?_, by rw [map_cons, kinds]⟩
    rw [append_cons]
    exact holds'

theorem holds_runLogs {e' : Engine} (holds : Wal.Holds env.toWalCodec e.wal records)
    (run : Run.run (step env) e ops = some e') :
    ∃ more, Wal.Holds env.toWalCodec e'.wal (records ++ more) ∧
      more.map (fun r => (r.recordType, r.payload)) = runLogs env e ops := by
  induction ops generalizing e records with
  | nil =>
    cases run
    exact ⟨[], by simpa using holds, rfl⟩
  | cons op rest ih =>
    rw [Run.run, foldlM_cons] at run
    obtain ⟨e1, first, later⟩ := Option.bind_eq_some_iff.mp run
    obtain ⟨here, holds1, kinds1⟩ := holds_append_all holds (e.logs op)
    rw [← wal_step first] at holds1
    obtain ⟨more, holds2, kinds2⟩ := ih holds1 later
    refine ⟨here ++ more, by rwa [← append_assoc], ?_⟩
    rw [map_append, kinds1, kinds2, runLogs, first]
    rfl

/-- What a replay of these records builds. -/
def replayLogs (env : Platform) (config : EngineConfig) (logged : List (WalRecordType × Bytes)) :
    Option ReplayState :=
  (logged.map (fun r => (⟨r.1, 0, r.2⟩ : WalRecord))).foldlM (replayRecord env)
    ⟨Memtable.new config.memtableSizeBytes, ArtIndex.new, 1, 0⟩

/-- A replay does not look at the sequence numbers. -/
theorem replay_stored (env : Platform) (config : EngineConfig) (records : List WalRecord) :
    (records.map stored).foldlM (replayRecord env)
        ⟨Memtable.new config.memtableSizeBytes, ArtIndex.new, 1, 0⟩ =
      replayLogs env config (records.map (fun r => (r.recordType, r.payload))) := by
  rw [replayLogs, map_map, foldlM_map, foldlM_map]
  rfl

/-- A restart after some calls on an empty directory. -/
theorem restart_of_calls (lossless : env.toWalCodec.Lossless) {config' : EngineConfig}
    (run : Run.run (step env) (fresh env config) ops = some e)
    (fits : ∀ r ∈ runLogs env (fresh env config) ops,
      WalRecord.Fits env.toWalCodec r.2 ∧ r.1 ≠ .checkpoint) {s : ReplayState}
    (replay : replayLogs env config' (runLogs env (fresh env config) ops) = some s)
    (sameProcess : Bool) :
    ∃ e', advance env e (.restart config' sameProcess) = some e' ∧
      e'.sstRegistry = discover e.files ∧ e'.files = e.files ∧
      e'.nextTimestamp = max s.nextTs 1 := by
  obtain ⟨records, holds, kinds⟩ := holds_runLogs (wal_fresh env config) run
  rw [nil_append] at holds
  have each : ∀ r ∈ records, WalRecord.Fits env.toWalCodec r.payload ∧
      r.recordType ≠ .checkpoint := by
    intro r hr
    refine fits (r.recordType, r.payload) ?_
    rw [← kinds]
    exact mem_map_of_mem hr
  have rows_only : ∀ r ∈ (records.map stored).reverse,
      decide (r.recordType ≠ .checkpoint) = true := by
    intro r hr
    obtain ⟨r0, hr0, rfl⟩ := mem_map.mp (mem_reverse.mp hr)
    exact decide_eq_true (each r0 hr0).2
  have clean : Wal.afterCheckpoint (records.map stored) = records.map stored := by
    rw [Wal.afterCheckpoint, takeWhile_eq_self_iff.mpr rows_only, reverse_reverse]
  rw [← kinds, ← replay_stored] at replay
  obtain ⟨wal, opened⟩ :=
    restart_eq_some lossless holds (fun r hr => (each r hr).1) clean sameProcess replay
  exact ⟨_, opened, rfl, rfl, rfl⟩

/-- Rows are found through registry and directory only. -/
theorem storedRows_reopened {files : ExtTreeMap Nat SstFile compare} (config : EngineConfig)
    (wal : WalWriter) (s : ReplayState) (registry : e.sstRegistry = discover files)
    (same : e.files = files) : e.storedRows = (reopened config wal files s).storedRows :=
  storedRows_congr registry same

theorem run_advance_calls (e : Engine) (ops : List Op) :
    Run.run (advance env) e (ops.map .op) = Run.run (step env) e ops := by
  rw [Run.run, foldlM_map]
  rfl

/-- A batch of two rows, flushed. -/
def flushedBatch : List Op := [.putBatch [([97], [49]), ([98], [50])], .flush .byId]

theorem flushedBatch_runs :
    (Run.run (step .plain) (fresh .plain .default) flushedBatch).isSome = true := by
  decide +kernel

def afterBatch : Engine :=
  (Run.run (step .plain) (fresh .plain .default) flushedBatch).get flushedBatch_runs

theorem flushedBatch_replays : (replayLogs .plain .default
    (runLogs .plain (fresh .plain .default) flushedBatch)).isSome = true := by
  decide +kernel

def replayedBatch : ReplayState :=
  (replayLogs .plain .default (runLogs .plain (fresh .plain .default) flushedBatch)).get
    flushedBatch_replays

/-- The log counts the batch as one row, so its second row is as young as whatever is
written next. -/
theorem restart_reuses_timestamp :
    ∃ e e', Run.run (advance .plain) (fresh .plain .default) (flushedBatch.map .op) = some e ∧
      advance .plain e (.restart .default false) = some e' ∧
      ¬ ∀ r ∈ e'.storedRows, r.ts < e'.nextTimestamp := by
  have run : Run.run (step .plain) (fresh .plain .default) flushedBatch = some afterBatch :=
    (Option.some_get flushedBatch_runs).symm
  have replay : replayLogs .plain .default (runLogs .plain (fresh .plain .default) flushedBatch) =
      some replayedBatch := (Option.some_get flushedBatch_replays).symm
  obtain ⟨e', opened, registry, files, counter⟩ :=
    restart_of_calls lossless_plain run (by decide +kernel) replay false
  have calls : Run.run (advance .plain) (fresh .plain .default) (flushedBatch.map .op) =
      some afterBatch := by
    rw [run_advance_calls]
    exact run
  refine ⟨afterBatch, e', calls, opened, ?_⟩
  intro above
  have second : (⟨[98], 2, some [50]⟩ : Row Bytes Bytes) ∈
      (reopened .default ⟨[], 0, 0, 1⟩ afterBatch.files replayedBatch).storedRows := by
    decide +kernel
  have next : max replayedBatch.nextTs 1 = 2 := by decide +kernel
  have same := storedRows_reopened .default ⟨[], 0, 0, 1⟩ replayedBatch registry files
  rw [← same] at second
  have lt := above ⟨[98], 2, some [50]⟩ second
  rw [counter, next] at lt
  exact lt_irrefl 2 lt

theorem run_history_calls {h' : History}
    (run : Run.run (History.step env) h (ops.map .op) = some h') :
    Run.run (step env) h.engine ops = some h'.engine := by
  induction ops generalizing h with
  | nil =>
    cases run
    rfl
  | cons op rest ih =>
    rw [map_cons, Run.run, foldlM_cons] at run
    obtain ⟨h1, first, later⟩ := Option.bind_eq_some_iff.mp run
    obtain ⟨e1, eq, rfl⟩ := Option.map_eq_some_iff.mp first
    have here : step env h.engine op = some e1 := eq
    rw [Run.run, foldlM_cons, here]
    exact ih later

/-- Two rounds of put and flush, and a merge of their files. -/
def mergedCalls : List Op :=
  [.put [97] [49], .flush .byId, .put [98] [50], .flush .byId, .compact .byId]

theorem timestamps_advance_of_merge :
    ∃ h e, Run.run (History.step .plain) (History.fresh .plain .default)
        (mergedCalls.map .op) = some h ∧
      advance .plain h.engine (.restart .default false) = some e ∧
      (∀ r ∈ e.storedRows, r.ts < e.nextTimestamp) ∧
      ∀ (later : List Event) (e' : Engine),
        Run.Along (advance .plain) (Undisturbed .plain) e later →
        Run.run (advance .plain) e later = some e' →
        ∀ k v, WriteLog.lastWrite (later.flatMap Event.writes) k = some (some v) →
          ∀ order, (k, v) ∈ e'.scanAll order := by
  have accounted : Run.Along (History.step .plain) (Accounted .plain)
      (History.fresh .plain .default) (mergedCalls.map .op) := by decide +kernel
  have runs : (Run.run (History.step .plain) (History.fresh .plain .default)
      (mergedCalls.map .op)).isSome = true := by decide +kernel
  obtain ⟨h, run⟩ := Option.isSome_iff_exists.mp runs
  have replays : (replayLogs .plain .default
      (runLogs .plain (fresh .plain .default) mergedCalls)).isSome = true := by decide +kernel
  obtain ⟨s, replay⟩ := Option.isSome_iff_exists.mp replays
  obtain ⟨e, opened, _⟩ := restart_of_calls lossless_plain (run_history_calls run)
    (by decide +kernel) replay false
  obtain ⟨stored, _, later⟩ := timestamps_advance_of_run .plain lossless_plain .default .default
    false _ accounted h run e opened
  exact ⟨h, e, run, opened, stored, later⟩

end Histories

end Engine

end GalaxDb
