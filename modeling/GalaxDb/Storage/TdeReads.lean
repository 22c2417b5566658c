import GalaxDb.Storage.TdeMirror
import GalaxDb.Storage.Timestamps

/-!
# Reads with and without encryption

The scans of an engine with encryption see none of its files. They return what they return
without encryption as long as nothing but tombstones is flushed, and as long as the longer
blocks are cut into the same files.
-/

namespace GalaxDb

open Std Compaction Flush List Option

deriving instance DecidableEq for PaxBlock, FlushResult, CompactionOutput

namespace Engine

section Tombstones

variable {env : Platform} {e e' : Engine}

/-- The files hold tombstones only, each of them older than the memtable. -/
structure Hollow (e : Engine) : Prop where
  unsealed : e.memtableMgr.active.isSealed = false
  drawn : ∀ x ∈ e.memtableMgr.active.rows, x.ts < e.nextTimestamp
  stored : ∀ (path : Nat) (f : SstFile), e.files[path]? = some f → ∀ r ∈ SstFile.rows f,
    r.value = [] ∧ r.ts < e.nextTimestamp ∧ ∀ x ∈ e.memtableMgr.active.rows, r.ts < x.ts

theorem Hollow.of_eq (h : e.Hollow) (mgr : e'.memtableMgr = e.memtableMgr)
    (ts : e'.nextTimestamp = e.nextTimestamp) (files : e'.files = e.files) : e'.Hollow := by
  refine ⟨?_, ?_, ?_⟩ <;> simp only [mgr, ts, files]
  · exact h.unsealed
  · exact h.drawn
  · exact h.stored

theorem hollow_fresh (env : Platform) (config : EngineConfig) : (fresh env config).Hollow := by
  have none_written : (fresh env config).memtableMgr.active.rows = [] := rfl
  refine ⟨rfl, ?_, ?_⟩
  · simp [none_written]
  · intro path f hf
    simp [fresh] at hf

/-- One version under the next timestamp. -/
theorem Hollow.put (h : e.Hollow) {key : Bytes} {value : Option Bytes}
    (active : e'.memtableMgr.active = (e.memtableMgr.active.put key e.nextTimestamp value).1)
    (ts : e'.nextTimestamp = e.nextTimestamp + 1) (files : e'.files = e.files) : e'.Hollow := by
  have rows : ∀ x ∈ e'.memtableMgr.active.rows,
      x.ts = e.nextTimestamp ∨ x ∈ e.memtableMgr.active.rows := by
    intro x hx
    rw [active] at hx
    rcases mem_rows_put h.unsealed hx with rfl | old
    · exact Or.inl rfl
    · exact Or.inr old
  constructor
  case unsealed => rw [active, Memtable.isSealed_put, h.unsealed]
  case drawn =>
    intro x hx
    rw [ts]
    rcases rows x hx with new | old
    · omega
    · exact Nat.lt_succ_of_lt (h.drawn x old)
  case stored =>
    intro path f hf r hr
    rw [files] at hf
    obtain ⟨tombstone, below, older⟩ := h.stored path f hf r hr
    refine ⟨tombstone, ?_, ?_⟩
    · rw [ts]
      exact Nat.lt_succ_of_lt below
    · intro x hx
      rcases rows x hx with new | old
      · rw [new]
        exact below
      · exact older x old

/-- No key has a value in the memtable, or only an empty one. -/
def NoValues (m : Memtable) : Prop := ∀ entry ∈ m.iterAll, (entryToRow entry).value = []

instance (m : Memtable) : Decidable (NoValues m) :=
  inferInstanceAs (Decidable (∀ entry ∈ m.iterAll, (entryToRow entry).value = []))

theorem Hollow.flushActive (h : e.Hollow) (deletes : NoValues e.memtableMgr.active)
    (entries : e.memtableMgr.active.iterAll ≠ []) (flush : e.flushActive env = some e') :
    e'.Hollow := by
  obtain ⟨active, ts⟩ := active_flushActive h.unsealed entries flush
  have none_left : e'.memtableMgr.active.rows = [] := by rw [active]; rfl
  constructor
  case unsealed => rw [active]; rfl
  case drawn => simp [none_left]
  case stored =>
    intro path f hf r hr
    rw [ts, none_left]
    rcases files_flushActive entries flush hf with old | written
    · obtain ⟨tombstone, below, _⟩ := h.stored path f old r hr
      exact ⟨tombstone, below, by simp⟩
    · obtain ⟨entry, he, rfl⟩ := mem_map.mp (written hr)
      refine ⟨deletes entry he, ?_, by simp⟩
      have row : (⟨entry.1, entry.2.timestamp, entry.2.value⟩ : Row Bytes Bytes) ∈
          e.memtableMgr.active.rows :=
        Memtable.mem_rows.mpr ⟨entry.2, Memtable.mem_iterAll.mp he, mem_cons_self⟩
      exact h.drawn _ row

theorem Hollow.compactInner (h : e.Hollow) {order : IterOrder} {force : Bool}
    (compact : e.compactInner env order force = some e') : e'.Hollow := by
  have frame := frame_compactInner compact
  refine ⟨?_, ?_, ?_⟩
  · rw [frame.memtableMgr, h.unsealed]
  · rw [frame.memtableMgr, frame.nextTimestamp]
    exact h.drawn
  · rw [frame.memtableMgr, frame.nextTimestamp]
    intro path f hf r hr
    rcases files_compactInner compact hf with old | read
    · exact h.stored path f old r hr
    · obtain ⟨path', f', hf', r', hr', same⟩ := read r hr
      obtain ⟨tombstone, older⟩ := h.stored path' f' hf' r' hr'
      have ts : r'.ts = r.ts := congrArg Row.ts same
      have val : (if r.value = [] then none else some r.value) = none := by
        have eq : (if r'.value = [] then none else some r'.value) =
            if r.value = [] then none else some r.value := congrArg Row.val same
        rw [← eq, if_pos tombstone]
      refine ⟨?_, ts ▸ older⟩
      by_contra value
      rw [if_neg value] at val
      cases val

/-- No flush of the call finds a value in the memtable. -/
def FlushesNoValues (e : Engine) : Op → Prop
  | .flush _ => NoValues e.memtableMgr.active
  | _ => True

theorem Hollow.step (h : e.Hollow) {op : Op} (deletes : e.FlushesNoValues op)
    (next : step env e op = some e') : e'.Hollow := by
  cases op with
  | put key value =>
    obtain ⟨art, rfl⟩ := putSync_eq_some next
    exact h.put rfl rfl rfl
  | putBatch rows =>
    rcases putBatchSync_eq_some next with ⟨_, rfl⟩ | ⟨_, e1, applied, rfl⟩
    · exact h
    · have kept : e1.Hollow := applyBatch_induction (P := fun _ e => e.Hollow)
        (fun _ _ _ _ _ before => before.put rfl rfl rfl) applied (h.of_eq rfl rfl rfl)
      exact kept.of_eq rfl rfl rfl
  | delete key =>
    cases next
    unfold deleteSync
    split
    · exact h
    · exact h.put rfl rfl rfl
  | flush order =>
    rcases flushMemtable_eq_some next with ⟨_, rfl⟩ | ⟨entries, flushed, flush, outcome⟩
    · exact h
    · have after := h.flushActive deletes entries flush
      rcases outcome with rfl | ⟨_, _, compact⟩
      · exact after
      · exact after.compactInner compact
  | compact order | forceCompact order => exact h.compactInner next
  | configure pins bg columnar =>
    cases next
    exact h.of_eq rfl rfl rfl

end Tombstones

section Lengths

variable {env env' : Platform} {e : Engine}

/-- A merge has the same outputs with either length of a block, or there are too few files. -/
def SameMerge (env env' : Platform) (e : Engine) (order : IterOrder) (force : Bool) : Prop :=
  (order.order e.sstRegistry.toList).length < (if force then 1 else 2) ∨
    compactOutputs env e order = compactOutputs env' e order

/-- A flush cuts the same files with either length, and so does the merge that it starts. -/
def SameFlush (env env' : Platform) (e : Engine) (order : IterOrder) : Prop :=
  flushResult env e = flushResult env' e ∧ ∀ flushed ∈ (e.flushActive env).toList,
    flushed.bgWorkerActive = true ∨ flushed.sstRegistry.size < flushed.config.l0CompactionTrigger ∨
      SameMerge env env' flushed order false

def SameFiles (env env' : Platform) (e : Engine) : Op → Prop
  | .flush order => SameFlush env env' e order
  | .compact order => SameMerge env env' e order false
  | .forceCompact order => SameMerge env env' e order true
  | _ => True

/-- The rest of a flush, once its blocks are cut into files. -/
def registerFlush (e : Engine) (result : FlushResult) : Option Engine :=
  let registered := registerFiles
    { e with nextSstId := e.nextSstId + 1, nextBlockId := result.nextBlockId } e.nextSstId
    result.files
  (insertAll registered.art ((e.memtableMgr.active.iterAll.map Prod.fst).zip
    (flushLocations e.nextSstId result.blockMap))).map fun art =>
      { registered with
        art := art
        memtableMgr := registered.memtableMgr.sealActive.onFlushComplete e.memtableMgr.active.size }

theorem flushActive_congr (same : flushResult env e = flushResult env' e) :
    e.flushActive env = e.flushActive env' := by
  have cut : ∀ env : Platform, e.flushActive env = e.registerFlush (flushResult env e) :=
    fun _ => rfl
  rw [cut env, cut env', same]

theorem compactInner_congr {order : IterOrder} {force : Bool}
    (same : SameMerge env env' e order force) :
    e.compactInner env order force = e.compactInner env' order force := by
  rw [compactInner_eq, compactInner_eq]
  rcases same with few | outputs
  · rw [if_pos few, if_pos few]
  · rw [outputs]

theorem flushMemtable_congr {order : IterOrder} (same : SameFlush env env' e order) :
    e.flushMemtable env order = e.flushMemtable env' order := by
  simp only [Engine.flushMemtable]
  split
  · rfl
  · rw [← flushActive_congr same.1]
    cases flush : e.flushActive env with
    | none => rfl
    | some flushed =>
      have merge := same.2 flushed (by rw [flush]; exact mem_singleton.mpr rfl)
      simp only [bind_some, maybeCompact]
      rcases merge with bg | few | same
      · rw [if_pos bg, if_pos bg]
      · rw [if_pos few, if_pos few]
      · rw [compactInner_congr same]

/-- The lengths of blocks matter to the cutting of files only. -/
theorem step_congr {len len' : PaxBlock → Nat} {op : Op}
    (same : SameFiles { env with blockLen := len } { env with blockLen := len' } e op) :
    e.step { env with blockLen := len } op = e.step { env with blockLen := len' } op := by
  cases op with
  | put key value => rfl
  | putBatch rows =>
    have rows_eq : ∀ (rows : List (Bytes × Bytes)) (e : Engine),
        applyBatch { env with blockLen := len } e rows =
          applyBatch { env with blockLen := len' } e rows := by
      intro rows
      induction rows with
      | nil => exact fun _ => rfl
      | cons r rest ih =>
        intro e
        rw [applyBatch, applyBatch, funext ih]
        rfl
    simp only [Engine.step, putBatchSync, rows_eq]
  | delete key => rfl
  | flush order => rw [Engine.step, Engine.step, flushMemtable_congr same]
  | compact order => exact compactInner_congr same
  | forceCompact order => exact compactInner_congr same
  | configure pins bg columnar => rfl

/-- No flush finds a value, and files are cut alike. -/
def Alike (env env' : Platform) (e : Engine) (op : Op) : Prop :=
  e.FlushesNoValues op ∧ SameFiles env env' e op

end Lengths

/-- A scan that has met tombstones only has nothing to show. -/
theorem out_foldl_scanRow {rows : List SstRow} (tombstones : ∀ r ∈ rows, r.value = [])
    {s : ScanState} (start : s.out = ∅) : (rows.foldl scanRow s).out = ∅ := by
  induction rows generalizing s with
  | nil => exact start
  | cons r rest ih =>
    refine ih (fun r hr => tombstones r (mem_cons_of_mem _ hr)) ?_
    simp only [scanRow, if_pos (tombstones r mem_cons_self)]
    split
    · exact start
    · rw [start]
      rfl

theorem foldl_snapshotRow_tombstones {rows : List SstRow} (tombstones : ∀ r ∈ rows, r.value = [])
    (readTs : Timestamp) : rows.foldl (snapshotRow readTs) ∅ = ∅ := by
  induction rows with
  | nil => rfl
  | cons r rest ih =>
    have first : snapshotRow readTs ∅ r = ∅ := by
      simp only [snapshotRow, snapshotMerge, if_pos (tombstones r mem_cons_self)]
      split
      · rfl
      · split <;> rfl
    rw [foldl_cons, first]
    exact ih fun r hr => tombstones r (mem_cons_of_mem _ hr)

end Engine

namespace ScanColumnar

variable {active : Memtable} {req : Request} {columnZone : ColumnZone}

/-- Winners that say nothing beyond those of the other map: tombstones that any version in
the memtable replaces. -/
def Adds (active : Memtable) (winners winners' : Winners) : Prop :=
  ∀ k : Bytes, winners[k]? = winners'[k]? ∨ (winners'[k]? = none ∧
    ∃ t, winners[k]? = some (t, .tombstone) ∧ ∀ x ∈ active.rows, t < x.ts)

variable {winners winners' : Winners}

theorem Adds.considered (h : Adds active winners winners') {key : Bytes} {ts : Timestamp}
    {value : Option Bytes} (held : (⟨key, ts, value⟩ : Row Bytes Bytes) ∈ active.rows)
    (staged : Staged) :
    Adds active (consider winners key ts staged) (consider winners' key ts staged) := by
  have same : (consider winners key ts staged)[key]? = (consider winners' key ts staged)[key]? := by
    rcases h key with eq | ⟨none_there, t, buried, older⟩
    · simp only [consider, eq]
      cases found : winners'[key]? with
      | none => simp
      | some w =>
        simp only
        split <;> simp [eq, found]
    · have newer : ¬ ts < t := Nat.not_lt_of_lt (older _ held)
      simp [consider, none_there, buried, newer]
  have other : ∀ (w : Winners) (k : Bytes), key ≠ k → (consider w key ts staged)[k]? = w[k]? := by
    intro w k hk
    unfold consider
    split
    · split
      · rfl
      · simp [ExtTreeMap.getElem?_insert, hk]
    · simp [ExtTreeMap.getElem?_insert, hk]
  intro k
  by_cases hk : key = k
  · subst hk
    exact Or.inl same
  · rw [other winners k hk, other winners' k hk]
    exact h k

theorem Adds.memtableRow (h : Adds active winners winners') {entry : Bytes × VersionedValue}
    (held : entry ∈ active.iterAll) :
    Adds active (memtableRow req winners entry) (memtableRow req winners' entry) := by
  unfold ScanColumnar.memtableRow
  split
  · exact h
  · cases found : entry.2.getAtWithTs req.readTs with
    | none => exact h
    | some version =>
      obtain ⟨value, ts⟩ := version
      have row : (⟨entry.1, ts, value⟩ : Row Bytes Bytes) ∈ active.rows := by
        obtain ⟨w, hw, eq⟩ := map_eq_some_iff.mp found
        cases eq
        exact Memtable.mem_rows.mpr
          ⟨entry.2, Memtable.mem_iterAll.mp held, mem_of_find?_eq_some hw⟩
      cases value with
      | none => exact h.considered row .tombstone
      | some value =>
        cases parts : req.reg.splitter.split value with
        | none =>
          simp only [parts]
          exact h
        | some full =>
          simp only [parts]
          exact h.considered row _

theorem Adds.memtableRows (h : Adds active winners winners') :
    Adds active (active.iterAll.foldl (ScanColumnar.memtableRow req) winners)
      (active.iterAll.foldl (ScanColumnar.memtableRow req) winners') := by
  have each : ∀ (entries : List (Bytes × VersionedValue)) (winners winners' : Winners),
      entries ⊆ active.iterAll → Adds active winners winners' →
      Adds active (entries.foldl (ScanColumnar.memtableRow req) winners)
        (entries.foldl (ScanColumnar.memtableRow req) winners') := by
    intro entries
    induction entries with
    | nil => exact fun _ _ _ h => h
    | cons entry rest ih =>
      intro winners winners' sub h
      exact ih _ _ (fun e he => sub (mem_cons_of_mem _ he))
        (h.memtableRow (sub mem_cons_self))
  exact each _ _ _ (List.Subset.refl _) h

theorem Adds.blockRow (h : Adds active winners ∅) {block : PaxBlock} {r : SstRow × Nat}
    (tombstone : r.1.value = []) (older : ∀ x ∈ active.rows, r.1.ts < x.ts) :
    Adds active (blockRow columnZone req block winners r) ∅ := by
  unfold ScanColumnar.blockRow
  split
  · exact h
  · split
    · exact h
    · have buried : ∀ t, t = r.1.ts → Adds active (winners.insert r.1.key (t, .tombstone)) ∅ := by
        rintro t rfl k
        rw [ExtTreeMap.getElem?_insert]
        split
        · exact Or.inr ⟨by simp, r.1.ts, rfl, older⟩
        · exact h k
      rw [consider]
      split
      · split
        · exact h
        · exact buried _ rfl
      · exact buried _ rfl

theorem Adds.blocks {blocks : List PaxBlock} (tombstones : ∀ b ∈ blocks, ∀ r ∈ b.rows,
      r.value = [] ∧ ∀ x ∈ active.rows, r.ts < x.ts) :
    Adds active (blocks.foldl (blockRows columnZone req) ∅) ∅ := by
  have rows : ∀ (block : PaxBlock) (rows : List (SstRow × Nat)) (winners : Winners),
      (∀ r ∈ rows, r.1.value = [] ∧ ∀ x ∈ active.rows, r.1.ts < x.ts) → Adds active winners ∅ →
      Adds active (rows.foldl (ScanColumnar.blockRow columnZone req block) winners) ∅ := by
    intro block rows
    induction rows with
    | nil => exact fun _ _ h => h
    | cons r rest ih =>
      intro winners each h
      obtain ⟨tombstone, older⟩ := each r mem_cons_self
      exact ih _ (fun r hr => each r (mem_cons_of_mem _ hr)) (h.blockRow tombstone older)
  have all : ∀ (blocks : List PaxBlock) (winners : Winners), (∀ b ∈ blocks, ∀ r ∈ b.rows,
      r.value = [] ∧ ∀ x ∈ active.rows, r.ts < x.ts) → Adds active winners ∅ →
      Adds active (blocks.foldl (blockRows columnZone req) winners) ∅ := by
    intro blocks
    induction blocks with
    | nil => exact fun _ _ h => h
    | cons b rest ih =>
      intro winners each h
      refine ih _ (fun b hb => each b (mem_cons_of_mem _ hb)) (rows b _ _ ?_ h)
      intro r hr
      exact each b mem_cons_self r.1 (fst_mem_of_mem_zipIdx hr)
  exact all blocks ∅ tombstones fun _ => Or.inl rfl

/-- The batch shows the cells of the winners and nothing of the tombstones. -/
theorem Adds.assemble (h : Adds active winners winners') :
    assemble req winners = assemble req winners' := by
  have cells : ∀ w : Winners, (w.toList.filterMap fun w => w.2.2.cells?) =
      (w.filterMap fun _ v => v.2.cells?).toList.map Prod.snd := by
    intro w
    rw [ExtTreeMap.toList_filterMap, map_filterMap]
    refine filterMap_congr fun e _ => ?_
    cases e.2.2.cells? <;> rfl
  have same : (winners.filterMap fun _ v => v.2.cells?) =
      winners'.filterMap fun _ v => v.2.cells? := by
    apply ExtTreeMap.ext_getElem?
    intro k
    rw [ExtTreeMap.getElem?_filterMap', ExtTreeMap.getElem?_filterMap']
    rcases h k with eq | ⟨none_there, t, buried, _⟩
    · rw [eq]
    · rw [none_there, buried]
      rfl
  simp only [ScanColumnar.assemble, cells, same]

/-- Blocks of tombstones that are older than the memtable change nothing. -/
theorem scan_tombstones (registrations : List SplitterRegistration) {blocks : List PaxBlock}
    (tombstones : ∀ b ∈ blocks, ∀ r ∈ b.rows, r.value = [] ∧ ∀ x ∈ active.rows, r.ts < x.ts)
    (pfx : Bytes) (projection : List Nat) (predicates : List ColumnPredicate)
    (readTs : Timestamp) :
    scan columnZone registrations blocks active pfx projection predicates readTs =
      scan columnZone registrations [] active pfx projection predicates readTs := by
  unfold scan
  split
  · rfl
  · simp only
    split
    · rfl
    · rw [((Adds.blocks tombstones).memtableRows).assemble]
      rfl

end ScanColumnar

namespace TdeEngine

variable {σ : Type} {fmt : BlockFormat σ} {m : TdeModule σ}

/-- What the claims of a module about its ciphertexts come to for a scan. -/
def Unreadable (fmt : BlockFormat σ) (m : TdeModule σ) : Prop :=
  ∀ nonce text, fmt.deserialize (m.encrypt nonce text) = none

/-- Every reader returns the same, in whatever order the scans meet the files. -/
structure SameReads (fmt : BlockFormat σ) (s s' : TdeEngine σ) : Prop where
  get : ∀ key, s.get fmt key = s'.get fmt key
  scanAllWithPrefix : ∀ order order' keyPrefix,
    s.scanAllWithPrefix fmt order keyPrefix = s'.scanAllWithPrefix fmt order' keyPrefix
  scanAll : ∀ order order', s.scanAll fmt order = s'.scanAll fmt order'
  scanAllAt : ∀ order order' readTs, s.scanAllAt fmt order readTs = s'.scanAllAt fmt order' readTs
  scanColumnar : ∀ order order' pfx projection predicates readTs,
    s.scanColumnar fmt order pfx projection predicates readTs =
      s'.scanColumnar fmt order' pfx projection predicates readTs

section Blocks

variable {s : TdeEngine σ} {e : Engine}

theorem deserialize_encryptAll (unreadable : Unreadable fmt m) (nonce : Nat) (texts : List σ) :
    (encryptAll (some m) nonce texts).filterMap fmt.deserialize = [] := by
  induction texts generalizing nonce with
  | nil => rfl
  | cons text rest ih =>
    have passed : fmt.deserialize (encryptBlock (some m) nonce text) = none := unreadable nonce text
    rw [encryptAll, filterMap_cons_none passed]
    exact ih (nonce + 1)

/-- A scan passes over every block that was encrypted. -/
theorem Mirrors.scanBlocks_encrypted (unreadable : Unreadable fmt m)
    (h : Mirrors fmt (some m) s e) (order : IterOrder) : s.scanBlocks fmt order = [] := by
  rw [TdeEngine.scanBlocks, flatMap_eq_nil_iff]
  intro entry _
  rcases h.file entry.2.path with ⟨_, gone⟩ | ⟨blocks, nonce, _, stored⟩
  · rw [gone]
    rfl
  · rw [stored]
    exact deserialize_encryptAll unreadable nonce _

theorem encryptAll_none (nonce : Nat) (texts : List σ) : encryptAll none nonce texts = texts := by
  induction texts generalizing nonce with
  | nil => rfl
  | cons text rest ih => rw [encryptAll, ih, encryptBlock]

theorem Mirrors.scanBlocks_plain (law : ReadsBack fmt none) (h : Mirrors fmt none s e)
    (order : IterOrder) : s.scanBlocks fmt order = e.scanBlocks order := by
  rw [TdeEngine.scanBlocks, Engine.scanBlocks, h.inputs order, flatMap_map]
  refine flatMap_congr fun i _ => ?_
  rw [Engine.blocksOf]
  rcases h.file i.2.path with ⟨absent, gone⟩ | ⟨blocks, nonce, found, stored⟩
  · rw [absent, gone]
    rfl
  · rw [found, stored, getD_some, getD_some, encryptAll_none,
      filterMap_deserialize law]

end Blocks

end TdeEngine

theorem Engine.Hollow.scanBlocks {e : Engine} (h : e.Hollow) (order : IterOrder) :
    ∀ b ∈ e.scanBlocks order, ∀ r ∈ b.rows,
      r.value = [] ∧ ∀ x ∈ e.memtableMgr.active.rows, r.ts < x.ts := by
  intro b hb r hr
  obtain ⟨i, _, hb⟩ := mem_flatMap.mp hb
  rw [Engine.blocksOf] at hb
  cases found : e.files[i.2.path]? with
  | none => simp [found] at hb
  | some f =>
    rw [found] at hb
    obtain ⟨tombstone, _, older⟩ :=
      h.stored i.2.path f found r (mem_flatMap.mpr ⟨b, hb, hr⟩)
    exact ⟨tombstone, older⟩

namespace TdeEngine

variable {σ : Type} {fmt : BlockFormat σ} {m : TdeModule σ}

section Registrations

variable {env : Platform} {s s' : TdeEngine σ}

/-- The registrations after a call. -/
def columnarAfter (s : TdeEngine σ) : Call → List SplitterRegistration
  | .configure _ _ columnar => columnar
  | _ => s.columnar

theorem columnar_registerFiles (s : TdeEngine σ) (id : Nat) (files : List (Nat × SstFile)) :
    (s.registerFiles fmt id files).columnar = s.columnar := by
  cases files with
  | nil => rfl
  | cons file rest =>
    have further : ∀ (rest : List (Nat × SstFile)) (s : TdeEngine σ), (rest.foldl (fun s f =>
          { s.registerFile fmt s.nextSstId f with nextSstId := s.nextSstId + 1 }) s).columnar =
          s.columnar := by
      intro rest
      induction rest with
      | nil => exact fun _ => rfl
      | cons f rest ih => exact fun s => ih _
    exact further rest _

theorem columnar_flushActive (flush : s.flushActive fmt = some s') : s'.columnar = s.columnar := by
  obtain ⟨art, _, rfl⟩ := map_eq_some_iff.mp flush
  exact columnar_registerFiles _ _ _

theorem columnar_commitOutputs {ids : List Nat} {outs : List CompactionOutput}
    (commit : outs.foldlM (TdeEngine.commitOutput fmt ids) s = some s') :
    s'.columnar = s.columnar := by
  induction outs generalizing s with
  | nil =>
    cases commit
    rfl
  | cons out rest ih =>
    obtain ⟨s1, first, later⟩ := bind_eq_some_iff.mp commit
    obtain ⟨art, _, rfl⟩ := map_eq_some_iff.mp first
    have kept := ih later
    exact kept

theorem columnar_compactInner {order : IterOrder} {force : Bool}
    (compact : s.compactInner fmt order force = some s') : s'.columnar = s.columnar := by
  simp only [TdeEngine.compactInner] at compact
  by_cases few : (order.entries TdeSstEntry.path s.sstRegistry).length < if force then 1 else 2
  · rw [if_pos few] at compact
    cases compact
    rfl
  · rw [if_neg few] at compact
    cases read : (order.entries TdeSstEntry.path s.sstRegistry).mapM
        fun entry => s.inputBlocks fmt entry.2 with
    | none =>
      rw [read] at compact
      cases compact
      rfl
    | some blocks =>
      rw [read] at compact
      obtain ⟨s1, commit, rfl⟩ := map_eq_some_iff.mp compact
      have kept := columnar_commitOutputs commit
      exact kept

theorem columnar_step {call : Call} (next : s.step env fmt call = some s') :
    s'.columnar = s.columnarAfter call := by
  cases call with
  | put key value | putBatch rows =>
    obtain ⟨_, put, rfl⟩ := map_eq_some_iff.mp next
    obtain ⟨_, _, rfl⟩ := map_eq_some_iff.mp put
    rfl
  | delete key =>
    cases next
    rfl
  | flush order =>
    obtain ⟨⟨s1, n⟩, flush, rfl⟩ := map_eq_some_iff.mp next
    simp only [TdeEngine.flushMemtable] at flush
    split at flush
    · cases flush
      rfl
    · obtain ⟨flushed, active, later⟩ := bind_eq_some_iff.mp flush
      obtain ⟨s2, compacted, eq⟩ := map_eq_some_iff.mp later
      cases eq
      refine Eq.trans ?_ (columnar_flushActive active)
      split at compacted
      · cases compacted
        rfl
      · rw [TdeEngine.maybeCompact] at compacted
        split at compacted
        · cases compacted
          rfl
        · exact columnar_compactInner compacted
  | compact order => exact columnar_compactInner next
  | forceCompact order => exact columnar_compactInner next
  | configure pins bg columnar =>
    cases next
    rfl

end Registrations

section Pairs

variable {s s' : TdeEngine σ} {e : Engine}

/-- An engine with encryption and one without it, over the same blocks. -/
structure Paired (fmt : BlockFormat σ) (m : TdeModule σ) (s s' : TdeEngine σ) (e : Engine) :
    Prop where
  columnar : s.columnar = s'.columnar
  encrypted : Mirrors fmt (some m) s e
  plain : Mirrors fmt none s' e
  hollow : e.Hollow

theorem Paired.sameReads (law : ReadsBack fmt (some m)) (unreadable : Unreadable fmt m)
    (h : Paired fmt m s s' e) : SameReads fmt s s' := by
  have law' : ReadsBack fmt none := ⟨law.parses, by simp⟩
  have mgr : e.memtableMgr = s.memtableMgr := congrArg Engine.memtableMgr h.encrypted.front
  have mgr' : e.memtableMgr = s'.memtableMgr := congrArg Engine.memtableMgr h.plain.front
  have blind := h.encrypted.scanBlocks_encrypted unreadable
  have blocks := h.plain.scanBlocks_plain law'
  have tombstones := h.hollow.scanBlocks
  have scans : ∀ order order' keyPrefix,
      s.scanAllWithPrefix fmt order keyPrefix = s'.scanAllWithPrefix fmt order' keyPrefix := by
    intro order order' keyPrefix
    have rows : ∀ r ∈ Engine.scanRows (e.scanBlocks order') keyPrefix, r.value = [] := by
      intro r hr
      cases keyPrefix with
      | none =>
        obtain ⟨b, hb, hr⟩ := mem_flatMap.mp hr
        exact (tombstones order' b hb r hr).1
      | some pfx =>
        obtain ⟨b, hb, hr⟩ := mem_flatMap.mp hr
        exact (tombstones order' b (mem_of_mem_filter hb) r (mem_of_mem_filter hr)).1
    have nothing : Engine.scanRows [] keyPrefix = [] := by cases keyPrefix <;> rfl
    simp only [TdeEngine.scanAllWithPrefix, blind order, blocks order', nothing, ← mgr, ← mgr',
      foldl_nil, Engine.out_foldl_scanRow rows]
  constructor
  case get =>
    intro key
    rw [h.encrypted.get law, h.plain.get law']
  case scanAllWithPrefix => exact scans
  case scanAll => exact fun order order' => scans order order' none
  case scanAllAt =>
    intro order order' readTs
    have rows : ∀ r ∈ (e.scanBlocks order').flatMap PaxBlock.rows, r.value = [] := by
      intro r hr
      obtain ⟨b, hb, hr⟩ := mem_flatMap.mp hr
      exact (tombstones order' b hb r hr).1
    simp only [TdeEngine.scanAllAt, blind order, blocks order', ← mgr, ← mgr',
      Engine.foldl_snapshotRow_tombstones rows]
    rfl
  case scanColumnar =>
    intro order order' pfx projection predicates readTs
    rw [TdeEngine.scanColumnar, TdeEngine.scanColumnar, blind, blocks, h.columnar, ← mgr, ← mgr',
      ScanColumnar.scan_tombstones _ (tombstones order')]

theorem Paired.step {env : Platform} (law : ReadsBack fmt (some m)) (h : Paired fmt m s s' e)
    {call : Call} (alike : e.Alike (onDisk env fmt none) (onDisk env fmt (some m)) call.op) :
    Option.Rel
      (fun s s' => ∃ e', e.step (onDisk env fmt none) call.op = some e' ∧ Paired fmt m s s' e')
      (s.step env fmt call) (s'.step env fmt call) := by
  have encrypted := @Mirrors.step _ _ _ env _ _ law h.encrypted call
  have plain := @Mirrors.step _ _ _ env _ _ ⟨law.parses, by simp⟩ h.plain call
  have same : e.step (onDisk env fmt none) call.op = e.step (onDisk env fmt (some m)) call.op :=
    Engine.step_congr alike.2
  rw [← same] at encrypted
  refine rel_mono ?_ (rel_join encrypted plain)
  rintro s1 s1' ⟨after, after', e', next, mirrors, mirrors'⟩
  have columnar : s1.columnar = s1'.columnar := by
    rw [columnar_step after, columnar_step after']
    cases call with
    | configure pins bg columnar => rfl
    | _ => exact h.columnar
  exact ⟨e', next, columnar, mirrors, mirrors', h.hollow.step alike.1 next⟩

theorem paired_fresh (env : Platform) (config : EngineConfig) :
    Paired fmt m (fresh env config (some m)) (fresh env config none)
      (Engine.fresh (onDisk env fmt none) config) :=
  ⟨rfl, mirrors_fresh env fmt (some m) config, mirrors_fresh env fmt none config,
    Engine.hollow_fresh _ config⟩

theorem Paired.run {env : Platform} (law : ReadsBack fmt (some m)) {calls : List Call}
    (h : Paired fmt m s s' e)
    (alike : Run.Along (Engine.step (onDisk env fmt none))
      (Engine.Alike (onDisk env fmt none) (onDisk env fmt (some m))) e (calls.map Call.op)) :
    Option.Rel (fun s s' => ∃ e', Paired fmt m s s' e') (Run.run (TdeEngine.step env fmt) s calls)
      (Run.run (TdeEngine.step env fmt) s' calls) := by
  induction calls generalizing s s' e with
  | nil => exact Option.Rel.some ⟨e, h⟩
  | cons call rest ih =>
    obtain ⟨here, later⟩ := alike
    rw [Run.run, Run.run, foldlM_cons, foldlM_cons]
    have first := h.step law here
    generalize s.step env fmt call = o at first ⊢
    generalize s'.step env fmt call = o' at first ⊢
    cases first with
    | none => exact Option.Rel.none
    | some next =>
      obtain ⟨e', stepped, paired⟩ := next
      exact ih paired (later e' stepped)

/-- Along every run that flushes no value and whose longer blocks are cut into the same files,
every reader returns what it returns without encryption. -/
theorem same_reads_of_run (env : Platform) (fmt : BlockFormat σ) (m : TdeModule σ)
    (law : ReadsBack fmt (some m)) (unreadable : Unreadable fmt m) (config : EngineConfig)
    (calls : List Call)
    (alike : Run.Along (Engine.step (onDisk env fmt none))
      (Engine.Alike (onDisk env fmt none) (onDisk env fmt (some m)))
      (Engine.fresh (onDisk env fmt none) config) (calls.map Call.op)) :
    Option.Rel (SameReads fmt) (Run.run (step env fmt) (fresh env config (some m)) calls)
      (Run.run (step env fmt) (fresh env config none) calls) := by
  refine rel_mono ?_ ((paired_fresh env config).run law alike)
  rintro s s' ⟨e, paired⟩
  exact paired.sameReads law unreadable

end Pairs

/-- Bytes on disk as terms: a serialized block, or a ciphertext under a nonce. -/
inductive DiskBytes where
  | pax (block : PaxBlock)
  | cipher (nonce : Nat) (text : DiskBytes)

def DiskBytes.length : DiskBytes → Nat
  | .pax block => (block.rows.map fun r => r.key.length + r.value.length + 8).sum
  | .cipher _ text => text.length + 64

def diskFormat : BlockFormat DiskBytes where
  serialize := .pax
  deserialize
    | .pax block => some block
    | .cipher _ _ => none
  length := DiskBytes.length
  columnZone := fun _ _ => none

def diskModule : TdeModule DiskBytes where
  encrypt := .cipher
  decrypt
    | .cipher _ text => some text
    | .pax _ => none

theorem readsBack_disk : ReadsBack diskFormat (some diskModule) := by
  refine ⟨fun _ => rfl, ?_⟩
  rintro m hm nonce text
  cases hm
  rfl

theorem unreadable_disk : Unreadable diskFormat diskModule := fun _ _ => rfl

instance (e : Engine) (op : Engine.Op) : Decidable (e.FlushesNoValues op) := by
  unfold Engine.FlushesNoValues
  rcases op <;> infer_instance

instance (env env' : Platform) (e : Engine) (op : Engine.Op) : Decidable (e.Alike env env' op) := by
  unfold Engine.Alike Engine.SameFiles Engine.SameFlush Engine.SameMerge
  rcases op <;> infer_instance

/-- A key is written and deleted before the first flush, another one after it. -/
def deletedFirst : List Call :=
  [.put [97] [49], .delete [97], .flush .byId, .put [98] [50], .forceCompact .byId]

theorem same_reads_of_deletes : Run.Along (Engine.step (onDisk .plain diskFormat none))
        (Engine.Alike (onDisk .plain diskFormat none) (onDisk .plain diskFormat (some diskModule)))
        (Engine.fresh (onDisk .plain diskFormat none) .default) (deletedFirst.map Call.op) ∧
      Option.Rel (SameReads diskFormat)
        (Run.run (step .plain diskFormat) (fresh .plain .default (some diskModule)) deletedFirst)
        (Run.run (step .plain diskFormat) (fresh .plain .default none) deletedFirst) := by
  have alike : Run.Along (Engine.step (onDisk .plain diskFormat none))
      (Engine.Alike (onDisk .plain diskFormat none) (onDisk .plain diskFormat (some diskModule)))
      (Engine.fresh (onDisk .plain diskFormat none) .default) (deletedFirst.map Call.op) := by
    decide +kernel
  exact ⟨alike, same_reads_of_run .plain diskFormat diskModule readsBack_disk unreadable_disk
    .default deletedFirst alike⟩

theorem SameReads.mapped {o o' : Option (TdeEngine σ)} (h : Option.Rel (SameReads fmt) o o')
    {β : Type} {read : TdeEngine σ → β} (same : ∀ s s', SameReads fmt s s' → read s = read s') :
    o.map read = o'.map read := by
  cases h with
  | none => rfl
  | some reads => exact congrArg some (same _ _ reads)

/-- A flushed row is in no scan of an engine with encryption. -/
theorem scan_misses_flushed_row : ¬ Option.Rel (SameReads diskFormat)
      (Run.run (step .plain diskFormat) (fresh .plain .default (some diskModule))
        [.put [97] [49], .flush .byId])
      (Run.run (step .plain diskFormat) (fresh .plain .default none)
        [.put [97] [49], .flush .byId]) := by
  intro same
  have scans := @SameReads.mapped _ diskFormat _ _ same _ (fun s => s.scanAll diskFormat .byId)
    fun s s' reads => reads.scanAll .byId .byId
  have differ : (Run.run (step .plain diskFormat) (fresh .plain .default (some diskModule))
      [.put [97] [49], .flush .byId]).map (fun s => s.scanAll diskFormat .byId) ≠
    (Run.run (step .plain diskFormat) (fresh .plain .default none)
      [.put [97] [49], .flush .byId]).map (fun s => s.scanAll diskFormat .byId) := by
    decide +kernel
  exact differ scans

end TdeEngine

end GalaxDb
