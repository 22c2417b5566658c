import GalaxDb.Storage.Restarts

/-!
# Names of files

A flush or a compaction that runs while the counter of names is ahead of every registered
file draws new names only. The counter is ahead as long as the process that wrote the
files is still the one that draws; opening the directory in a new process leaves it behind.
-/

namespace GalaxDb

open Std Row Compaction List

namespace Engine

section Registry

variable {e e' : Engine}

/-- Registry and directory are in order, whatever the counter of names says. -/
def Registered (e : Engine) : Prop := ∃ n, ({ e with nextBlockId := n } : Engine).SstInv

theorem SstInv.of_eq (inv : e.SstInv) (registry : e'.sstRegistry = e.sstRegistry)
    (files : e'.files = e.files) (sstId : e'.nextSstId = e.nextSstId)
    (blockId : e'.nextBlockId = e.nextBlockId) : e'.SstInv := by
  refine ⟨?_, ?_, ?_, ?_, ?_⟩ <;> simp only [registry, files, sstId, blockId]
  · exact inv.id_lt
  · exact inv.path_lt
  · exact inv.present
  · exact inv.inj
  · exact inv.registered

theorem Registered.of_eq (h : e.Registered) (registry : e'.sstRegistry = e.sstRegistry)
    (files : e'.files = e.files) (sstId : e'.nextSstId = e.nextSstId) : e'.Registered := by
  obtain ⟨n, inv⟩ := h
  exact ⟨n, inv.of_eq registry files sstId rfl⟩

variable {id n : Nat}

theorem SstInv.raise (inv : e.SstInv) (up : e.nextBlockId ≤ n) :
    ({ e with nextBlockId := n } : Engine).SstInv :=
  ⟨inv.id_lt, fun id entry he => (inv.path_lt id entry he).trans_le up,
    inv.present, inv.inj, inv.registered⟩

/-- The counter of names may be taken as large as needed. -/
theorem Registered.exists_above (h : e.Registered) (names : List Nat) :
    ∃ n, ({ e with nextBlockId := n } : Engine).SstInv ∧ ∀ m ∈ names, m < n := by
  induction names with
  | nil =>
    obtain ⟨n, inv⟩ := h
    exact ⟨n, inv, by simp⟩
  | cons m rest ih =>
    obtain ⟨n, inv, above⟩ := ih
    refine ⟨max n (m + 1), inv.raise (le_max_left _ _), ?_⟩
    intro k hk
    rcases mem_cons.mp hk with rfl | hk
    · omega
    · have := above k hk
      omega

theorem Registered.unused (h : e.Registered) (fresh : n ∉ e.registeredPaths) :
    e.files[n]? = none := by
  obtain ⟨_, inv⟩ := h
  refine Option.eq_none_iff_forall_ne_some.mpr (fun f hf => fresh ?_)
  exact mem_registeredPaths.mpr (inv.registered n f hf)

theorem Registered.id_lt (h : e.Registered) {entry : SstEntry}
    (found : e.sstRegistry[id]? = some entry) : id < e.nextSstId := by
  obtain ⟨_, inv⟩ := h
  exact inv.id_lt id entry found

/-- No two registered files share their path. -/
def PathsApart (e : Engine) : Prop :=
  ∀ (id id' : Nat) (entry : SstEntry), e.sstRegistry[id]? = some entry →
    e.sstRegistry[id']? = some entry → id = id'

theorem Registered.pathsApart (h : e.Registered) : e.PathsApart := by
  obtain ⟨_, inv⟩ := h
  exact inv.inj

theorem frame_foldl_registerNext (files : List (Nat × SstFile)) (e : Engine) :
    (files.foldl registerNext e).nextBlockId = e.nextBlockId ∧
      (files.foldl registerNext e).art = e.art ∧ SameBut e (files.foldl registerNext e) := by
  induction files generalizing e with
  | nil => exact ⟨rfl, rfl, SameBut.refl e⟩
  | cons f rest ih =>
    obtain ⟨counter, art, same⟩ := ih (e.registerNext f)
    have first : SameBut e (e.registerNext f) := ⟨⟨rfl, rfl, rfl, rfl, rfl, rfl⟩, rfl⟩
    exact ⟨counter, art, first.trans same⟩

/-- What is left of a list of registrations under names that are new. -/
theorem Registered.registerAll (h : e.Registered) {files : List (Nat × SstFile)}
    (fresh : FreshNames (e, files.map Prod.fst)) :
    (files.foldl registerNext e).Registered ∧ ∀ id, (files.foldl registerNext e).fileOf id =
        if id < e.nextSstId then e.fileOf id
        else (files[id - e.nextSstId]?).map Prod.snd := by
  obtain ⟨n, inv, above⟩ := h.exists_above (files.map Prod.fst)
  have new : ∀ f ∈ files, e.files[f.1]? = none ∧ f.1 < n := by
    intro f hf
    have name := mem_map_of_mem (f := Prod.fst) hf
    exact ⟨h.unused (fresh.2 f.1 name), above f.1 name⟩
  have moved : files.foldl registerNext { e with nextBlockId := n } =
      { files.foldl registerNext e with nextBlockId := n } := by
    have with_art := foldl_registerNext_with files e e.art n
    rw [with_art, ← (frame_foldl_registerNext files e).2.1]
  obtain ⟨inv', _, _, _, _, all⟩ := foldl_registerNext_spec inv files new fresh.1
  rw [moved] at inv' all
  exact ⟨⟨n, inv'⟩, all⟩

theorem registry_foldl_registerNext (files : List (Nat × SstFile)) (old : id < e.nextSstId) :
    (files.foldl registerNext e).sstRegistry[id]? = e.sstRegistry[id]? := by
  induction files generalizing e with
  | nil => rfl
  | cons f rest ih =>
    have next : id < (e.registerNext f).nextSstId := Nat.lt_succ_of_lt old
    have other : e.nextSstId ≠ id := by omega
    rw [foldl_cons, ih next]
    simp [registerNext, registerFile, ExtTreeMap.getElem?_insert, other]

theorem paths_foldl_registerNext (files : List (Nat × SstFile))
    (h : n ∈ (files.foldl registerNext e).registeredPaths) :
    n ∈ e.registeredPaths ∨ n ∈ files.map Prod.fst := by
  induction files generalizing e with
  | nil => exact Or.inl h
  | cons f rest ih =>
    rcases ih h with later | later
    · obtain ⟨id, found⟩ := mem_registeredPaths.mp later
      simp only [registerNext, registerFile, ExtTreeMap.getElem?_insert] at found
      split at found
      · cases found
        exact Or.inr mem_cons_self
      · exact Or.inl (mem_registeredPaths.mpr ⟨id, found⟩)
    · exact Or.inr (mem_cons_of_mem f.1 later)

end Registry

section Draw

variable {env : Platform} {e e' : Engine}

theorem Registered.flushActive (h : e.Registered) (fresh : FreshNames (e, flushNames env e))
    (entries : e.memtableMgr.active.iterAll ≠ []) (flush : e.flushActive env = some e') :
    e'.Registered := by
  obtain ⟨art, rfl⟩ := flushActive_eq_some entries flush
  have raised : ({ e with nextBlockId := (flushResult env e).nextBlockId } : Engine).Registered :=
    h.of_eq rfl rfl rfl
  exact (raised.registerAll fresh).1.of_eq rfl rfl rfl

/-- The inputs of a compaction are still registered when its outputs are. -/
theorem inputs_registered (h : e.Registered) (outs : List CompactionOutput) (order : IterOrder) :
    ∀ i ∈ order.order e.sstRegistry.toList,
      ((outputFiles e.nextBlockId outs).foldl registerNext e).sstRegistry[i.1]? = some i.2 := by
  intro i hi
  have found : e.sstRegistry[i.1]? = some i.2 :=
    ExtTreeMap.mem_toList_iff_getElem?_eq_some.mp ((order.perm _).mem_iff.mp hi)
  rw [registry_foldl_registerNext _ (h.id_lt found)]
  exact found

variable {order : IterOrder} {force : Bool}

/-- A compaction changes files and index only. -/
theorem frame_compactInner (compact : e.compactInner env order force = some e') : SameBut e e' := by
  rcases compactInner_eq_some compact with ⟨_, rfl⟩ | ⟨_, written, art, hw, rfl⟩
  · exact SameBut.refl e'
  · have frame : SameBut e written := hw ▸ (frame_foldl_registerNext _ _).2.2
    exact ⟨⟨frame.config, frame.wal, frame.nextTimestamp, frame.pinSource, frame.bgWorkerActive,
      frame.columnar⟩, frame.memtableMgr⟩

theorem Registered.compactInner (h : e.Registered)
    (fresh : FreshNames (e, compactNames env e order force))
    (compact : e.compactInner env order force = some e') : e'.Registered := by
  rcases compactInner_eq_some compact with ⟨_, rfl⟩ | ⟨many, written, art, hw, rfl⟩
  · exact h
  · rw [compactNames, if_neg many] at fresh
    obtain ⟨n, inv⟩ := (h.registerAll fresh).1
    have inside := inputs_registered h (compactOutputs env e order) order
    rw [← hw] at inv inside
    exact ⟨n, (dropFiles_spec inv inside).1.of_eq rfl rfl rfl rfl⟩

/-- The counter of names is ahead of every registered file. -/
def CounterAhead (e : Engine) : Prop := ∀ n ∈ e.registeredPaths, n < e.nextBlockId

instance (e : Engine) : Decidable e.CounterAhead :=
  inferInstanceAs (Decidable (∀ n ∈ e.registeredPaths, n < e.nextBlockId))

theorem CounterAhead.flushNames (ahead : e.CounterAhead) (env : Platform) :
    FreshNames (e, flushNames env e) := by
  obtain ⟨_, range, nodup⟩ := ids_flushResult env e
  refine ⟨nodup, ?_⟩
  intro n hn used
  obtain ⟨f, hf, rfl⟩ := mem_map.mp hn
  exact absurd (ahead f.1 used) (range f hf).1.not_gt

theorem CounterAhead.compactNames (ahead : e.CounterAhead) (env : Platform) (order : IterOrder)
    (force : Bool) : FreshNames (e, compactNames env e order force) := by
  unfold Engine.compactNames
  by_cases few : (order.order e.sstRegistry.toList).length < if force then 1 else 2
  · rw [if_pos few]
    exact ⟨nodup_nil, by simp⟩
  · rw [if_neg few, map_fst_outputFiles]
    refine ⟨nodup_range' 1, ?_⟩
    intro n hn used
    have := ahead n used
    have := (mem_range'_1.mp hn).1
    omega

theorem CounterAhead.flushActive (ahead : e.CounterAhead)
    (entries : e.memtableMgr.active.iterAll ≠ []) (flush : e.flushActive env = some e') :
    e'.CounterAhead := by
  obtain ⟨up, range, _⟩ := ids_flushResult env e
  obtain ⟨art, rfl⟩ := flushActive_eq_some entries flush
  have counter : (flushRegistered env e).nextBlockId = (flushResult env e).nextBlockId :=
    (frame_foldl_registerNext _ _).1
  intro n hn
  have below : n < (flushResult env e).nextBlockId := by
    rcases paths_foldl_registerNext (flushResult env e).files hn with old | new
    · exact (ahead n old).trans_le up
    · obtain ⟨f, hf, rfl⟩ := mem_map.mp new
      exact (range f hf).2
  exact counter.symm ▸ below

/-- Everything a flush or a compaction names is new if the counter is ahead. -/
theorem CounterAhead.draws (ahead : e.CounterAhead) (env : Platform) (op : Op) :
    ∀ drawn ∈ draws env e op, FreshNames drawn := by
  intro drawn hd
  cases op with
  | flush order =>
    simp only [Engine.draws] at hd
    split at hd
    · cases hd
    · rename_i entries
      rcases mem_cons.mp hd with rfl | hd
      · exact ahead.flushNames env
      · obtain ⟨flushed, hf, hd⟩ := mem_flatMap.mp hd
        have after := ahead.flushActive entries (Option.mem_toList.mp hf)
        split at hd
        · cases hd
        · split at hd
          · cases hd
          · obtain rfl := mem_singleton.mp hd
            exact after.compactNames env order false
  | compact order =>
    obtain rfl := mem_singleton.mp hd
    exact ahead.compactNames env order false
  | forceCompact order =>
    obtain rfl := mem_singleton.mp hd
    exact ahead.compactNames env order true
  | put key value => cases hd
  | putBatch rows => cases hd
  | delete key => cases hd
  | configure pins bg columnar => cases hd

end Draw

section Steps

variable {env : Platform} {e e' : Engine}

theorem Registered.step (h : e.Registered) {op : Op}
    (fresh : ∀ drawn ∈ draws env e op, FreshNames drawn) (next : step env e op = some e') :
    e'.Registered := by
  cases op with
  | put key value =>
    obtain ⟨art, rfl⟩ := putSync_eq_some next
    exact h.of_eq rfl rfl rfl
  | putBatch rows =>
    rcases putBatchSync_eq_some next with ⟨_, rfl⟩ | ⟨_, e1, applied, rfl⟩
    · exact h
    · have kept : e1.Registered := applyBatch_induction (P := fun _ e => e.Registered)
        (fun _ _ _ _ _ before => before.of_eq rfl rfl rfl) applied (h.of_eq rfl rfl rfl)
      exact kept.of_eq rfl rfl rfl
  | delete key =>
    cases next
    unfold deleteSync
    split
    · exact h
    · exact h.of_eq rfl rfl rfl
  | flush order =>
    rcases flushMemtable_eq_some next with ⟨_, rfl⟩ | ⟨entries, flushed, flush, outcome⟩
    · exact h
    · simp only [draws, if_neg entries, flush, Option.toList_some, flatMap_singleton] at fresh
      have after := h.flushActive (fresh _ mem_cons_self) entries flush
      rcases outcome with rfl | ⟨bg, many, compact⟩
      · exact after
      · refine after.compactInner (fresh _ (mem_cons_of_mem _ ?_)) compact
        simp [bg, many]
  | compact order | forceCompact order => exact h.compactInner (fresh _ mem_cons_self) next
  | configure pins bg columnar =>
    cases next
    exact h.of_eq rfl rfl rfl

theorem le_foldl_max (l : List (Nat × SstFile)) (m : Nat) :
    m ≤ l.foldl (fun m f => max m f.1) m ∧ ∀ f ∈ l, f.1 ≤ l.foldl (fun m f => max m f.1) m := by
  induction l generalizing m with
  | nil => simp
  | cons g rest ih =>
    obtain ⟨start, later⟩ := ih (max m g.1)
    refine ⟨(le_max_left m g.1).trans start, ?_⟩
    intro f hf
    rcases mem_cons.mp hf with rfl | hf
    · exact (le_max_right m f.1).trans start
    · exact later f hf

/-- Whatever the directory holds, opening it registers every file once. -/
theorem registered_new {config : EngineConfig} {dir : DataDir}
    (opened : Engine.new env config dir = some e) : e.Registered := by
  obtain ⟨wal, s, _, _, rfl⟩ := new_eq_some opened
  have registry : ∀ id : Nat, (discover dir.files)[id]? = (dir.files[id]?).map (fun _ => ⟨id⟩) := by
    intro id
    rw [discover, ExtTreeMap.getElem?_map]
  have found : ∀ (id : Nat) (entry : SstEntry), (discover dir.files)[id]? = some entry →
      entry.path = id ∧ ∃ f, dir.files[id]? = some f := by
    intro id entry he
    rw [registry] at he
    obtain ⟨f, hf, rfl⟩ := Option.map_eq_some_iff.mp he
    exact ⟨rfl, f, hf⟩
  have below : ∀ (id : Nat) (entry : SstEntry), (discover dir.files)[id]? = some entry →
      id < max (dir.files.toList.foldl (fun m f => max m f.1) 0 + 1) 1 := by
    intro id entry he
    obtain ⟨_, f, hf⟩ := found id entry he
    have := (le_foldl_max dir.files.toList 0).2 (id, f)
      (ExtTreeMap.mem_toList_iff_getElem?_eq_some.mpr hf)
    omega
  refine ⟨max (dir.files.toList.foldl (fun m f => max m f.1) 0 + 1) 1, below, ?_, ?_, ?_, ?_⟩
  · intro id entry he
    rw [(found id entry he).1]
    exact below id entry he
  · intro id entry he
    obtain ⟨path, f, hf⟩ := found id entry he
    exact ⟨f, by rw [path]; exact hf⟩
  · intro id id' entry he he'
    exact (found id entry he).1.symm.trans (found id' entry he').1
  · intro path f hf
    have stored : dir.files[path]? = some f := hf
    exact ⟨path, (registry path).trans (by rw [stored]; rfl)⟩

end Steps

section Histories

variable {env : Platform} {e e' : Engine}

/-- A flush or a compaction runs only while the counter of names is ahead. -/
def NamesCounted (e : Engine) : Event → Prop
  | .op (.flush _) => e.CounterAhead
  | .op (.compact _) => e.CounterAhead
  | .op (.forceCompact _) => e.CounterAhead
  | _ => True

instance (e : Engine) (event : Event) : Decidable (e.NamesCounted event) := by
  unfold NamesCounted
  split <;> infer_instance

/-- Whatever the event gives a name to gets a new one, and no files share theirs. -/
def NamesFresh (env : Platform) (e : Engine) : Event → Prop
  | .op op => (∀ drawn ∈ draws env e op, FreshNames drawn) ∧ e.PathsApart
  | _ => e.PathsApart

theorem NamesCounted.draws {op : Op} (counted : e.NamesCounted (.op op)) (env : Platform) :
    ∀ drawn ∈ draws env e op, FreshNames drawn := by
  cases op with
  | flush order => exact CounterAhead.draws counted env (.flush order)
  | compact order => exact CounterAhead.draws counted env (.compact order)
  | forceCompact order => exact CounterAhead.draws counted env (.forceCompact order)
  | put key value => simp [Engine.draws]
  | putBatch rows => simp [Engine.draws]
  | delete key => simp [Engine.draws]
  | configure pins bg columnar => simp [Engine.draws]

theorem Registered.advance (h : e.Registered) {event : Event} (counted : e.NamesCounted event)
    (next : advance env e event = some e') : e'.Registered := by
  cases event with
  | op op => exact h.step (NamesCounted.draws counted env) next
  | failedWrite =>
    cases next
    exact h.of_eq rfl rfl rfl
  | restart config sameProcess =>
    obtain ⟨opened, new, rfl⟩ := Option.map_eq_some_iff.mp next
    exact (registered_new new).of_eq rfl rfl rfl

theorem registered_fresh (env : Platform) (config : EngineConfig) :
    (fresh env config).Registered := registered_new (new_empty env config)

/-- Along every history whose flushes and compactions find the counter ahead, every name
is new when it is drawn, and at its end no two files share a path. -/
theorem names_fresh_of_run (env : Platform) (config : EngineConfig) (events : List Event)
    (counted : Run.Along (advance env) NamesCounted (fresh env config) events) :
    Run.Along (advance env) (NamesFresh env) (fresh env config) events ∧
      ∀ e, Run.run (advance env) (fresh env config) events = some e → e.PathsApart := by
  have preserved : ∀ e event e', e.Registered → e.NamesCounted event →
      advance env e event = some e' → e'.Registered :=
    fun e event e' h counted next => h.advance counted next
  have shows : ∀ e event, e.Registered → e.NamesCounted event → NamesFresh env e event := by
    intro e event h counted
    cases event with
    | op op => exact ⟨NamesCounted.draws counted env, h.pathsApart⟩
    | failedWrite => exact h.pathsApart
    | restart config sameProcess => exact h.pathsApart
  have start := registered_fresh env config
  refine ⟨counted.of_invariant preserved shows start, ?_⟩
  intro e run
  exact (Run.invariant_of_run preserved start counted run).pathsApart

/-- Two rounds of put and flush, and a merge of their files. -/
def mergedFiles : List Event :=
  [.op (.put [97] [49]), .op (.flush .byId), .op (.put [98] [50]), .op (.flush .byId),
    .op (.compact .byId)]

theorem names_fresh_of_merge :
    Run.Along (advance .plain) NamesCounted (fresh .plain .default) mergedFiles ∧
      Run.Along (advance .plain) (NamesFresh .plain) (fresh .plain .default) mergedFiles := by
  have counted : Run.Along (advance .plain) NamesCounted (fresh .plain .default) mergedFiles := by
    decide +kernel
  exact ⟨counted, (names_fresh_of_run .plain .default mergedFiles counted).1⟩

/-- A flush, a restart in a new process, and a flush of what the log gave back. -/
def flushedAgain : List Event :=
  [.op (.put [97] [49]), .op (.flush .byId)] ++ [.restart .default false, .op (.flush .byId)]

/-- The second flush names its file like the first, which is registered. -/
theorem name_reused_after_restart :
    ¬ Run.Along (advance .plain) (NamesFresh .plain) (fresh .plain .default) flushedAgain := by
  obtain ⟨e, first, wal, files⟩ : ∃ e, Run.run (advance .plain) (fresh .plain .default)
      [.op (.put [97] [49]), .op (.flush .byId)] = some e ∧
      e.wal = (fresh .plain .default).wal.append Platform.plain.toWalCodec .rowPut
        (encodeKv [97] [49]) ∧
      e.files = (∅ : ExtTreeMap Nat SstFile compare).insert 2
        [PaxBlock.write 1 1 [⟨[97], [49], 1⟩] []] := ⟨_, rfl, rfl, rfl⟩
  have holds : Wal.Holds Platform.plain.toWalCodec e.wal
      [⟨.rowPut, (fresh .plain .default).wal.nextSeqNo, encodeKv [97] [49]⟩] :=
    wal ▸ Wal.holds_append (wal_fresh .plain .default) _ _
  let start : ReplayState :=
    ⟨Memtable.new EngineConfig.default.memtableSizeBytes, ArtIndex.new, 1, 0⟩
  let replayed : ReplayState := ⟨(start.active.put [97] 1 (some [49])).1,
    ⟨some (.leaf [97] (memtableLocation .plain [97])), 1⟩, 2, 1⟩
  have replay : ∀ seqNo, [(⟨.rowPut, seqNo, encodeKv [97] [49]⟩ : WalRecord)].foldlM
      (replayRecord .plain) start = some replayed := fun _ => rfl
  obtain ⟨wal', opened⟩ := restart_eq_some lossless_plain holds
    (by simp [WalRecord.Fits, Platform.plain, encodeKv]) rfl false (replay _)
  have twice : ¬ FreshNames (reopened .default ⟨[], 0, 0, 1⟩ e.files replayed,
      flushNames .plain (reopened .default ⟨[], 0, 0, 1⟩ e.files replayed)) := by
    rw [files]
    decide +kernel
  intro along
  have last := ((along.after first).2 _ opened).1
  have again : FreshNames (reopened .default wal' e.files replayed,
      flushNames .plain (reopened .default wal' e.files replayed)) := by
    apply last.1
    exact mem_cons_self
  exact twice again

end Histories

end Engine

end GalaxDb
