import GalaxDb.Storage.Restarts
import GalaxDb.Storage.TdeEngine

/-!
# The blocks behind the bytes

An engine whose files can all be decrypted and parsed mirrors the engine that keeps the
blocks themselves, with the lengths that the blocks have on disk. Every call keeps the two
together.
-/

namespace GalaxDb

open Std Compaction List

section Maps

variable {α β : Type}

theorem map_insert (m : ExtTreeMap Nat α compare) (f : α → β) (k : Nat) (a : α) :
    (m.insert k a).map (fun _ => f) = (m.map fun _ => f).insert k (f a) := by
  apply ExtTreeMap.ext_getElem?
  intro k'
  simp only [ExtTreeMap.getElem?_map, ExtTreeMap.getElem?_insert]
  split <;> rfl

theorem map_erase (m : ExtTreeMap Nat α compare) (f : α → β) (k : Nat) :
    (m.erase k).map (fun _ => f) = (m.map fun _ => f).erase k := by
  apply ExtTreeMap.ext_getElem?
  intro k'
  simp only [ExtTreeMap.getElem?_map, ExtTreeMap.getElem?_erase]
  split <;> rfl

theorem map_foldl_erase (ids : List Nat) (m : ExtTreeMap Nat α compare) (f : α → β) :
    (ids.foldl (fun m id => m.erase id) m).map (fun _ => f) =
      ids.foldl (fun m id => m.erase id) (m.map fun _ => f) := by
  induction ids generalizing m with
  | nil => rfl
  | cons id rest ih => rw [foldl_cons, ih, map_erase, foldl_cons]

/-- The order of a pass depends on ids and paths only. -/
theorem IterOrder.entries_map (order : IterOrder) {path : α → Nat} {f : SstEntry → α}
    (same : ∀ entry, path (f entry) = entry.path) (registry : ExtTreeMap Nat SstEntry compare) :
    order.entries path (registry.map fun _ => f) =
      (order.order registry.toList).map fun e => (e.1, f e.2) := by
  have list : ((registry.map fun _ => f).toList.map fun e => (e.1, (⟨path e.2⟩ : SstEntry))) =
      registry.toList := by
    simp [Function.comp_def, same]
  rw [entries, list, ← filterMap_eq_map]
  refine filterMap_congr fun e he => ?_
  have found : registry[e.1]? = some e.2 :=
    ExtTreeMap.mem_toList_iff_getElem?_eq_some.mp ((order.perm _).mem_iff.mp he)
  rw [ExtTreeMap.getElem?_map, found]
  rfl

variable {R : α → β → Prop} {o : Option α} {o' : Option β}

theorem rel_map {γ : Type} {o : Option γ} {f : γ → α} {g : γ → β}
    (related : ∀ c, o = some c → R (f c) (g c)) : Option.Rel R (o.map f) (o.map g) := by
  cases o with
  | none => exact Option.Rel.none
  | some c => exact Option.Rel.some (related c rfl)

theorem rel_mono {S : α → β → Prop} (weaker : ∀ a b, R a b → S a b) (h : Option.Rel R o o') :
    Option.Rel S o o' := by
  cases h with
  | none => exact Option.Rel.none
  | some related => exact Option.Rel.some (weaker _ _ related)

/-- What is related to one result is related through it. -/
theorem rel_join {γ : Type} {R : α → γ → Prop} {S : β → γ → Prop} {next : Option γ}
    (h : Option.Rel R o next) (h' : Option.Rel S o' next) :
    Option.Rel (fun a b => o = some a ∧ o' = some b ∧ ∃ c, next = some c ∧ R a c ∧ S b c) o o' := by
  cases h with
  | none =>
    cases h'
    exact Option.Rel.none
  | some related =>
    cases h' with
    | some related' => exact Option.Rel.some ⟨rfl, rfl, _, rfl, related, related'⟩

end Maps

namespace TdeEngine

variable {σ : Type} {fmt : BlockFormat σ} {tde : Option (TdeModule σ)}

/-- What is written is read back, through the module if there is one. -/
structure ReadsBack (fmt : BlockFormat σ) (tde : Option (TdeModule σ)) : Prop where
  parses : ∀ block, fmt.deserialize (fmt.serialize block) = some block
  decrypts : ∀ m ∈ tde, ∀ nonce text, m.decrypt (m.encrypt nonce text) = some text

/-- The bytes of a file with these blocks. -/
def Stored (fmt : BlockFormat σ) (tde : Option (TdeModule σ)) (stored : List σ) (blocks : SstFile) :
    Prop :=
  ∃ nonce, stored = encryptAll tde nonce (blocks.map fmt.serialize)

structure Mirrors (fmt : BlockFormat σ) (tde : Option (TdeModule σ)) (s : TdeEngine σ)
    (e : Engine) : Prop where
  enabled : s.tde = tde
  front : e = { s.front with sstRegistry := e.sstRegistry, files := e.files }
  registry : s.sstRegistry = e.sstRegistry.map fun _ entry => ⟨entry.path, tde.isSome⟩
  files : ∀ path : Nat, Option.Rel (Stored fmt tde) s.files[path]? e.files[path]?

theorem decrypt_encrypt (law : ReadsBack fmt tde) (nonce : Nat) (text : σ) :
    decryptBlock tde tde.isSome (encryptBlock tde nonce text) = some text := by
  cases tde with
  | none => rfl
  | some m => exact law.decrypts m rfl nonce text

theorem mapM_decrypt (law : ReadsBack fmt tde) (nonce : Nat) (texts : List σ) :
    (encryptAll tde nonce texts).mapM (decryptBlock tde tde.isSome) = some texts := by
  induction texts generalizing nonce with
  | nil => rfl
  | cons text rest ih => simp [encryptAll, decrypt_encrypt law, ih]

theorem filterMap_deserialize (law : ReadsBack fmt tde) (blocks : SstFile) :
    (blocks.map fmt.serialize).filterMap fmt.deserialize = blocks := by
  rw [filterMap_map]
  have all : fmt.deserialize ∘ fmt.serialize = some := funext law.parses
  rw [all, filterMap_some]

theorem getElem?_encryptAll (nonce : Nat) (texts : List σ) (i : Nat) :
    (encryptAll tde nonce texts)[i]? = (texts[i]?).map (encryptBlock tde (nonce + i)) := by
  induction texts generalizing nonce i with
  | nil => rfl
  | cons text rest ih =>
    cases i with
    | zero => rfl
    | succ i =>
      rw [encryptAll, getElem?_cons_succ, ih, getElem?_cons_succ]
      congr 2
      omega

section Reads

variable {s : TdeEngine σ} {e : Engine}

theorem Mirrors.file (h : Mirrors fmt tde s e) (path : Nat) :
    (e.files[path]? = none ∧ s.files[path]? = none) ∨ ∃ blocks nonce, e.files[path]? = some blocks ∧
      s.files[path]? = some (encryptAll tde nonce (blocks.map fmt.serialize)) := by
  have here := h.files path
  cases found : e.files[path]? with
  | none =>
    cases stored : s.files[path]? with
    | none => exact Or.inl ⟨rfl, rfl⟩
    | some file =>
      rw [found, stored] at here
      cases here
  | some blocks =>
    cases stored : s.files[path]? with
    | none =>
      rw [found, stored] at here
      cases here
    | some file =>
      rw [found, stored] at here
      cases here with
      | some same =>
        obtain ⟨nonce, rfl⟩ := same
        exact Or.inr ⟨blocks, nonce, rfl, rfl⟩

theorem Mirrors.inputBlocks (law : ReadsBack fmt tde) (h : Mirrors fmt tde s e) (entry : SstEntry) :
    s.inputBlocks fmt ⟨entry.path, tde.isSome⟩ = some (e.blocksOf entry) := by
  rw [TdeEngine.inputBlocks, Engine.blocksOf, h.enabled]
  rcases h.file entry.path with ⟨absent, gone⟩ | ⟨blocks, nonce, found, stored⟩
  · rw [absent, gone]
    rfl
  · rw [found, stored, Option.getD_some, Option.getD_some, mapM_decrypt law, Option.map_some,
      filterMap_deserialize law]

theorem Mirrors.readValue (law : ReadsBack fmt tde) (h : Mirrors fmt tde s e) (id b r : Nat) :
    s.readValue fmt id b r = e.readValue id b r := by
  rw [TdeEngine.readValue, Engine.readValue, h.registry, ExtTreeMap.getElem?_map]
  cases registered : e.sstRegistry[id]? with
  | none => rfl
  | some entry =>
    simp only [Option.map_some, Option.bind_some, Engine.blocksOf, h.enabled]
    rcases h.file entry.path with ⟨absent, gone⟩ | ⟨blocks, nonce, found, stored⟩
    · rw [absent, gone]
      rfl
    · rw [found, stored, Option.bind_some, getElem?_encryptAll, getElem?_map, SstFile.rowAt,
        Option.getD_some]
      cases blocks[b]? with
      | none => rfl
      | some block => simp [decrypt_encrypt law, law.parses]

theorem Mirrors.get (law : ReadsBack fmt tde) (h : Mirrors fmt tde s e) (key : Bytes) :
    s.get fmt key = e.get key := by
  have art : e.art = s.art := congrArg Engine.art h.front
  have mem : e.memtableMgr = s.memtableMgr := congrArg Engine.memtableMgr h.front
  rw [TdeEngine.get, Engine.get, art, mem]
  cases s.art.lookup key with
  | none => rfl
  | some location =>
    cases location with
    | memtable shard key => rfl
    | sst id b r => exact h.readValue law id b r

end Reads

section Writes

variable {env : Platform} {s : TdeEngine σ} {e e' : Engine}

/-- A call that leaves the files and everything about them alone. -/
def Frames (e e' : Engine) : Prop :=
  e' = { e with
    memtableMgr := e'.memtableMgr
    art := e'.art
    wal := e'.wal
    nextTimestamp := e'.nextTimestamp
    rowCount := e'.rowCount }

theorem Frames.trans {e1 e2 e3 : Engine} (h : Frames e1 e2) (h' : Frames e2 e3) : Frames e1 e3 := by
  rw [Frames, h', h]

/-- The engine without its files. -/
def bare (e : Engine) : Engine := { e with sstRegistry := ∅, files := ∅ }

theorem Mirrors.bare_eq (h : Mirrors fmt tde s e) : s.front = bare e := by
  rw [bare, h.front]
  rfl

theorem Mirrors.framed (h : Mirrors fmt tde s e) (frames : Frames e e') :
    Mirrors fmt tde (s.withFront (bare e')) e' := by
  have registry : e'.sstRegistry = e.sstRegistry := by rw [frames]
  have files : e'.files = e.files := by rw [frames]
  refine ⟨h.enabled, ?_, ?_, ?_⟩
  · rw [frames, h.front]
    rfl
  · rw [registry]
    exact h.registry
  · rw [files]
    exact h.files

theorem applyPut_bare (len : PaxBlock → Nat) (e : Engine) (key value : Bytes) (ts : Timestamp) :
    Engine.applyPut env (bare e) key value ts =
      (Engine.applyPut { env with blockLen := len } e key value ts).map bare := by
  unfold Engine.applyPut
  rw [Option.map_map]
  rfl

theorem putSync_bare (len : PaxBlock → Nat) (e : Engine) (key value : Bytes) :
    (Engine.putSync env (bare e) key value).map Prod.fst =
      ((Engine.putSync { env with blockLen := len } e key value).map Prod.fst).map bare := by
  unfold Engine.putSync Engine.applyPut
  simp only [Option.map_map]
  rfl

theorem applyBatch_bare (len : PaxBlock → Nat) (e : Engine) (rows : List (Bytes × Bytes)) :
    Engine.applyBatch env (bare e) rows =
      (Engine.applyBatch { env with blockLen := len } e rows).map bare := by
  induction rows generalizing e with
  | nil => rfl
  | cons r rest ih =>
    rw [Engine.applyBatch, Engine.applyBatch]
    have first := @applyPut_bare env len { e with nextTimestamp := e.nextTimestamp + 1 } r.1 r.2
      e.nextTimestamp
    change ((Engine.applyPut env (bare { e with nextTimestamp := e.nextTimestamp + 1 }) r.1 r.2
      e.nextTimestamp).bind _) = _
    rw [first]
    cases Engine.applyPut { env with blockLen := len }
      { e with nextTimestamp := e.nextTimestamp + 1 } r.1 r.2 e.nextTimestamp with
    | none => rfl
    | some e1 => exact ih e1

theorem putBatchSync_bare (len : PaxBlock → Nat) (e : Engine) (rows : List (Bytes × Bytes)) :
    (Engine.putBatchSync env (bare e) rows).map Prod.fst =
      ((Engine.putBatchSync { env with blockLen := len } e rows).map Prod.fst).map bare := by
  rw [Engine.putBatchSync, Engine.putBatchSync]
  split
  · rfl
  · have applied := @applyBatch_bare env len
      { e with wal := e.wal.append env.toWalCodec .rowPut (Engine.encodeBatch rows) } rows
    change (((Engine.applyBatch env (bare { e with
      wal :=
        e.wal.append env.toWalCodec .rowPut (Engine.encodeBatch rows) }) rows).map _).map _) = _
    rw [applied]
    simp only [Option.map_map]
    rfl

theorem deleteSync_bare (len : PaxBlock → Nat) (e : Engine) (key : Bytes) :
    (Engine.deleteSync env (bare e) key).1 =
      bare (Engine.deleteSync { env with blockLen := len } e key).1 := by
  rw [Engine.deleteSync, Engine.deleteSync]
  change (if e.art.lookup key = none then _ else _ : Engine × Bool).1 = _
  split <;> rfl

theorem frames_putSync {key value : Bytes}
    (h : Engine.step env e (.put key value) = some e') : Frames e e' := by
  obtain ⟨art, rfl⟩ := Engine.putSync_eq_some h
  rfl

theorem frames_putBatchSync {rows : List (Bytes × Bytes)}
    (h : Engine.step env e (.putBatch rows) = some e') : Frames e e' := by
  rcases Engine.putBatchSync_eq_some h with ⟨_, rfl⟩ | ⟨_, e1, applied, rfl⟩
  · rfl
  · have all : Frames e e1 := by
      refine Engine.applyBatch_induction (P := fun _ e1 => Frames e e1) ?_ applied rfl
      exact fun _ _ _ _ _ before => before.trans rfl
    exact all.trans rfl

theorem frames_deleteSync (key : Bytes) : Frames e (e.deleteSync env key).1 := by
  rw [Engine.deleteSync]
  split <;> rfl

end Writes

section Maintenance

variable {env : Platform} {s : TdeEngine σ} {e : Engine}

theorem Mirrors.registerFile (h : Mirrors fmt tde s e) (id : Nat) (file : Nat × SstFile) :
    Mirrors fmt tde (s.registerFile fmt id file) (e.registerFile id file) := by
  refine ⟨h.enabled, ?_, ?_, ?_⟩
  · rw [h.front]
    rfl
  · simp only [TdeEngine.registerFile, Engine.registerFile, map_insert, h.registry, h.enabled]
  · intro path
    simp only [TdeEngine.registerFile, Engine.registerFile, ExtTreeMap.getElem?_insert,
      h.enabled]
    split
    · exact Option.Rel.some ⟨s.nonce, rfl⟩
    · exact h.files path

theorem Mirrors.registerNext (h : Mirrors fmt tde s e) (file : Nat × SstFile) :
    Mirrors fmt tde { s.registerFile fmt s.nextSstId file with nextSstId := s.nextSstId + 1 }
      { e.registerFile e.nextSstId file with nextSstId := e.nextSstId + 1 } := by
  have next : e.nextSstId = s.nextSstId := congrArg Engine.nextSstId h.front
  obtain ⟨enabled, front, registry, files⟩ := h.registerFile s.nextSstId file
  rw [next]
  refine ⟨enabled, ?_, registry, files⟩
  rw [front]
  rfl

theorem Mirrors.registerFiles (h : Mirrors fmt tde s e) (id : Nat) (files : List (Nat × SstFile)) :
    Mirrors fmt tde (s.registerFiles fmt id files) (e.registerFiles id files) := by
  cases files with
  | nil => exact h
  | cons file rest =>
    have further : ∀ (rest : List (Nat × SstFile)) (s : TdeEngine σ) (e : Engine),
        Mirrors fmt tde s e → Mirrors fmt tde (rest.foldl (fun s f =>
            { s.registerFile fmt s.nextSstId f with nextSstId := s.nextSstId + 1 }) s)
          (rest.foldl (fun e f =>
            { e.registerFile e.nextSstId f with nextSstId := e.nextSstId + 1 }) e) := by
      intro rest
      induction rest with
      | nil => exact fun _ _ h => h
      | cons f rest ih => exact fun s e h => ih _ _ (h.registerNext f)
    exact further rest _ _ (h.registerFile id file)

theorem Mirrors.counted (h : Mirrors fmt tde s e) (nextSstId nextBlockId : Nat) :
    Mirrors fmt tde { s with nextSstId := nextSstId, nextBlockId := nextBlockId }
      { e with nextSstId := nextSstId, nextBlockId := nextBlockId } := by
  refine ⟨h.enabled, ?_, h.registry, h.files⟩
  rw [h.front]
  rfl

theorem Mirrors.indexed (h : Mirrors fmt tde s e) (art : ArtIndex RowLocation) :
    Mirrors fmt tde { s with art := art } { e with art := art } := by
  refine ⟨h.enabled, ?_, h.registry, h.files⟩
  rw [h.front]
  rfl

theorem Mirrors.swapped (h : Mirrors fmt tde s e) (mgr : MemtableManager) :
    Mirrors fmt tde { s with memtableMgr := mgr } { e with memtableMgr := mgr } := by
  refine ⟨h.enabled, ?_, h.registry, h.files⟩
  rw [h.front]
  rfl

theorem Mirrors.flushActive (h : Mirrors fmt tde s e) :
    Option.Rel (Mirrors fmt tde) (s.flushActive fmt)
      (e.flushActive { env with blockLen := storedLen fmt tde }) := by
  have config : e.flushConfig = s.flushConfig := congrArg Engine.flushConfig h.front
  have registrations : e.columnar = s.registrations := congrArg Engine.columnar h.front
  have mgr : e.memtableMgr = s.memtableMgr := congrArg Engine.memtableMgr h.front
  have sstId : e.nextSstId = s.nextSstId := congrArg Engine.nextSstId h.front
  have blockId : e.nextBlockId = s.nextBlockId := congrArg Engine.nextBlockId h.front
  have enabled := h.enabled
  subst enabled
  simp only [TdeEngine.flushActive, Engine.flushActive, config, registrations, mgr, sstId, blockId]
  generalize Flush.flushMemtableInner _ s.flushConfig s.registrations s.nextSstId s.nextBlockId
    s.memtableMgr.active = result
  have registered := (h.counted (s.nextSstId + 1) result.nextBlockId).registerFiles s.nextSstId
    result.files
  rw [mgr, registrations] at registered
  generalize TdeEngine.registerFiles fmt _ s.nextSstId result.files = s1 at registered ⊢
  generalize Engine.registerFiles _ s.nextSstId result.files = e1 at registered ⊢
  have art : e1.art = s1.art := congrArg Engine.art registered.front
  have mgr1 : e1.memtableMgr = s1.memtableMgr := congrArg Engine.memtableMgr registered.front
  rw [art, mgr1]
  exact rel_map fun art' _ => (registered.indexed art').swapped _

theorem Mirrors.inputs (h : Mirrors fmt tde s e) (order : IterOrder) :
    order.entries TdeSstEntry.path s.sstRegistry =
      (order.order e.sstRegistry.toList).map fun i => (i.1, ⟨i.2.path, tde.isSome⟩) := by
  rw [h.registry]
  exact @IterOrder.entries_map _ order TdeSstEntry.path (fun entry => ⟨entry.path, tde.isSome⟩)
    (fun _ => rfl) e.sstRegistry

theorem Mirrors.commitOutput (h : Mirrors fmt tde s e) (ids : List Nat) (out : CompactionOutput) :
    Option.Rel (Mirrors fmt tde) (s.commitOutput fmt ids out) (e.commitOutput ids out) := by
  have sid : e.nextSstId = s.nextSstId := congrArg Engine.nextSstId h.front
  have fid : e.nextBlockId = s.nextBlockId := congrArg Engine.nextBlockId h.front
  simp only [TdeEngine.commitOutput, Engine.commitOutput]
  rw [sid, fid]
  have registered := (h.registerFile s.nextSstId (s.nextBlockId, out.blocks)).counted
    (s.nextSstId + 1) (s.nextBlockId + 1)
  have art : (e.registerFile s.nextSstId (s.nextBlockId, out.blocks)).art =
      (s.registerFile fmt s.nextSstId (s.nextBlockId, out.blocks)).art :=
    congrArg Engine.art registered.front
  rw [art]
  exact rel_map fun art' _ => registered.indexed art'

theorem Mirrors.commitOutputs (h : Mirrors fmt tde s e) (ids : List Nat)
    (outs : List CompactionOutput) :
    Option.Rel (Mirrors fmt tde) (outs.foldlM (TdeEngine.commitOutput fmt ids) s)
      (outs.foldlM (Engine.commitOutput ids) e) := by
  induction outs generalizing s e with
  | nil => exact Option.Rel.some h
  | cons out rest ih =>
    rw [foldlM_cons, foldlM_cons]
    have first := h.commitOutput ids out
    generalize s.commitOutput fmt ids out = o at first ⊢
    generalize e.commitOutput ids out = o' at first ⊢
    cases first with
    | none => exact Option.Rel.none
    | some next => exact ih next

theorem Mirrors.dropFiles (h : Mirrors fmt tde s e) (inputs : List (Nat × SstEntry)) :
    Mirrors fmt tde { s with
        sstRegistry := (inputs.map Prod.fst).foldl (fun reg id => reg.erase id) s.sstRegistry
        files := inputs.foldl (fun files i => files.erase i.2.path) s.files }
      { e with
        sstRegistry := (inputs.map Prod.fst).foldl (fun reg id => reg.erase id) e.sstRegistry
        files := inputs.foldl (fun files i => files.erase i.2.path) e.files } := by
  refine ⟨h.enabled, ?_, ?_, ?_⟩
  · rw [h.front]
    rfl
  · rw [map_foldl_erase, h.registry]
  · intro path
    have erased : ∀ (inputs : List (Nat × SstEntry)) (stored : ExtTreeMap Nat (List σ) compare)
        (files : ExtTreeMap Nat SstFile compare),
        (∀ path : Nat, Option.Rel (Stored fmt tde) stored[path]? files[path]?) →
        Option.Rel (Stored fmt tde)
          (inputs.foldl (fun files i => files.erase i.2.path) stored)[path]?
          (inputs.foldl (fun files i => files.erase i.2.path) files)[path]? := by
      intro inputs
      induction inputs with
      | nil => exact fun _ _ all => all path
      | cons i rest ih =>
        intro stored files all
        refine ih _ _ fun path => ?_
        rw [ExtTreeMap.getElem?_erase, ExtTreeMap.getElem?_erase]
        split
        · exact Option.Rel.none
        · exact all path
    exact erased inputs s.files e.files h.files

theorem Mirrors.compactInner (law : ReadsBack fmt tde) (h : Mirrors fmt tde s e)
    (order : IterOrder) (force : Bool) :
    Option.Rel (Mirrors fmt tde) (s.compactInner fmt order force)
      (e.compactInner { env with blockLen := storedLen fmt tde } order force) := by
  have config : e.config = s.config := congrArg Engine.config h.front
  have pins : e.pinSource = s.pinSource := congrArg Engine.pinSource h.front
  have registrations : e.columnar = s.registrations := congrArg Engine.columnar h.front
  have enabled := h.enabled
  subst enabled
  simp only [TdeEngine.compactInner, Engine.compactInner, h.inputs order, length_map, config,
    pins, registrations]
  by_cases few : (order.order e.sstRegistry.toList).length < if force then 1 else 2
  · rw [if_pos few, if_pos few]
    exact Option.Rel.some h
  · rw [if_neg few, if_neg few]
    have read : ((order.order e.sstRegistry.toList).map
        fun i => (i.1, (⟨i.2.path, s.tde.isSome⟩ : TdeSstEntry))).mapM
          (fun entry => s.inputBlocks fmt entry.2) =
        some ((order.order e.sstRegistry.toList).map fun i => e.blocksOf i.2) := by
      generalize order.order e.sstRegistry.toList = inputs
      induction inputs with
      | nil => rfl
      | cons i rest ih => simp [h.inputBlocks law, ih]
    have ids : ((order.order e.sstRegistry.toList).map
        fun i => (i.1, (⟨i.2.path, s.tde.isSome⟩ : TdeSstEntry))).map Prod.fst =
        (order.order e.sstRegistry.toList).map Prod.fst := by
      rw [map_map]
      rfl
    simp only [read, ids, flatMap_map, foldl_map]
    generalize (workerChunks s.config.compactionConcurrency _).flatMap _ = outputs
    have written := h.commitOutputs ((order.order e.sstRegistry.toList).map Prod.fst) outputs
    generalize outputs.foldlM (TdeEngine.commitOutput fmt _) s = o at written ⊢
    generalize outputs.foldlM (Engine.commitOutput _) e = o' at written ⊢
    cases written with
    | none => exact Option.Rel.none
    | some done =>
      have dropped := done.dropFiles (order.order e.sstRegistry.toList)
      simp only [foldl_map] at dropped
      exact Option.Rel.some dropped

theorem Mirrors.maybeCompact (law : ReadsBack fmt tde) (h : Mirrors fmt tde s e)
    (order : IterOrder) :
    Option.Rel (Mirrors fmt tde) (s.maybeCompact fmt order)
      (e.maybeCompact { env with blockLen := storedLen fmt tde } order) := by
  have config : e.config = s.config := congrArg Engine.config h.front
  have size : s.sstRegistry.size = e.sstRegistry.size := by
    rw [h.registry, ExtTreeMap.size_map]
  rw [TdeEngine.maybeCompact, Engine.maybeCompact, config, size]
  split
  · exact Option.Rel.some h
  · exact h.compactInner law order false

theorem Mirrors.flushMemtable (law : ReadsBack fmt tde) (h : Mirrors fmt tde s e)
    (order : IterOrder) :
    Option.Rel (Mirrors fmt tde) ((s.flushMemtable fmt order).map Prod.fst)
      ((e.flushMemtable { env with blockLen := storedLen fmt tde } order).map Prod.fst) := by
  have mgr : e.memtableMgr = s.memtableMgr := congrArg Engine.memtableMgr h.front
  simp only [TdeEngine.flushMemtable, Engine.flushMemtable, mgr]
  by_cases empty : s.memtableMgr.active.iterAll = []
  · rw [if_pos empty, if_pos empty]
    exact Option.Rel.some h
  · rw [if_neg empty, if_neg empty]
    have flush := @Mirrors.flushActive _ fmt tde env s e h
    generalize s.flushActive fmt = o at flush ⊢
    generalize e.flushActive _ = o' at flush ⊢
    cases flush with
    | none => exact Option.Rel.none
    | @some s1 e1 flushed =>
      have bg : e1.bgWorkerActive = s1.bgWorkerActive :=
        congrArg Engine.bgWorkerActive flushed.front
      simp only [Option.bind_some, bg, Option.map_map, Function.comp_def, Option.map_id']
      split
      · exact Option.Rel.some flushed
      · exact flushed.maybeCompact law order

end Maintenance

section Steps

variable {env : Platform} {s : TdeEngine σ} {e : Engine}

/-- The call on the engine that keeps the blocks themselves. -/
def Call.op : Call → Engine.Op
  | .put key value => .put key value
  | .putBatch rows => .putBatch rows
  | .delete key => .delete key
  | .flush order => .flush order
  | .compact order => .compact order
  | .forceCompact order => .forceCompact order
  | .configure pins bg columnar =>
    .configure pins bg (columnar.map ScanColumnar.registrationOf)

/-- The platform of that engine: its blocks are as long as they are on disk. -/
def onDisk (env : Platform) (fmt : BlockFormat σ) (tde : Option (TdeModule σ)) : Platform :=
  { env with blockLen := storedLen fmt tde }

theorem Mirrors.written (h : Mirrors fmt tde s e) {next : Option Engine}
    (frames : ∀ e', next = some e' → Frames e e') :
    Option.Rel (Mirrors fmt tde) (next.map fun e' => s.withFront (bare e')) next := by
  cases next with
  | none => exact Option.Rel.none
  | some e' => exact Option.Rel.some (h.framed (frames e' rfl))

theorem Mirrors.step (law : ReadsBack fmt tde) (h : Mirrors fmt tde s e) (call : Call) :
    Option.Rel (Mirrors fmt tde) (s.step env fmt call) (e.step (onDisk env fmt tde) call.op) := by
  cases call with
  | put key value =>
    have same : s.step env fmt (.put key value) =
        (e.step (onDisk env fmt tde) (.put key value)).map fun e' => s.withFront (bare e') := by
      have front := @putSync_bare env (storedLen fmt tde) e key value
      rw [← h.bare_eq] at front
      have each := congrArg (Option.map s.withFront) front
      rw [Option.map_map, Option.map_map] at each
      rw [TdeEngine.step, putSync, Option.map_map]
      exact each
    rw [same]
    exact h.written fun e' next => frames_putSync next
  | putBatch rows =>
    have same : s.step env fmt (.putBatch rows) =
        (e.step (onDisk env fmt tde) (.putBatch rows)).map fun e' => s.withFront (bare e') := by
      have front := @putBatchSync_bare env (storedLen fmt tde) e rows
      rw [← h.bare_eq] at front
      have each := congrArg (Option.map s.withFront) front
      rw [Option.map_map, Option.map_map] at each
      rw [TdeEngine.step, putBatchSync, Option.map_map]
      exact each
    rw [same]
    exact h.written fun e' next => frames_putBatchSync next
  | delete key =>
    have front := @deleteSync_bare env (storedLen fmt tde) e key
    rw [← h.bare_eq] at front
    rw [TdeEngine.step, deleteSync, front]
    exact Option.Rel.some (h.framed (frames_deleteSync key))
  | flush order => exact h.flushMemtable law order
  | compact order => exact h.compactInner law order false
  | forceCompact order => exact h.compactInner law order true
  | configure pins bg columnar =>
    refine Option.Rel.some ⟨h.enabled, ?_, h.registry, h.files⟩
    rw [h.front]
    rfl

theorem mirrors_fresh (env : Platform) (fmt : BlockFormat σ) (tde : Option (TdeModule σ))
    (config : EngineConfig) :
    Mirrors fmt tde (fresh env config tde) (Engine.fresh (onDisk env fmt tde) config) := by
  refine ⟨rfl, rfl, ?_, ?_⟩
  · simp [fresh, Engine.fresh]
  · simp [fresh, Engine.fresh]

end Steps

end TdeEngine

end GalaxDb
