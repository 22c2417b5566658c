import GalaxDb.Storage.SstState

/-!
# Flush and compaction on the engine

One spec lemma for each: which rows the files hold afterwards, which locations the index
hands out, and what did not change.
-/

namespace GalaxDb

open Row Compaction MemtableManager List

namespace Engine

/-- No key of the list can be confused with another one or with a key of the index. -/
structure InsertsApart (art : ArtIndex RowLocation) (keys : List Bytes) : Prop where
  index : ∀ k ∈ keys, ∀ k', art.lookup k' ≠ none → ¬ Clash k k'
  pairwise : ∀ k ∈ keys, ∀ k' ∈ keys, ¬ Clash k k'

theorem insertAll_spec {art : ArtIndex RowLocation} (wf : art.WF)
    (pairs : List (Bytes × RowLocation)) (apart : InsertsApart art (pairs.map Prod.fst))
    (nodup : (pairs.map Prod.fst).Nodup) :
    ∃ art', insertAll art pairs = some art' ∧ art'.WF ∧ (∀ p ∈ pairs, art'.lookup p.1 = some p.2) ∧
      ∀ k, k ∉ pairs.map Prod.fst → art'.lookup k = art.lookup k := by
  induction pairs generalizing art with
  | nil => exact ⟨art, rfl, wf, by simp, fun _ _ => rfl⟩
  | cons p rest ih =>
    obtain ⟨key, location⟩ := p
    obtain ⟨hnew, nodup⟩ := nodup_cons.mp nodup
    obtain ⟨art1, eq, wf1, look⟩ :=
      ArtIndex.lookup_insert wf location (apart.index key mem_cons_self)
    have apart1 : InsertsApart art1 (rest.map Prod.fst) := by
      refine ⟨?_, fun k hk k' hk' => apart.pairwise k (mem_cons_of_mem _ hk) k'
        (mem_cons_of_mem _ hk')⟩
      intro k hk k' hk'
      rw [look] at hk'
      by_cases same : k' = key
      · subst same
        exact apart.pairwise k (mem_cons_of_mem _ hk) k' mem_cons_self
      · rw [if_neg same] at hk'
        exact apart.index k (mem_cons_of_mem _ hk) k' hk'
    obtain ⟨art', eq', wf', found, others⟩ := ih wf1 apart1 nodup
    refine ⟨art', ?_, wf', ?_, ?_⟩
    · rw [insertAll, eq, Option.bind_some, eq']
    · intro p hp
      rcases mem_cons.mp hp with rfl | hp
      · rw [others key hnew, look, if_pos rfl]
      · exact found p hp
    · intro k hk
      rw [map_cons, mem_cons, not_or] at hk
      rw [others k hk.2, look, if_neg hk.1]

section Flush

open Flush

variable {env : Platform}

theorem flushLocations_eq (sstId : Nat) (blockMap : List SstBlockInfo) :
    flushLocations sstId blockMap =
      (blockMap.flatMap places).map fun p => .sst (sstId + p.1) p.2.1 p.2.2 := by
  rw [map_flatMap, flushLocations]
  congr
  funext info
  rw [places, map_map]
  congr
  funext row
  by_cases first : info.sstIndex = 0 <;> simp [first]

theorem exists_mem_zip {α β : Type*} {R : α → β → Prop} {l : List α} {l' : List β}
    (h : List.Forall₂ R l l') : ∀ a ∈ l, ∃ b, (a, b) ∈ l.zip l' ∧ R a b := by
  induction h with
  | nil => simp
  | cons head _ ih =>
    intro a ha
    rcases mem_cons.mp ha with rfl | ha
    · exact ⟨_, mem_cons_self, head⟩
    · obtain ⟨b, hb, hr⟩ := ih a ha
      exact ⟨b, mem_cons_of_mem _ hb, hr⟩

/-- The files and the block map of a flush of the active memtable. -/
def flushResult (env : Platform) (e : Engine) : FlushResult :=
  flushMemtableInner env.blockLen e.flushConfig e.columnar e.nextSstId e.nextBlockId
    e.memtableMgr.active

/-- The index updates of a flush. -/
def flushTargets (env : Platform) (e : Engine) : List (Bytes × RowLocation) :=
  (e.memtableMgr.active.iterAll.map Prod.fst).zip
    (flushLocations e.nextSstId (flushResult env e).blockMap)

theorem placed_flushResult (env : Platform) (e : Engine) :
    List.Forall₂ (Placed (flushResult env e).files 0) e.memtableMgr.active.iterAll
      ((flushResult env e).blockMap.flatMap places) := by
  have placed : List.Forall₂ (Placed (flushResult env e).files 0)
      (splitIntoBlocks e.flushConfig e.columnar e.memtableMgr.active.iterAll).flatten
      ((flushResult env e).blockMap.flatMap places) := placed_packLoop _ _ _ _ _
  rwa [flatten_splitIntoBlocks] at placed

theorem map_fst_flushTargets (env : Platform) (e : Engine) :
    (flushTargets env e).map Prod.fst = e.memtableMgr.active.iterAll.map Prod.fst := by
  rw [flushTargets, map_fst_zip]
  rw [flushLocations_eq, length_map, length_map, (placed_flushResult env e).length_eq]

/-- Every entry is sent to a place of the written files that holds its row. -/
theorem exists_flushTarget (env : Platform) (e : Engine) {entry : Entry}
    (h : entry ∈ e.memtableMgr.active.iterAll) :
    ∃ i b r, (entry.1, .sst (e.nextSstId + i) b r) ∈ flushTargets env e ∧
      Flush.rowAt (flushResult env e).files i b r = some (entryToRow entry) := by
  obtain ⟨⟨i, b, r⟩, hp, placed⟩ := exists_mem_zip (placed_flushResult env e) entry h
  refine ⟨i, b, r, ?_, placed.2⟩
  rw [flushTargets, flushLocations_eq, zip_map]
  exact mem_map.mpr ⟨(entry, i, b, r), hp, rfl⟩

/-- The engine once the files of a flush are registered. -/
def flushRegistered (env : Platform) (e : Engine) : Engine :=
  (flushResult env e).files.foldl registerNext
    { e with nextBlockId := (flushResult env e).nextBlockId }

theorem rows_flushResult (env : Platform) (e : Engine) :
    (flushResult env e).files.flatMap (fun f => SstFile.rows f.2) =
      e.memtableMgr.active.iterAll.map entryToRow := by
  have rows : (flushResult env e).files.flatMap (fun f => SstFile.rows f.2) =
      SstFile.rows [] ++ (splitIntoBlocks e.flushConfig e.columnar
        e.memtableMgr.active.iterAll).flatten.map entryToRow := rows_packLoop _ _ _ _ _
  rwa [flatten_splitIntoBlocks] at rows

theorem ids_flushResult (env : Platform) (e : Engine) :
    e.nextBlockId ≤ (flushResult env e).nextBlockId ∧ (∀ f ∈ (flushResult env e).files,
        e.nextBlockId ≤ f.1 ∧ f.1 < (flushResult env e).nextBlockId) ∧
      ((flushResult env e).files.map Prod.fst).Nodup :=
  ids_packLoop _ _ _ _ _

variable {e : Engine}

theorem flushRegistered_spec (env : Platform) (inv : e.SstInv) :
    (flushRegistered env e).SstInv ∧ (flushRegistered env e).sstRegistry.size =
        e.sstRegistry.size + (flushResult env e).files.length ∧
      (flushRegistered env e).art = e.art ∧ SameBut e (flushRegistered env e) ∧
      ∀ id, (flushRegistered env e).fileOf id = if id < e.nextSstId then e.fileOf id
        else ((flushResult env e).files[id - e.nextSstId]?).map Prod.snd := by
  obtain ⟨up, range, nodup⟩ := ids_flushResult env e
  have raised : ({ e with nextBlockId := (flushResult env e).nextBlockId } : Engine).SstInv :=
    ⟨inv.id_lt, fun id entry he => (inv.path_lt id entry he).trans_le up,
      inv.present, inv.inj, inv.registered⟩
  have fresh : ∀ f ∈ (flushResult env e).files, e.files[f.1]? = none ∧
      f.1 < (flushResult env e).nextBlockId := by
    intro f hf
    refine ⟨Option.eq_none_iff_forall_ne_some.mpr fun g hg => ?_, (range f hf).2⟩
    obtain ⟨id, hid⟩ := inv.registered f.1 g hg
    exact absurd (inv.path_lt id _ hid) (range f hf).1.not_gt
  obtain ⟨inv', size, _, art, same, all⟩ := foldl_registerNext_spec raised _ fresh nodup
  exact ⟨inv', size, art, ⟨⟨same.config, same.wal, same.nextTimestamp, same.pinSource,
    same.bgWorkerActive, same.columnar⟩, same.memtableMgr⟩, all⟩

theorem flushActive_eq (env : Platform) (nonempty : (flushResult env e).files ≠ []) :
    e.flushActive env = (insertAll (flushRegistered env e).art (flushTargets env e)).map
      fun art => { flushRegistered env e with
        art := art
        memtableMgr := (flushRegistered env e).memtableMgr.sealActive.onFlushComplete
          e.memtableMgr.active.size } := by
  have registered : registerFiles
      { e with nextSstId := e.nextSstId + 1, nextBlockId := (flushResult env e).nextBlockId }
      e.nextSstId (flushResult env e).files = flushRegistered env e := by
    rw [flushRegistered]
    cases h : (flushResult env e).files with
    | nil => exact absurd h nonempty
    | cons f rest => rfl
  rw [← registered]
  rfl

theorem files_flushResult_ne_nil (env : Platform) (entries : e.memtableMgr.active.iterAll ≠ []) :
    (flushResult env e).files ≠ [] := by
  intro none_written
  have rows := rows_flushResult env e
  rw [none_written] at rows
  exact entries (map_eq_nil_iff.mp rows.symm)

/-- What a flush of the active memtable does. -/
structure Flushed (e e' : Engine) : Prop where
  sst : e'.SstInv
  wf : e'.art.WF
  settings : SameSettings e e'
  active : e'.memtableMgr.active = Memtable.new e.memtableMgr.sealThreshold
  drained : e'.memtableMgr.sealedQueue = []
  threshold : e'.memtableMgr.sealThreshold = e.memtableMgr.sealThreshold
  mem_rows : ∀ r, r ∈ e'.sstRows ↔ r ∈ e.sstRows ∨ r ∈ e.memtableMgr.active.iterAll.map entryToRow
  kept : ∀ id f, e.fileOf id = some f → e'.fileOf id = some f
  zoned : (∀ id f, e.fileOf id = some f → ∀ b ∈ f, Zoned b) →
    ∀ id f, e'.fileOf id = some f → ∀ b ∈ f, Zoned b
  moved : ∀ entry ∈ e.memtableMgr.active.iterAll, ∃ id b r,
    e'.art.lookup entry.1 = some (.sst id b r) ∧ e'.rowAt id b r = some (entryToRow entry)
  others : ∀ k, e.memtableMgr.active.map[k]? = none → e'.art.lookup k = e.art.lookup k

/-- A row of a written file is a row of a registered one. -/
theorem mem_sstRows_flushRegistered (env : Platform) (inv : e.SstInv) (r : SstRow) :
    r ∈ (flushRegistered env e).sstRows ↔
      r ∈ e.sstRows ∨ r ∈ e.memtableMgr.active.iterAll.map entryToRow := by
  obtain ⟨_, _, _, _, files⟩ := flushRegistered_spec env inv
  have old : ∀ id f, e.fileOf id = some f → id < e.nextSstId := by
    intro id f hf
    obtain ⟨entry, he, _⟩ := fileOf_eq_some.mp hf
    exact inv.id_lt id entry he
  rw [← rows_flushResult env e, mem_sstRows_iff, mem_sstRows_iff]
  constructor
  · rintro ⟨id, f, hf, hr⟩
    rw [files] at hf
    split at hf
    · exact .inl ⟨id, f, hf, hr⟩
    · obtain ⟨g, hg, rfl⟩ := Option.map_eq_some_iff.mp hf
      exact .inr (mem_flatMap.mpr ⟨g, mem_of_getElem? hg, hr⟩)
  · rintro (⟨id, f, hf, hr⟩ | hr)
    · exact ⟨id, f, by rw [files, if_pos (old id f hf)]; exact hf, hr⟩
    · obtain ⟨g, hg, hr⟩ := mem_flatMap.mp hr
      obtain ⟨i, hi⟩ := getElem?_of_mem hg
      refine ⟨e.nextSstId + i, g.2, ?_, hr⟩
      rw [files, if_neg (by omega), Nat.add_sub_cancel_left, hi]
      rfl

/-- A flush succeeds and registers one file for each that it wrote. -/
theorem flushActive_spec (env : Platform) (inv : e.SstInv) (wf : e.art.WF)
    (unsealed : e.memtableMgr.active.isSealed = false) (queue : e.memtableMgr.sealedQueue = [])
    (entries : e.memtableMgr.active.iterAll ≠ [])
    (apart : InsertsApart e.art (e.memtableMgr.active.iterAll.map Prod.fst)) :
    ∃ e', e.flushActive env = some e' ∧ Flushed e e' ∧
      e'.sstRegistry.size = e.sstRegistry.size + (flushResult env e).files.length := by
  obtain ⟨sst, size, artEq, same, files⟩ := flushRegistered_spec env inv
  have keys := map_fst_flushTargets env e
  have nodup : ((flushTargets env e).map Prod.fst).Nodup := by
    rw [keys]
    exact pairwise_map.mpr (iterAll_pairwise_ne _)
  obtain ⟨art', insert, wf', found, others⟩ :=
    insertAll_spec wf (flushTargets env e) (by rw [keys]; exact apart) nodup
  rw [flushActive_eq env (files_flushResult_ne_nil env entries), artEq, insert]
  refine ⟨_, rfl, ?_, size⟩
  constructor
  case sst => exact ⟨sst.id_lt, sst.path_lt, sst.present, sst.inj, sst.registered⟩
  case wf => exact wf'
  case settings => exact ⟨same.config, same.wal, same.nextTimestamp, same.pinSource,
    same.bgWorkerActive, same.columnar⟩
  case active => simp [same.memtableMgr, sealActive, unsealed, onFlushComplete]
  case drained => simp [same.memtableMgr, sealActive, unsealed, onFlushComplete, queue]
  case threshold => simp [same.memtableMgr, sealActive, unsealed, onFlushComplete]
  case mem_rows => exact mem_sstRows_flushRegistered env inv
  case kept =>
    intro id f hf
    obtain ⟨entry, he, _⟩ := fileOf_eq_some.mp hf
    exact (files id).trans (by rw [if_pos (inv.id_lt id entry he)]; exact hf)
  case zoned =>
    intro zoned id f hf
    replace hf : (flushRegistered env e).fileOf id = some f := hf
    rw [files] at hf
    split at hf
    · exact zoned id f hf
    · obtain ⟨g, hg, rfl⟩ := Option.map_eq_some_iff.mp hf
      exact zoned_packLoop _ _ _ _ _ (by simp) g (mem_of_getElem? hg)
  case moved =>
    intro entry hentry
    obtain ⟨i, b, r, target, place⟩ := exists_flushTarget env e hentry
    refine ⟨e.nextSstId + i, b, r, found _ target, ?_⟩
    have file : (flushRegistered env e).fileOf (e.nextSstId + i) =
        ((flushResult env e).files[i]?).map Prod.snd := by
      rw [files, if_neg (by omega), Nat.add_sub_cancel_left]
    change ((flushRegistered env e).fileOf (e.nextSstId + i)).bind _ = _
    rw [file]
    rw [Flush.rowAt] at place
    cases written : (flushResult env e).files[i]? with
    | none =>
      rw [written] at place
      cases place
    | some f =>
      rw [written] at place
      exact place
  case others =>
    intro k hk
    refine others k ?_
    rw [keys]
    intro hmem
    obtain ⟨⟨k', v⟩, hv, rfl⟩ := mem_map.mp hmem
    rw [Memtable.mem_iterAll.mp hv] at hk
    cases hk

end Flush

section Commit

/-- The index sends the key into one of these files. -/
def PointsInto (art : ArtIndex RowLocation) (ids : List Nat) (k : Bytes) : Prop :=
  ∃ id b r, art.lookup k = some (.sst id b r) ∧ id ∈ ids

variable {art : ArtIndex RowLocation}

theorem relocateIfPointsTo_spec (wf : art.WF) (key : Bytes) (ids : List Nat)
    (location : RowLocation) :
    ∃ art', relocateIfPointsTo art key ids location = some art' ∧ art'.WF ∧
      (∀ k, k ≠ key → art'.lookup k = art.lookup k) ∧
      (PointsInto art ids key → art'.lookup key = some location) ∧
      (¬ PointsInto art ids key → art'.lookup key = art.lookup key) := by
  by_cases points : PointsInto art ids key
  · obtain ⟨id, b, r, found, inside⟩ := points
    have present : art.lookup key ≠ none := by simp [found]
    obtain ⟨art', eq, wf', look⟩ :=
      ArtIndex.lookup_insert wf location fun k hk => wf.not_clash present hk
    refine ⟨art', ?_, wf', ?_, ?_, ?_⟩
    · simp only [relocateIfPointsTo, found, inside, if_true, eq]
    · intro k hk
      rw [look, if_neg hk]
    · intro _
      rw [look, if_pos rfl]
    · exact fun h => absurd ⟨id, b, r, found, inside⟩ h
  · refine ⟨art, ?_, wf, fun _ _ => rfl, fun h => absurd h points, fun _ => rfl⟩
    unfold relocateIfPointsTo
    split
    · rename_i id b r found
      rw [if_neg fun inside => points ⟨id, b, r, found, inside⟩]
    · rfl

/-- What committing outputs does to the place of a key: nothing, if no output has a
target for it or it does not point into an input, else it moves to a target. -/
def Relocated (art art' : ArtIndex RowLocation) (ids : List Nat)
    (targets : List (Bytes × RowLocation)) (k : Bytes) : Prop :=
  (art'.lookup k = art.lookup k ∧ (PointsInto art ids k → ∀ t ∈ targets, t.1 ≠ k)) ∨
    (PointsInto art ids k ∧ ∃ t ∈ targets, t.1 = k ∧ art'.lookup k = some t.2)

theorem Relocated.append {art art1 art2 : ArtIndex RowLocation} {ids : List Nat}
    {targets targets' : List (Bytes × RowLocation)} {k : Bytes}
    (h : Relocated art art1 ids targets k) (h' : Relocated art1 art2 ids targets' k)
    (outside : ∀ t ∈ targets, ∀ id b r, t.2 = .sst id b r → id ∉ ids) :
    Relocated art art2 ids (targets ++ targets') k := by
  rcases h with ⟨same, none_here⟩ | ⟨points, t, ht, hk, moved⟩
  · have pointsIff : PointsInto art1 ids k ↔ PointsInto art ids k := by simp [PointsInto, same]
    rcases h' with ⟨same', none_later⟩ | ⟨points, t, ht, hk, moved⟩
    · refine .inl ⟨same'.trans same, ?_⟩
      intro points t ht
      rcases mem_append.mp ht with ht | ht
      · exact none_here points t ht
      · exact none_later (pointsIff.mpr points) t ht
    · exact .inr ⟨pointsIff.mp points, t, mem_append_right _ ht, hk, moved⟩
  · -- the key has left the inputs, so later outputs do not touch it
    have left : ¬ PointsInto art1 ids k := by
      rintro ⟨id, b, r, found, inside⟩
      rw [moved] at found
      exact outside t ht id b r (Option.some.inj found) inside
    rcases h' with ⟨same', _⟩ | ⟨points', _⟩
    · exact .inr ⟨points, t, mem_append_left _ ht, hk, same'.trans moved⟩
    · exact absurd points' left

variable {ids : List Nat} {e : Engine}

theorem relocateAll_spec (wf : art.WF) {sid : Nat} (fresh : sid ∉ ids)
    (targets : List (Bytes × Nat × Nat)) :
    ∃ art', targets.foldlM
        (fun art t => relocateIfPointsTo art t.1 ids (.sst sid t.2.1 t.2.2)) art = some art' ∧
      art'.WF ∧ ∀ k, Relocated art art' ids
        (targets.map fun t => (t.1, .sst sid t.2.1 t.2.2)) k := by
  induction targets generalizing art with
  | nil => exact ⟨art, rfl, wf, fun k => .inl ⟨rfl, by simp⟩⟩
  | cons t rest ih =>
    obtain ⟨art1, eq, wf1, others, moved, stays⟩ :=
      relocateIfPointsTo_spec wf t.1 ids (.sst sid t.2.1 t.2.2)
    obtain ⟨art', eq', wf', all⟩ := ih wf1
    refine ⟨art', by rw [foldlM_cons, eq]; exact eq', wf', ?_⟩
    intro k
    have first : Relocated art art1 ids [(t.1, .sst sid t.2.1 t.2.2)] k := by
      by_cases hk : k = t.1
      · subst hk
        by_cases points : PointsInto art ids t.1
        · exact .inr ⟨points, _, mem_singleton_self _, rfl, moved points⟩
        · exact .inl ⟨stays points, fun h => absurd h points⟩
      · refine .inl ⟨others k hk, ?_⟩
        intro _ u hu
        rw [mem_singleton.mp hu]
        exact fun h => hk h.symm
    refine Relocated.append first (all k) ?_
    intro u hu id b r h
    rw [mem_singleton.mp hu] at h
    cases h
    exact fresh

/-- The index targets of outputs that are registered from an id on. -/
def outputTargets (base : Nat) : List CompactionOutput → List (Bytes × RowLocation)
  | [] => []
  | out :: rest =>
    out.artTargets.map (fun t => (t.1, .sst base t.2.1 t.2.2)) ++ outputTargets (base + 1) rest

theorem mem_outputTargets {base : Nat} {outs : List CompactionOutput} {p : Bytes × RowLocation} :
    p ∈ outputTargets base outs ↔ ∃ i out, outs[i]? = some out ∧
      ∃ t ∈ out.artTargets, p = (t.1, .sst (base + i) t.2.1 t.2.2) := by
  induction outs generalizing base with
  | nil => simp [outputTargets]
  | cons out rest ih =>
    rw [outputTargets, mem_append, ih, mem_map]
    constructor
    · rintro (⟨t, ht, rfl⟩ | ⟨i, out', hi, t, ht, rfl⟩)
      · exact ⟨0, out, rfl, t, ht, rfl⟩
      · refine ⟨i + 1, out', by simpa using hi, t, ht, ?_⟩
        rw [add_right_comm, add_assoc]
    · rintro ⟨i, out', hi, t, ht, rfl⟩
      cases i with
      | zero =>
        obtain rfl := Option.some.inj hi
        exact .inl ⟨t, ht, rfl⟩
      | succ i =>
        refine .inr ⟨i, out', by simpa using hi, t, ht, ?_⟩
        rw [add_right_comm, add_assoc]

/-- The engine once the outputs of a compaction are written. -/
structure Committed (e e' : Engine) (ids : List Nat) (outs : List CompactionOutput) : Prop where
  sst : e'.SstInv
  wf : e'.art.WF
  same : SameBut e e'
  next : e.nextSstId ≤ e'.nextSstId
  registry : ∀ id : Nat, id < e.nextSstId → e'.sstRegistry[id]? = e.sstRegistry[id]?
  files : ∀ id, e'.fileOf id = if id < e.nextSstId then e.fileOf id
    else (outs[id - e.nextSstId]?).map CompactionOutput.blocks
  index : ∀ k, Relocated e.art e'.art ids (outputTargets e.nextSstId outs) k

theorem fileOf_of_le (inv : e.SstInv) {id : Nat} (h : e.nextSstId ≤ id) : e.fileOf id = none := by
  rw [fileOf]
  cases he : e.sstRegistry[id]? with
  | none => rfl
  | some entry => exact absurd (inv.id_lt id entry he) h.not_gt

/-- One output registered. -/
def registerOutput (e : Engine) (out : CompactionOutput) : Engine :=
  registerNext { e with nextBlockId := e.nextBlockId + 1 } (e.nextBlockId, out.blocks)

theorem registerOutput_spec (inv : e.SstInv) (out : CompactionOutput) :
    (e.registerOutput out).SstInv ∧ ∀ id, (e.registerOutput out).fileOf id =
      if e.nextSstId = id then some out.blocks else e.fileOf id := by
  have raised : ({ e with nextBlockId := e.nextBlockId + 1 } : Engine).SstInv :=
    ⟨inv.id_lt, fun id entry he => Nat.lt_succ_of_lt (inv.path_lt id entry he),
      inv.present, inv.inj, inv.registered⟩
  refine registerNext_spec raised ?_ (Nat.lt_succ_self _)
  refine Option.eq_none_iff_forall_ne_some.mpr fun g hg => ?_
  obtain ⟨id, hid⟩ := inv.registered e.nextBlockId g hg
  exact lt_irrefl _ (inv.path_lt id _ hid)

/-- The output of a compaction takes the next number. -/
theorem commitOutput_spec (inv : e.SstInv) (wf : e.art.WF) (below : ∀ id ∈ ids, id < e.nextSstId)
    (out : CompactionOutput) :
    ∃ e', commitOutput ids e out = some e' ∧ e'.nextSstId = e.nextSstId + 1 ∧
      Committed e e' ids [out] := by
  have fresh : e.nextSstId ∉ ids := fun h => lt_irrefl _ (below _ h)
  obtain ⟨art', eq, wf', all⟩ := relocateAll_spec wf fresh out.artTargets
  obtain ⟨sst, files⟩ := registerOutput_spec inv out
  have eq' : commitOutput ids e out = some { e.registerOutput out with art := art' } := by
    have step : commitOutput ids e out = (out.artTargets.foldlM (fun art t =>
        relocateIfPointsTo art t.1 ids (.sst e.nextSstId t.2.1 t.2.2)) e.art).map
          (fun art => { e.registerOutput out with art := art }) := rfl
    rw [step, eq]
    rfl
  refine ⟨_, eq', rfl, ?_⟩
  constructor
  case sst => exact ⟨sst.id_lt, sst.path_lt, sst.present, sst.inj, sst.registered⟩
  case wf => exact wf'
  case same => exact ⟨⟨rfl, rfl, rfl, rfl, rfl, rfl⟩, rfl⟩
  case next => exact Nat.le_succ _
  case registry =>
    intro id hid
    have other : e.nextSstId ≠ id := by omega
    simp [registerOutput, registerNext, registerFile, Std.ExtTreeMap.getElem?_insert, other]
  case files =>
    intro id
    refine (files id).trans ?_
    by_cases old : id < e.nextSstId
    · rw [if_neg (by omega), if_pos old]
    · rw [if_neg old]
      by_cases here : e.nextSstId = id
      · rw [if_pos here, ← here, Nat.sub_self]
        rfl
      · obtain ⟨n, hn⟩ : ∃ n, id - e.nextSstId = n + 1 := ⟨id - e.nextSstId - 1, by omega⟩
        rw [if_neg here, hn, fileOf_of_le inv (by omega)]
        rfl
  case index =>
    intro k
    rw [outputTargets, outputTargets, append_nil]
    exact all k

theorem Committed.cons {e e1 e2 : Engine} {ids : List Nat} {out : CompactionOutput}
    {outs : List CompactionOutput} (below : ∀ id ∈ ids, id < e.nextSstId)
    (next : e1.nextSstId = e.nextSstId + 1) (h : Committed e e1 ids [out])
    (h' : Committed e1 e2 ids outs) : Committed e e2 ids (out :: outs) := by
  constructor
  case sst => exact h'.sst
  case wf => exact h'.wf
  case same => exact h.same.trans h'.same
  case next => exact h.next.trans h'.next
  case registry =>
    intro id hid
    rw [h'.registry id (by omega), h.registry id hid]
  case files =>
    intro id
    rw [h'.files, h.files, next]
    by_cases old : id < e.nextSstId
    · rw [if_pos (by omega), if_pos old, if_pos old]
    · rw [if_neg old, if_neg old]
      by_cases here : id = e.nextSstId
      · rw [if_pos (by omega), here, Nat.sub_self]
        rfl
      · obtain ⟨n, hn⟩ : ∃ n, id - e.nextSstId = n + 1 := ⟨id - e.nextSstId - 1, by omega⟩
        have hn' : id - (e.nextSstId + 1) = n := by omega
        rw [if_neg (by omega), hn, hn', getElem?_cons_succ]
  case index =>
    intro k
    have first := h.index k
    have later := h'.index k
    rw [next] at later
    rw [outputTargets, outputTargets, append_nil] at first
    refine first.append later ?_
    intro t ht id b r loc
    obtain ⟨u, _, rfl⟩ := mem_map.mp ht
    cases loc
    exact fun inside => lt_irrefl _ (below _ inside)

theorem commitOutputs_spec (inv : e.SstInv) (wf : e.art.WF) (below : ∀ id ∈ ids, id < e.nextSstId)
    (outs : List CompactionOutput) :
    ∃ e', outs.foldlM (commitOutput ids) e = some e' ∧ Committed e e' ids outs := by
  induction outs generalizing e with
  | nil =>
    refine ⟨e, rfl, inv, wf, SameBut.refl e, le_rfl, fun _ _ => rfl, ?_, ?_⟩
    · intro id
      by_cases old : id < e.nextSstId
      · rw [if_pos old]
      · rw [if_neg old, fileOf_of_le inv (not_lt.mp old)]
        rfl
    · exact fun k => .inl ⟨rfl, by simp [outputTargets]⟩
  | cons out rest ih =>
    obtain ⟨e1, eq, next, first⟩ := commitOutput_spec inv wf below out
    obtain ⟨e2, eq', later⟩ := ih first.sst first.wf
      (fun id hid => (below id hid).trans_le first.next)
    exact ⟨e2, by rw [foldlM_cons, eq]; exact eq', first.cons below next later⟩

end Commit

section Compact

variable {env : Platform}

/-- The rows of the inputs of a compaction, in the order it reads them. -/
def inputRows (e : Engine) (order : IterOrder) : List SstRow :=
  (order.order e.sstRegistry.toList).flatMap fun entry => SstFile.rows (e.blocksOf entry.2)

/-- What a compaction of all registered files does. -/
structure Compacted (e e' : Engine) (order : IterOrder) : Prop where
  sst : e'.SstInv
  wf : e'.art.WF
  same : SameBut e e'
  mem_rows : ∀ r, r ∈ e'.sstRows ↔
    r ∈ (collect e.pinSource (e.inputRows order)).map SurvivorRow.toSstRow
  zoned : ∀ id f, e'.fileOf id = some f → ∀ b ∈ f, Zoned b
  keys : ∀ k, e'.art.lookup k = none ↔ e.art.lookup k = none
  memtable : ∀ k shard key, e.art.lookup k = some (.memtable shard key) →
    e'.art.lookup k = some (.memtable shard key)
  moved : ∀ k id b r row n, e.art.lookup k = some (.sst id b r) → e.rowAt id b r = some row →
    Newest e.storedRows k n → n.val ≠ none → ∃ id' b' r' row',
      e'.art.lookup k = some (.sst id' b' r') ∧ e'.rowAt id' b' r' = some row' ∧ row'.toRow = n

variable {e : Engine}

theorem mem_inputRows (order : IterOrder) (r : SstRow) : r ∈ e.inputRows order ↔ r ∈ e.sstRows := by
  rw [← mem_scanRows order]
  simp only [inputRows, SstFile.rows, scanRows, scanBlocks, mem_flatMap]
  constructor
  · rintro ⟨entry, he, b, hb, hr⟩
    exact ⟨b, ⟨entry, he, hb⟩, hr⟩
  · rintro ⟨b, ⟨entry, he, hb⟩, hr⟩
    exact ⟨entry, he, b, hb, hr⟩

theorem mem_inputRows_toRow (order : IterOrder) (x : Row Bytes Bytes) :
    x ∈ (e.inputRows order).map SstRow.toRow ↔ x ∈ e.storedRows := by
  simp only [storedRows, mem_map, mem_inputRows]

/-- The outputs of a compaction of all registered files. -/
def compactOutputs (env : Platform) (e : Engine) (order : IterOrder) : List CompactionOutput :=
  (workerChunks e.config.compactionConcurrency (collect e.pinSource (e.inputRows order))).flatMap
    (buildRun env.blockLen (latestTs e.pinSource ((e.inputRows order).foldl addVersion ∅))
      e.config.sstSizeBytes e.config.maxRowsPerSst e.columnar)

theorem splits_compactOutputs (env : Platform) (e : Engine) (order : IterOrder) :
    Splits (latestTs e.pinSource ((e.inputRows order).foldl addVersion ∅))
      (collect e.pinSource (e.inputRows order)) (compactOutputs env e order) := by
  have split : Splits (latestTs e.pinSource ((e.inputRows order).foldl addVersion ∅))
      (workerChunks e.config.compactionConcurrency
        (collect e.pinSource (e.inputRows order))).flatten (compactOutputs env e order) :=
    splits_workers _ _ _ _
  rwa [flatten_workerChunks] at split

theorem compactInner_eq (env : Platform) (e : Engine) (order : IterOrder) (force : Bool) :
    e.compactInner env order force =
      if (order.order e.sstRegistry.toList).length < (if force then 1 else 2) then some e
      else ((compactOutputs env e order).foldlM
        (commitOutput ((order.order e.sstRegistry.toList).map Prod.fst)) e).map
          fun e' => e'.dropFiles (order.order e.sstRegistry.toList) := rfl

/-- A target of a compaction names the newest row of its key. -/
theorem newest_of_target (env : Platform) (distinct : Distinct e.storedRows) (order : IterOrder)
    {out : CompactionOutput} (hout : out ∈ compactOutputs env e order) {t : Bytes × Nat × Nat}
    (ht : t ∈ out.artTargets) :
    ∃ row, out.blocks.rowAt t.2.1 t.2.2 = some row ∧ Newest e.storedRows t.1 row.toRow := by
  have distinct' : Distinct ((e.inputRows order).map SstRow.toRow) :=
    distinct.sublist fun x => (mem_inputRows_toRow order x).mp
  obtain ⟨part, sub, writes⟩ := (splits_compactOutputs env e order).exists_part hout
  obtain ⟨s, hs, hk, latest, place⟩ := writes.sound t ht
  have survived := sub hs
  have mem : s.toSstRow.toRow ∈ e.storedRows := by
    have written : s.toSstRow.toRow ∈ ((collect e.pinSource (e.inputRows order)).map
        SurvivorRow.toSstRow).map SstRow.toRow :=
      mem_map_of_mem (mem_map_of_mem survived)
    exact (mem_inputRows_toRow order _).mp (collect_subset written)
  refine ⟨s.toSstRow, place, mem, by exact hk, ?_⟩
  intro x hx hxk
  exact (latestTs_iff distinct' survived).mp latest x ((mem_inputRows_toRow order x).mpr hx)
    (hxk.trans hk.symm)

/-- A key whose newest row is live has a target. -/
theorem exists_target (env : Platform) (distinct : Distinct e.storedRows) (order : IterOrder)
    {k : Bytes} {n : Row Bytes Bytes} (hn : Newest e.storedRows k n) (live : n.val ≠ none) :
    ∃ out ∈ compactOutputs env e order, ∃ t ∈ out.artTargets, t.1 = k := by
  have distinct' : Distinct ((e.inputRows order).map SstRow.toRow) :=
    distinct.sublist fun x => (mem_inputRows_toRow order x).mp
  have hn' : Newest ((e.inputRows order).map SstRow.toRow) k n :=
    (newest_congr (mem_inputRows_toRow order)).mpr hn
  rcases newest_collect e.pinSource distinct' hn' with survives | ⟨dead, _⟩
  · obtain ⟨r, hr, rfl⟩ := mem_map.mp survives
    obtain ⟨s, hs, rfl⟩ := mem_map.mp hr
    have key : s.key = k := hn.2.1
    have latest := (latestTs_iff distinct' hs).mpr (fun x hx hxk => hn'.2.2 x hx (hxk.trans key))
    obtain ⟨out, hout, t, ht, htk⟩ := (splits_compactOutputs env e order).complete hs latest
    exact ⟨out, hout, t, ht, htk.trans key⟩
  · exact absurd dead live

/-- A compaction succeeds, and does nothing or replaces its inputs by their merge. -/
theorem compactInner_spec (env : Platform) (inv : e.SstInv) (wf : e.art.WF)
    (distinct : Distinct e.storedRows) (order : IterOrder) (force : Bool) :
    ∃ e', e.compactInner env order force = some e' ∧ (e' = e ∨ Compacted e e' order) := by
  rw [compactInner_eq]
  by_cases few : (order.order e.sstRegistry.toList).length < if force then 1 else 2
  · rw [if_pos few]
    exact ⟨e, rfl, .inl rfl⟩
  rw [if_neg few]
  have registered : ∀ i ∈ order.order e.sstRegistry.toList, e.sstRegistry[i.1]? = some i.2 :=
    fun i hi => Std.ExtTreeMap.mem_toList_iff_getElem?_eq_some.mp ((order.perm _).mem_iff.mp hi)
  have everyId : ∀ (id : Nat) (entry : SstEntry), e.sstRegistry[id]? = some entry →
      id ∈ (order.order e.sstRegistry.toList).map Prod.fst := by
    intro id entry he
    have mem := Std.ExtTreeMap.mem_toList_iff_getElem?_eq_some.mpr he
    exact mem_map.mpr ⟨(id, entry), (order.perm _).mem_iff.mpr mem, rfl⟩
  have below : ∀ id ∈ (order.order e.sstRegistry.toList).map Prod.fst, id < e.nextSstId := by
    intro id hid
    obtain ⟨i, hi, rfl⟩ := mem_map.mp hid
    exact inv.id_lt _ _ (registered i hi)
  obtain ⟨e1, commit, done⟩ := commitOutputs_spec inv wf below (compactOutputs env e order)
  rw [commit]
  refine ⟨_, rfl, .inr ?_⟩
  have inside : ∀ i ∈ order.order e.sstRegistry.toList, e1.sstRegistry[i.1]? = some i.2 := by
    intro i hi
    rw [done.registry i.1 (below i.1 (mem_map_of_mem hi))]
    exact registered i hi
  obtain ⟨sst, dropped⟩ := dropFiles_spec done.sst inside
  have files : ∀ id, (e1.dropFiles (order.order e.sstRegistry.toList)).fileOf id =
      if id < e.nextSstId then none
      else ((compactOutputs env e order)[id - e.nextSstId]?).map CompactionOutput.blocks := by
    intro id
    rw [dropped, done.files]
    by_cases old : id < e.nextSstId
    · split
      · rfl
      · rename_i unregistered
        rw [fileOf]
        cases he : e.sstRegistry[id]? with
        | none => rfl
        | some entry => exact absurd (everyId id entry he) unregistered
    · rw [if_neg fun h => old (below id h), if_neg old, if_neg old]
  constructor
  case sst => exact sst
  case wf => exact done.wf
  case same => exact ⟨⟨done.same.config, done.same.wal, done.same.nextTimestamp,
    done.same.pinSource, done.same.bgWorkerActive, done.same.columnar⟩, done.same.memtableMgr⟩
  case mem_rows =>
    intro r
    rw [mem_sstRows_iff, ← (splits_compactOutputs env e order).mem_rows]
    constructor
    · rintro ⟨id, f, hf, hr⟩
      rw [files] at hf
      split at hf
      · cases hf
      · obtain ⟨out, hout, rfl⟩ := Option.map_eq_some_iff.mp hf
        exact ⟨out, mem_of_getElem? hout, hr⟩
    · rintro ⟨out, hout, hr⟩
      obtain ⟨i, hi⟩ := getElem?_of_mem hout
      refine ⟨e.nextSstId + i, out.blocks, ?_, hr⟩
      rw [files, if_neg (by omega), Nat.add_sub_cancel_left, hi]
      rfl
  case zoned =>
    intro id f hf
    rw [files] at hf
    split at hf
    · cases hf
    · obtain ⟨out, hout, rfl⟩ := Option.map_eq_some_iff.mp hf
      obtain ⟨_, _, writes⟩ :=
        (splits_compactOutputs env e order).exists_part (mem_of_getElem? hout)
      exact writes.zoned
  case keys =>
    intro k
    change e1.art.lookup k = none ↔ _
    rcases done.index k with ⟨same, _⟩ | ⟨⟨id, b, r, found, _⟩, t, _, _, moved⟩
    · rw [same]
    · simp [found, moved]
  case memtable =>
    intro k shard key found
    rcases done.index k with ⟨same, _⟩ | ⟨⟨id, b, r, found', _⟩, _⟩
    · exact same.trans found
    · rw [found] at found'
      cases found'
  case moved =>
    intro k id b r row n found place hn live
    obtain ⟨f, hf, _⟩ := Option.bind_eq_some_iff.mp place
    obtain ⟨entry, he, _⟩ := fileOf_eq_some.mp hf
    have points : PointsInto e.art ((order.order e.sstRegistry.toList).map Prod.fst) k :=
      ⟨id, b, r, found, everyId id entry he⟩
    rcases done.index k with ⟨_, untouched⟩ | ⟨_, t, ht, hk, moved⟩
    · obtain ⟨out, hout, t, ht, htk⟩ := exists_target env distinct order hn live
      obtain ⟨i, hi⟩ := getElem?_of_mem hout
      exact absurd htk (untouched points _ (mem_outputTargets.mpr ⟨i, out, hi, t, ht, rfl⟩))
    · obtain ⟨i, out, hi, u, hu, rfl⟩ := mem_outputTargets.mp ht
      obtain ⟨row', place', newest⟩ :=
        newest_of_target env distinct order (mem_of_getElem? hi) hu
      refine ⟨_, _, _, row', moved, ?_, ?_⟩
      · rw [rowAt, files, if_neg (by omega), Nat.add_sub_cancel_left, hi]
        exact place'
      · exact newest_unique distinct (hk ▸ newest) hn

end Compact

end Engine

end GalaxDb
