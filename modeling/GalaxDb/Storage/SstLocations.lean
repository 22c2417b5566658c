import GalaxDb.Storage.ArtEntries
import GalaxDb.Storage.ConcurrentCompaction
import GalaxDb.Storage.FileNames

/-!
# Where the index sends its keys

Ids of files are drawn from a shared counter: the first one of a flush before its files are
written, the others when they are registered. The index is told the first id plus the place
of the file in the flush.
-/

namespace GalaxDb

open Std Compaction Flush List Option

namespace Engine

/-- An index entry into a registered file leads to a row of its own key. -/
def PointsAtOwnRows (e : Engine) : Prop :=
  ∀ k id b r, (k, .sst id b r) ∈ e.art.entries →
    ∀ entry, e.sstRegistry[id]? = some entry →
      ∃ row, (e.blocksOf entry).rowAt b r = some row ∧ row.key = k

/-- Ids and paths are below their counters, no two files share a path, and the index knows
ids that were drawn only. -/
structure Tracked (e : Engine) : Prop where
  id_lt : ∀ (id : Nat) (entry : SstEntry), e.sstRegistry[id]? = some entry → id < e.nextSstId
  path_lt : ∀ (id : Nat) (entry : SstEntry), e.sstRegistry[id]? = some entry →
    entry.path < e.nextBlockId
  inj : ∀ (id id' : Nat) (entry : SstEntry), e.sstRegistry[id]? = some entry →
    e.sstRegistry[id']? = some entry → id = id'
  entry_lt : ∀ k id b r, (k, .sst id b r) ∈ e.art.entries → id < e.nextSstId
  points : e.PointsAtOwnRows

/-- An id that was drawn and that nothing knows yet. -/
structure Unused (e : Engine) (id : Nat) : Prop where
  drawn : id < e.nextSstId
  free : e.sstRegistry[id]? = none
  unknown : ∀ k b r, (k, .sst id b r) ∉ e.art.entries

/-- A path that was drawn and is not registered. -/
structure PathFree (e : Engine) (path : Nat) : Prop where
  drawn : path < e.nextBlockId
  free : ∀ (id : Nat) (entry : SstEntry), e.sstRegistry[id]? = some entry → entry.path ≠ path

/-- Whatever is new is under an id and a path that are the caller's own or drawn just now. -/
structure Extends (own paths : List Nat) (e e' : Engine) : Prop where
  sst : e.nextSstId ≤ e'.nextSstId
  block : e.nextBlockId ≤ e'.nextBlockId
  registry : ∀ (id : Nat) (entry : SstEntry), e'.sstRegistry[id]? = some entry →
    e.sstRegistry[id]? = some entry ∨
      (id ∈ own ∨ e.nextSstId ≤ id) ∧ (entry.path ∈ paths ∨ e.nextBlockId ≤ entry.path)
  entries : ∀ k id b r, (k, .sst id b r) ∈ e'.art.entries →
    (k, .sst id b r) ∈ e.art.entries ∨ id ∈ own ∨ e.nextSstId ≤ id

section Frame

variable {e e' e'' : Engine} {own paths : List Nat}

theorem Extends.refl (own paths : List Nat) (e : Engine) : Extends own paths e e :=
  ⟨le_rfl, le_rfl, fun _ _ => .inl, fun _ _ _ _ => .inl⟩

theorem Extends.trans (h : Extends [] [] e e') (h' : Extends [] [] e' e'') :
    Extends [] [] e e'' := by
  refine ⟨h.sst.trans h'.sst, h.block.trans h'.block, ?_, ?_⟩
  · intro id entry registered
    rcases h'.registry id entry registered with old | ⟨new, path⟩
    · exact h.registry id entry old
    · have id_ge := new.resolve_left not_mem_nil
      have path_ge := path.resolve_left not_mem_nil
      exact .inr ⟨.inr (h.sst.trans id_ge), .inr (h.block.trans path_ge)⟩
  · intro k id b r inside
    rcases h'.entries k id b r inside with old | new
    · exact h.entries k id b r old
    · exact .inr (.inr (h.sst.trans (new.resolve_left not_mem_nil)))

theorem Unused.extends {id : Nat} (h : e.Unused id) (ext : Extends own paths e e')
    (other : id ∉ own) : e'.Unused id := by
  refine ⟨h.drawn.trans_le ext.sst, ?_, ?_⟩
  · refine eq_none_iff_forall_ne_some.mpr fun entry registered => ?_
    rcases ext.registry id entry registered with old | ⟨new, _⟩
    · rw [h.free] at old
      cases old
    · exact h.drawn.not_ge (new.resolve_left other)
  · intro k b r inside
    rcases ext.entries k id b r inside with old | new
    · exact h.unknown k b r old
    · exact h.drawn.not_ge (new.resolve_left other)

theorem PathFree.extends {path : Nat} (h : e.PathFree path) (ext : Extends own paths e e')
    (other : path ∉ paths) : e'.PathFree path := by
  refine ⟨h.drawn.trans_le ext.block, ?_⟩
  rintro id entry registered rfl
  rcases ext.registry id entry registered with old | ⟨_, new⟩
  · exact h.free id entry old rfl
  · exact h.drawn.not_ge (new.resolve_left other)

/-- Only the counters and the index have changed, and the index has no new entry into a
file. -/
theorem Tracked.of_sub (h : e.Tracked) (registry : e'.sstRegistry = e.sstRegistry)
    (files : e'.files = e.files) (sst : e.nextSstId ≤ e'.nextSstId)
    (block : e.nextBlockId ≤ e'.nextBlockId)
    (sub : ∀ k id b r, (k, .sst id b r) ∈ e'.art.entries →
      (k, .sst id b r) ∈ e.art.entries) :
    e'.Tracked ∧ Extends [] [] e e' := by
  refine ⟨⟨?_, ?_, ?_, ?_, ?_⟩, ⟨sst, block, ?_, fun k id b r inside => .inl (sub k id b r inside)⟩⟩
  · intro id entry registered
    rw [registry] at registered
    exact (h.id_lt id entry registered).trans_le sst
  · intro id entry registered
    rw [registry] at registered
    exact (h.path_lt id entry registered).trans_le block
  · rw [registry]
    exact h.inj
  · intro k id b r inside
    exact (h.entry_lt k id b r (sub k id b r inside)).trans_le sst
  · intro k id b r inside entry registered
    rw [registry] at registered
    unfold blocksOf
    rw [files]
    exact h.points k id b r (sub k id b r inside) entry registered
  · intro id entry registered
    rw [registry] at registered
    exact .inl registered

end Frame

section Register

variable {e : Engine}

/-- One file under an unused id and a free path. -/
theorem Tracked.register (h : e.Tracked) {id n m : Nat} {file : Nat × SstFile}
    (unknown : ∀ k b r, (k, .sst id b r) ∉ e.art.entries)
    (path : ∀ (id : Nat) (entry : SstEntry), e.sstRegistry[id]? = some entry → entry.path ≠ file.1)
    (id_lt : id < n) (sst : e.nextSstId ≤ n) (path_lt : file.1 < m) (block : e.nextBlockId ≤ m) :
    ({ e.registerFile id file with nextSstId := n, nextBlockId := m } : Engine).Tracked := by
  have registry : ∀ id' : Nat, (e.registerFile id file).sstRegistry[id']? =
      if id = id' then some ⟨file.1⟩ else e.sstRegistry[id']? := by
    simp [registerFile, ExtTreeMap.getElem?_insert]
  refine ⟨?_, ?_, ?_, ?_, ?_⟩
  · intro id' entry registered
    simp only [registry] at registered
    split at registered
    · rename_i same
      exact same ▸ id_lt
    · exact (h.id_lt id' entry registered).trans_le sst
  · intro id' entry registered
    simp only [registry] at registered
    split at registered
    · cases registered
      exact path_lt
    · exact (h.path_lt id' entry registered).trans_le block
  · intro id1 id2 entry first second
    simp only [registry] at first second
    split at first <;> split at second
    · rename_i here there
      exact here.symm.trans there
    · cases first
      exact absurd rfl (path id2 _ second)
    · cases second
      exact absurd rfl (path id1 _ first)
    · exact h.inj id1 id2 entry first second
  · intro k id' b r inside
    exact (h.entry_lt k id' b r inside).trans_le sst
  · intro k id' b r inside entry registered
    simp only [registry] at registered
    split at registered
    · rename_i same
      exact absurd inside (same ▸ unknown k b r)
    · have other := path id' entry registered
      have blocks : ({ e.registerFile id file with nextSstId := n, nextBlockId := m } :
          Engine).blocksOf entry = e.blocksOf entry := by
        simp [blocksOf, registerFile, ExtTreeMap.getElem?_insert, Ne.symm other]
      rw [blocks]
      exact h.points k id' b r inside entry registered

/-- Files registered under the next ids, one after the other. -/
structure RegisteredAll (e e' : Engine) (files : List (Nat × SstFile)) : Prop where
  sst : e'.nextSstId = e.nextSstId + files.length
  block : e'.nextBlockId = e.nextBlockId
  art : e'.art = e.art
  added : ∀ (i : Nat) (f : Nat × SstFile), files[i]? = some f →
    e'.sstRegistry[e.nextSstId + i]? = some ⟨f.1⟩ ∧ e'.files[f.1]? = some f.2
  registry : ∀ (id : Nat) (entry : SstEntry), e'.sstRegistry[id]? = some entry →
    e.sstRegistry[id]? = some entry ∨ e.nextSstId ≤ id ∧ entry.path ∈ files.map Prod.fst
  older : ∀ id < e.nextSstId, e'.sstRegistry[id]? = e.sstRegistry[id]?
  kept : ∀ path ∉ files.map Prod.fst, e'.files[path]? = e.files[path]?

theorem Tracked.registerNext (h : e.Tracked) {file : Nat × SstFile} (path : e.PathFree file.1) :
    (e.registerNext file).Tracked := by
  refine h.register ?_ path.free (Nat.lt_succ_self _) (Nat.le_succ _) path.drawn le_rfl
  intro k b r inside
  exact lt_irrefl _ (h.entry_lt k _ b r inside)

/-- Files with new names are all registered. -/
theorem Tracked.foldl_registerNext (h : e.Tracked) {files : List (Nat × SstFile)}
    (nodup : (files.map Prod.fst).Nodup) (free : ∀ f ∈ files, e.PathFree f.1) :
    (files.foldl Engine.registerNext e).Tracked ∧
      RegisteredAll e (files.foldl Engine.registerNext e) files := by
  induction files generalizing e with
  | nil =>
    refine ⟨h, ⟨rfl, rfl, rfl, ?_, fun _ _ => .inl, fun _ _ => rfl, fun _ _ => rfl⟩⟩
    intro i f found
    cases found
  | cons file rest ih =>
    obtain ⟨once, nodup⟩ := nodup_cons.mp nodup
    have first := free file mem_cons_self
    have registry : ∀ id : Nat, (e.registerNext file).sstRegistry[id]? =
        if e.nextSstId = id then some ⟨file.1⟩ else e.sstRegistry[id]? := by
      simp [Engine.registerNext, registerFile, ExtTreeMap.getElem?_insert]
    have onDisk : ∀ path : Nat, (e.registerNext file).files[path]? =
        if file.1 = path then some file.2 else e.files[path]? := by
      simp [Engine.registerNext, registerFile, ExtTreeMap.getElem?_insert]
    have free1 : ∀ f ∈ rest, (e.registerNext file).PathFree f.1 := by
      intro f hf
      have other := free f (mem_cons_of_mem _ hf)
      refine ⟨other.drawn, ?_⟩
      intro id entry registered
      rw [registry] at registered
      split at registered
      · cases registered
        intro same
        have listed : f.1 ∈ rest.map Prod.fst := mem_map_of_mem hf
        rw [← same] at listed
        exact once listed
      · exact other.free id entry registered
    obtain ⟨tracked, all⟩ := ih (h.registerNext first) nodup free1
    have next : (e.registerNext file).nextSstId = e.nextSstId + 1 := rfl
    rw [foldl_cons]
    refine ⟨tracked, ⟨?_, all.block, all.art, ?_, ?_, ?_, ?_⟩⟩
    · rw [all.sst, next, length_cons]
      omega
    · intro i f found
      cases i with
      | zero =>
        obtain rfl := some.inj found
        rw [add_zero, all.older _ (Nat.lt_succ_self _), registry, if_pos rfl,
          all.kept file.1 once, onDisk, if_pos rfl]
        exact ⟨rfl, rfl⟩
      | succ i =>
        have shift : e.nextSstId + (i + 1) = e.nextSstId + 1 + i := by omega
        rw [shift]
        exact all.added i f (by simpa using found)
    · intro id entry registered
      rcases all.registry id entry registered with old | ⟨ge, inside⟩
      · rw [registry] at old
        split at old
        · rename_i same
          cases old
          exact .inr ⟨same.le, mem_cons_self⟩
        · exact .inl old
      · exact .inr ⟨Nat.le_of_succ_le ge, mem_cons_of_mem _ inside⟩
    · intro id lt
      rw [all.older id (Nat.lt_succ_of_lt lt), registry, if_neg lt.ne']
    · intro path other
      rw [map_cons, mem_cons, not_or] at other
      rw [all.kept path other.2, onDisk, if_neg (Ne.symm other.1)]

end Register

section FlushRegister

variable {e : Engine}

theorem mem_entries_insertAll {pairs : List (Bytes × RowLocation)} :
    ∀ {art art' : ArtIndex RowLocation}, insertAll art pairs = some art' →
      ∀ x ∈ art'.entries, x ∈ pairs ∨ x ∈ art.entries := by
  induction pairs with
  | nil =>
    intro art art' inserted x hx
    cases inserted
    exact .inr hx
  | cons p rest ih =>
    intro art art' inserted x hx
    obtain ⟨art1, first, inserted⟩ := bind_eq_some_iff.mp inserted
    rcases ih inserted x hx with new | old
    · exact .inl (mem_cons_of_mem _ new)
    · rcases ArtIndex.mem_entries_insert first old with rfl | old
      · exact .inl mem_cons_self
      · exact .inr old

/-- The files of a flush: the first under its own id, the others under those drawn now. -/
theorem Tracked.registerFiles (h : e.Tracked) {sstId : Nat} (unused : e.Unused sstId)
    {files : List (Nat × SstFile)} (nodup : (files.map Prod.fst).Nodup)
    (free : ∀ f ∈ files, e.PathFree f.1) :
    let e' := Engine.registerFiles e sstId files
    e'.Tracked ∧ e'.art = e.art ∧ Extends [sstId] (files.map Prod.fst) e e' ∧
      (files.length ≤ 1 ∨ e.nextSstId = sstId + 1 →
        ∀ (i : Nat) (f : Nat × SstFile), files[i]? = some f →
          sstId + i < e'.nextSstId ∧ e'.sstRegistry[sstId + i]? = some ⟨f.1⟩ ∧
            e'.files[f.1]? = some f.2) := by
  cases files with
  | nil => exact ⟨h, rfl, Extends.refl _ _ e, nofun⟩
  | cons file rest =>
    obtain ⟨once, nodup⟩ := nodup_cons.mp nodup
    have first := free file mem_cons_self
    have tracked1 : (e.registerFile sstId file).Tracked :=
      @Tracked.register e h sstId e.nextSstId e.nextBlockId file unused.unknown first.free
        unused.drawn le_rfl first.drawn le_rfl
    have registry : ∀ id : Nat, (e.registerFile sstId file).sstRegistry[id]? =
        if sstId = id then some ⟨file.1⟩ else e.sstRegistry[id]? := by
      simp [registerFile, ExtTreeMap.getElem?_insert]
    have onDisk : (e.registerFile sstId file).files[file.1]? = some file.2 := by
      simp [registerFile]
    have free1 : ∀ f ∈ rest, (e.registerFile sstId file).PathFree f.1 := by
      intro f hf
      have other := free f (mem_cons_of_mem _ hf)
      refine ⟨other.drawn, ?_⟩
      intro id entry registered
      rw [registry] at registered
      split at registered
      · cases registered
        intro same
        have listed : f.1 ∈ rest.map Prod.fst := mem_map_of_mem hf
        rw [← same] at listed
        exact once listed
      · exact other.free id entry registered
    obtain ⟨tracked, all⟩ := tracked1.foldl_registerNext nodup free1
    have sst : (e.registerFile sstId file).nextSstId = e.nextSstId := rfl
    refine ⟨tracked, all.art, ⟨?_, all.block.symm.le, ?_, ?_⟩, ?_⟩
    · have up := all.sst
      exact Nat.le.intro up.symm
    · intro id entry registered
      rcases all.registry id entry registered with old | ⟨ge, path⟩
      · rw [registry] at old
        split at old
        · rename_i same
          cases old
          exact .inr ⟨.inl (mem_singleton.mpr same.symm), .inl mem_cons_self⟩
        · exact .inl old
      · exact .inr ⟨.inr ge, .inl (mem_cons_of_mem _ path)⟩
    · intro k id b r inside
      have old : (k, .sst id b r) ∈
          ((rest.foldl Engine.registerNext (e.registerFile sstId file)).art).entries := inside
      rw [all.art] at old
      exact .inl old
    · intro inOrder i f found
      cases i with
      | zero =>
        obtain rfl := some.inj found
        have drawn := unused.drawn
        refine ⟨?_, ?_, ?_⟩
        · exact drawn.trans_le (Nat.le.intro (all.sst.trans (by rw [sst])).symm)
        · exact (all.older sstId drawn).trans (by rw [registry, if_pos rfl])
        · exact (all.kept file.1 once).trans onDisk
      | succ i =>
        have more : rest[i]? = some f := by simpa using found
        have short := (List.getElem?_eq_some_iff.mp more).1
        have next : e.nextSstId = sstId + 1 := by
          refine inOrder.resolve_left ?_
          rw [length_cons]
          omega
        have shift : sstId + (i + 1) = e.nextSstId + i := by omega
        obtain ⟨registered, file⟩ := all.added i f more
        rw [shift]
        refine ⟨?_, registered, file⟩
        exact Nat.lt_of_lt_of_eq (Nat.add_lt_add_left short _) (all.sst.trans (by rw [sst])).symm

/-- The keys of the snapshot are sent to rows of their own. -/
def Placed (entries : List Entry) (result : FlushResult) : Prop :=
  ∀ t ∈ (entries.map Prod.fst).zip (result.blockMap.flatMap places),
    ∃ row, Flush.rowAt result.files t.2.1 t.2.2.1 t.2.2.2 = some row ∧ row.key = t.1

/-- A flush whose files get the ids that the index is told. -/
theorem Tracked.registerSst (h : e.Tracked) {sstId : Nat} (unused : e.Unused sstId)
    {entries : List Entry} {result : FlushResult} (nodup : (result.files.map Prod.fst).Nodup)
    (free : ∀ f ∈ result.files, e.PathFree f.1) (placed : Placed entries result)
    (inOrder : result.files.length ≤ 1 ∨ e.nextSstId = sstId + 1) {art : ArtIndex RowLocation}
    (inserted : insertAll (Engine.registerFiles e sstId result.files).art
      ((entries.map Prod.fst).zip (flushLocations sstId result.blockMap)) = some art) :
    let e' := { Engine.registerFiles e sstId result.files with art := art }
    e'.Tracked ∧ Extends [sstId] (result.files.map Prod.fst) e e' := by
  obtain ⟨tracked, _, ext, added⟩ := h.registerFiles unused nodup free
  have new : ∀ k id b r, (k, .sst id b r) ∈ art.entries →
      (k, .sst id b r) ∈ (Engine.registerFiles e sstId result.files).art.entries ∨
        ∃ i f row, id = sstId + i ∧ result.files[i]? = some f ∧ f.2.rowAt b r = some row ∧
          row.key = k := by
    intro k id b r inside
    rcases mem_entries_insertAll inserted _ inside with pair | old
    · rw [flushLocations_eq, zip_map_right] at pair
      obtain ⟨⟨k', i, b', r'⟩, hp, eq⟩ := mem_map.mp pair
      obtain ⟨row, found, key⟩ := placed _ hp
      obtain ⟨f, hf, at_place⟩ := bind_eq_some_iff.mp found
      cases eq
      exact .inr ⟨i, f, row, rfl, hf, at_place, key⟩
    · exact .inl old
  refine ⟨⟨tracked.id_lt, tracked.path_lt, tracked.inj, ?_, ?_⟩,
    ⟨ext.sst, ext.block, ext.registry, ?_⟩⟩
  · intro k id b r inside
    rcases new k id b r inside with old | ⟨i, f, row, rfl, hf, _⟩
    · exact tracked.entry_lt k id b r old
    · exact (added inOrder i f hf).1
  · intro k id b r inside entry registered
    rcases new k id b r inside with old | ⟨i, f, row, rfl, hf, found, key⟩
    · exact tracked.points k id b r old entry registered
    · obtain ⟨_, here, file⟩ := added inOrder i f hf
      obtain rfl := some.inj (here.symm.trans registered)
      refine ⟨row, ?_, key⟩
      simp only [blocksOf, file]
      exact found
  · intro k id b r inside
    rcases new k id b r inside with old | ⟨i, f, row, rfl, hf, _⟩
    · exact ext.entries k id b r old
    · cases i with
      | zero => exact .inr (.inl (mem_singleton.mpr rfl))
      | succ i =>
        have several := (List.getElem?_eq_some_iff.mp hf).1
        omega

end FlushRegister

section Compaction

variable {e e' : Engine}

variable {ids : List Nat}

theorem mem_entries_relocateIfPointsTo {art art' : ArtIndex RowLocation} {key : Bytes}
    {location : RowLocation} (relocated : relocateIfPointsTo art key ids location = some art') :
    ∀ x ∈ art'.entries, x = (key, location) ∨ x ∈ art.entries := by
  intro x hx
  unfold relocateIfPointsTo at relocated
  split at relocated
  · split at relocated
    · exact ArtIndex.mem_entries_insert relocated hx
    · cases relocated
      exact .inr hx
  · cases relocated
    exact .inr hx

theorem mem_entries_relocateAll {sid : Nat} {targets : List (Bytes × Nat × Nat)} :
    ∀ {art art' : ArtIndex RowLocation},
      targets.foldlM (fun art t => relocateIfPointsTo art t.1 ids (.sst sid t.2.1 t.2.2)) art =
        some art' →
      ∀ x ∈ art'.entries, (∃ t ∈ targets, x = (t.1, .sst sid t.2.1 t.2.2)) ∨ x ∈ art.entries := by
  induction targets with
  | nil =>
    intro art art' relocated x hx
    cases relocated
    exact .inr hx
  | cons t rest ih =>
    intro art art' relocated x hx
    obtain ⟨art1, first, relocated⟩ := bind_eq_some_iff.mp relocated
    rcases ih relocated x hx with ⟨u, hu, rfl⟩ | old
    · exact .inl ⟨u, mem_cons_of_mem _ hu, rfl⟩
    · rcases mem_entries_relocateIfPointsTo first x old with rfl | old
      · exact .inl ⟨t, mem_cons_self, rfl⟩
      · exact .inr old

/-- The targets of an output are places of rows of their keys. -/
def TargetsPlaced (out : CompactionOutput) : Prop :=
  ∀ t ∈ out.artTargets, ∃ row, SstFile.rowAt out.blocks t.2.1 t.2.2 = some row ∧ row.key = t.1

variable {inputs : List (Nat × SstEntry)} {outputs : List CompactionOutput} {out : CompactionOutput}

theorem targetsPlaced_outputsOf {env : Platform}
    (hout : out ∈ ConcurrentCompaction.outputsOf env e inputs) : TargetsPlaced out := by
  obtain ⟨part, _, writes⟩ := (splits_workers _ _ _ _).exists_part hout
  intro t ht
  obtain ⟨s, _, key, _, place⟩ := writes.sound t ht
  exact ⟨s.toSstRow, place, key⟩

/-- The output of a compaction points at its own rows. -/
theorem Tracked.commitOutput (h : e.Tracked) (placed : TargetsPlaced out)
    (committed : Engine.commitOutput ids e out = some e') : e'.Tracked ∧ Extends [] [] e e' := by
  obtain ⟨art, relocated, rfl⟩ := map_eq_some_iff.mp committed
  have unknown : ∀ k b r, (k, .sst e.nextSstId b r) ∉ e.art.entries :=
    fun k b r inside => lt_irrefl _ (h.entry_lt k _ b r inside)
  have tracked := @Tracked.register e h e.nextSstId (e.nextSstId + 1) (e.nextBlockId + 1)
    (e.nextBlockId, out.blocks) unknown
    (fun id entry registered => (h.path_lt id entry registered).ne)
    (Nat.lt_succ_self _) (Nat.le_succ _) (Nat.lt_succ_self _) (Nat.le_succ _)
  have registry : ∀ id : Nat,
      (e.registerFile e.nextSstId (e.nextBlockId, out.blocks)).sstRegistry[id]? =
        if e.nextSstId = id then some ⟨e.nextBlockId⟩ else e.sstRegistry[id]? := by
    simp [registerFile, ExtTreeMap.getElem?_insert]
  have onDisk : (e.registerFile e.nextSstId (e.nextBlockId, out.blocks)).files[e.nextBlockId]? =
      some out.blocks := by
    simp [registerFile]
  have new := mem_entries_relocateAll relocated
  refine ⟨⟨tracked.id_lt, tracked.path_lt, tracked.inj, ?_, ?_⟩,
    ⟨Nat.le_succ _, Nat.le_succ _, ?_, ?_⟩⟩
  · intro k id b r inside
    rcases new _ inside with ⟨t, _, eq⟩ | old
    · cases eq
      exact Nat.lt_succ_self _
    · exact tracked.entry_lt k id b r old
  · intro k id b r inside entry registered
    rcases new _ inside with ⟨t, ht, eq⟩ | old
    · cases eq
      obtain ⟨row, found, key⟩ := placed t ht
      have here : entry = ⟨e.nextBlockId⟩ := by
        refine some.inj (registered.symm.trans ?_)
        exact (registry _).trans (if_pos rfl)
      refine ⟨row, ?_, key⟩
      subst here
      simp only [blocksOf, onDisk]
      exact found
    · exact tracked.points k id b r old entry registered
  · intro id entry registered
    have now := (registry id).symm.trans registered
    split at now
    · rename_i same
      cases now
      exact .inr ⟨.inr same.le, .inr le_rfl⟩
    · exact .inl now
  · intro k id b r inside
    rcases new _ inside with ⟨t, _, eq⟩ | old
    · cases eq
      exact .inr (.inr le_rfl)
    · exact .inl old

theorem Tracked.commitOutputs (placed : ∀ out ∈ outputs, TargetsPlaced out) :
    ∀ {e e' : Engine}, e.Tracked → outputs.foldlM (Engine.commitOutput ids) e = some e' →
      e'.Tracked ∧ Extends [] [] e e' := by
  induction outputs with
  | nil =>
    intro e e' h committed
    cases committed
    exact ⟨h, Extends.refl _ _ e⟩
  | cons out rest ih =>
    intro e e' h committed
    obtain ⟨e1, first, committed⟩ := bind_eq_some_iff.mp committed
    obtain ⟨h1, ext1⟩ := h.commitOutput (placed out mem_cons_self) first
    obtain ⟨h', ext'⟩ := ih (fun o ho => placed o (mem_cons_of_mem _ ho)) h1 committed
    exact ⟨h', ext1.trans ext'⟩

/-- The outputs are registered and the inputs are not any longer. -/
theorem Tracked.commit (h : e.Tracked) (placed : ∀ out ∈ outputs, TargetsPlaced out)
    (committed : ConcurrentCompaction.commit e inputs outputs = some e') :
    e'.Tracked ∧ Extends [] [] e e' ∧ ∀ x ∈ inputs, e'.sstRegistry[x.1]? = none := by
  obtain ⟨e1, written, rfl⟩ := map_eq_some_iff.mp committed
  obtain ⟨h1, ext⟩ := Tracked.commitOutputs placed h written
  have erased : ∀ id : Nat, ((inputs.map Prod.fst).foldl (fun reg id => reg.erase id)
      e1.sstRegistry)[id]? = if id ∈ inputs.map Prod.fst then none else e1.sstRegistry[id]? :=
    fun id => getElem?_foldl_erase _ _ id
  have left : ∀ (id : Nat) (entry : SstEntry), ((inputs.map Prod.fst).foldl
      (fun reg id => reg.erase id) e1.sstRegistry)[id]? = some entry →
        e1.sstRegistry[id]? = some entry := by
    intro id entry registered
    rw [erased] at registered
    split at registered
    · cases registered
    · exact registered
  refine ⟨⟨?_, ?_, ?_, h1.entry_lt, ?_⟩, ⟨ext.sst, ext.block, ?_, ext.entries⟩, ?_⟩
  · exact fun id entry registered => h1.id_lt id entry (left id entry registered)
  · exact fun id entry registered => h1.path_lt id entry (left id entry registered)
  · exact fun id id' entry first second =>
      h1.inj id id' entry (left id entry first) (left id' entry second)
  · exact fun k id b r inside entry registered =>
      h1.points k id b r inside entry (left id entry registered)
  · exact fun id entry registered => ext.registry id entry (left id entry registered)
  · intro x hx
    exact (erased x.1).trans (if_pos (mem_map_of_mem hx))

/-- Files that nothing is registered under are removed. -/
theorem Tracked.unlink (h : e.Tracked) {inputs : List (Nat × SstEntry)}
    (gone : ∀ x ∈ inputs, ∀ (id : Nat) (entry : SstEntry), e.sstRegistry[id]? = some entry →
      entry.path ≠ x.2.path) :
    (ConcurrentCompaction.unlink e inputs).Tracked ∧
      Extends [] [] e (ConcurrentCompaction.unlink e inputs) := by
  have files : ∀ path : Nat, (ConcurrentCompaction.unlink e inputs).files[path]? =
      if path ∈ inputs.map (fun i => i.2.path) then none else e.files[path]? := by
    intro path
    rw [← getElem?_foldl_erase, foldl_map]
    rfl
  refine ⟨⟨h.id_lt, h.path_lt, h.inj, h.entry_lt, ?_⟩, ⟨le_rfl, le_rfl,
    fun _ _ => .inl, fun _ _ _ _ => .inl⟩⟩
  intro k id b r inside entry registered
  have kept : entry.path ∉ inputs.map fun i => i.2.path := by
    intro listed
    obtain ⟨x, hx, same⟩ := mem_map.mp listed
    exact gone x hx id entry registered same.symm
  have blocks : (ConcurrentCompaction.unlink e inputs).blocksOf entry = e.blocksOf entry := by
    simp only [blocksOf, files, if_neg kept]
  rw [blocks]
  exact h.points k id b r inside entry registered

end Compaction

end Engine

end GalaxDb
