import GalaxDb.Storage.ArtMap
import GalaxDb.Storage.CompactionLayout

/-!
# Registered files

Readers reach a file through its registry id, so the registry with the directory behind
it is one map from ids to file contents. Registering adds to that map as long as the
file is new, and dropping the inputs of a compaction removes exactly their ids.
-/

namespace GalaxDb

open Std Row Compaction List Option

namespace Engine

/-- The contents of the file registered under an id. -/
def fileOf (e : Engine) (id : Nat) : Option SstFile :=
  (e.sstRegistry[id]?).bind fun entry => e.files[entry.path]?

def rowAt (e : Engine) (id b r : Nat) : Option SstRow :=
  (e.fileOf id).bind fun f => f.rowAt b r

/-- Ids and paths come from the counters, every registered file is there, and the
directory holds no other file. -/
structure SstInv (e : Engine) : Prop where
  id_lt : ∀ (id : Nat) (entry : SstEntry), e.sstRegistry[id]? = some entry → id < e.nextSstId
  path_lt : ∀ (id : Nat) (entry : SstEntry), e.sstRegistry[id]? = some entry →
    entry.path < e.nextBlockId
  present : ∀ (id : Nat) (entry : SstEntry), e.sstRegistry[id]? = some entry →
    ∃ f, e.files[entry.path]? = some f
  inj : ∀ (id id' : Nat) (entry : SstEntry), e.sstRegistry[id]? = some entry →
    e.sstRegistry[id']? = some entry → id = id'
  registered : ∀ (path : Nat) (f : SstFile), e.files[path]? = some f →
    ∃ id : Nat, e.sstRegistry[id]? = some ⟨path⟩

variable {a b c e : Engine}

theorem fileOf_eq_some {id : Nat} {f : SstFile} : e.fileOf id = some f ↔
      ∃ entry : SstEntry, e.sstRegistry[id]? = some entry ∧ e.files[entry.path]? = some f :=
  bind_eq_some_iff

theorem mem_sstRows_iff {r : SstRow} :
    r ∈ e.sstRows ↔ ∃ id f, e.fileOf id = some f ∧ r ∈ SstFile.rows f := by
  rw [mem_sstRows]
  constructor
  · rintro ⟨id, entry, he, b, hb, hr⟩
    cases hf : e.files[entry.path]? with
    | none =>
      rw [blocksOf, hf] at hb
      cases hb
    | some f =>
      rw [blocksOf, hf] at hb
      exact ⟨id, f, fileOf_eq_some.mpr ⟨entry, he, hf⟩, mem_flatMap.mpr ⟨b, hb, hr⟩⟩
  · rintro ⟨id, f, hf, hr⟩
    obtain ⟨entry, he, hf⟩ := fileOf_eq_some.mp hf
    obtain ⟨b, hb, hr⟩ := mem_flatMap.mp hr
    exact ⟨id, entry, he, b, by rw [blocksOf, hf]; exact hb, hr⟩

theorem readable_of (distinct : Distinct e.storedRows)
    (zoned : ∀ id f, e.fileOf id = some f → ∀ b ∈ f, Zoned b) : e.Readable := by
  refine ⟨distinct, ?_⟩
  intro id entry he b hb
  cases hf : e.files[entry.path]? with
  | none =>
    rw [blocksOf, hf] at hb
    cases hb
  | some f =>
    rw [blocksOf, hf] at hb
    exact zoned id f (fileOf_eq_some.mpr ⟨entry, he, hf⟩) b hb

theorem readValue_eq (e : Engine) (id b r : Nat) :
    e.readValue id b r = (e.rowAt id b r).map SstRow.value := by
  rw [readValue, rowAt, fileOf]
  cases e.sstRegistry[id]? with
  | none => rfl
  | some entry =>
    cases hf : e.files[entry.path]? with
    | none => simp [blocksOf, hf, SstFile.rowAt]
    | some f => simp [blocksOf, hf]

/-- One file registered under the next id. -/
def registerNext (e : Engine) (file : Nat × SstFile) : Engine :=
  { e.registerFile e.nextSstId file with nextSstId := e.nextSstId + 1 }

/-- A file under a path that no registered file uses. -/
theorem registerNext_spec (inv : e.SstInv) {file : Nat × SstFile} (fresh : e.files[file.1]? = none)
    (below : file.1 < e.nextBlockId) :
    (e.registerNext file).SstInv ∧ ∀ id, (e.registerNext file).fileOf id =
        if e.nextSstId = id then some file.2 else e.fileOf id := by
  have unused : ∀ (id : Nat) (entry : SstEntry), e.sstRegistry[id]? = some entry →
      file.1 ≠ entry.path := by
    intro id entry he hp
    obtain ⟨f, hf⟩ := inv.present id entry he
    rw [← hp, fresh] at hf
    cases hf
  have free : e.sstRegistry[e.nextSstId]? = none := by
    refine eq_none_iff_forall_ne_some.mpr fun entry he => ?_
    exact Nat.lt_irrefl _ (inv.id_lt _ _ he)
  have registry : ∀ id : Nat, (e.registerNext file).sstRegistry[id]? =
      if e.nextSstId = id then some ⟨file.1⟩ else e.sstRegistry[id]? := by
    intro id
    simp [registerNext, registerFile, ExtTreeMap.getElem?_insert]
  have files : ∀ path : Nat, (e.registerNext file).files[path]? =
      if file.1 = path then some file.2 else e.files[path]? := by
    intro path
    simp [registerNext, registerFile, ExtTreeMap.getElem?_insert]
  constructor
  · refine ⟨?_, ?_, ?_, ?_, ?_⟩
    · intro id entry he
      rw [registry] at he
      split at he
      · simp [registerNext, *]
      · exact Nat.lt_succ_of_lt (inv.id_lt id entry he)
    · intro id entry he
      rw [registry] at he
      split at he
      · cases he
        exact below
      · exact inv.path_lt id entry he
    · intro id entry he
      rw [registry] at he
      split at he
      · cases he
        exact ⟨file.2, by rw [files, if_pos rfl]⟩
      · obtain ⟨f, hf⟩ := inv.present id entry he
        exact ⟨f, by rw [files, if_neg (unused id entry he)]; exact hf⟩
    · intro id id' entry he he'
      rw [registry] at he he'
      split at he <;> split at he'
      · omega
      · cases he
        exact absurd rfl (unused id' _ he')
      · cases he'
        exact absurd rfl (unused id _ he)
      · exact inv.inj id id' entry he he'
    · intro path f hf
      rw [files] at hf
      split at hf
      · rename_i same
        exact ⟨e.nextSstId, by rw [registry, if_pos rfl, same]⟩
      · obtain ⟨id, hid⟩ := inv.registered path f hf
        refine ⟨id, ?_⟩
        rw [registry, if_neg ?_]
        · exact hid
        · rintro rfl
          rw [free] at hid
          cases hid
  · intro id
    rw [fileOf, registry]
    by_cases here : e.nextSstId = id
    · rw [if_pos here, if_pos here, bind_some, files, if_pos rfl]
    · rw [if_neg here, if_neg here, fileOf]
      cases he : e.sstRegistry[id]? with
      | none => rfl
      | some entry =>
        rw [bind_some, bind_some, files, if_neg (unused id entry he)]

theorem size_registerNext (inv : e.SstInv) (file : Nat × SstFile) :
    (e.registerNext file).sstRegistry.size = e.sstRegistry.size + 1 := by
  have free : e.nextSstId ∉ e.sstRegistry := by
    intro h
    have found : e.sstRegistry[e.nextSstId]? = some (e.sstRegistry.get e.nextSstId h) :=
      ExtTreeMap.getElem?_eq_some_getElem h
    exact Nat.lt_irrefl _ (inv.id_lt _ _ found)
  simp [registerNext, registerFile, ExtTreeMap.size_insert, free]

/-- What flush and compaction leave alone. -/
structure SameSettings (e e' : Engine) : Prop where
  config : e'.config = e.config
  wal : e'.wal = e.wal
  nextTimestamp : e'.nextTimestamp = e.nextTimestamp
  pinSource : e'.pinSource = e.pinSource
  bgWorkerActive : e'.bgWorkerActive = e.bgWorkerActive
  columnar : e'.columnar = e.columnar

/-- What registering files leaves alone. -/
structure SameBut (e e' : Engine) : Prop extends SameSettings e e' where
  memtableMgr : e'.memtableMgr = e.memtableMgr

theorem SameSettings.trans (h : SameSettings a b) (h' : SameSettings b c) : SameSettings a c :=
  ⟨h'.config.trans h.config, h'.wal.trans h.wal, h'.nextTimestamp.trans h.nextTimestamp,
    h'.pinSource.trans h.pinSource, h'.bgWorkerActive.trans h.bgWorkerActive,
    h'.columnar.trans h.columnar⟩

theorem SameBut.refl (e : Engine) : SameBut e e := ⟨⟨rfl, rfl, rfl, rfl, rfl, rfl⟩, rfl⟩

theorem SameBut.trans (h : SameBut a b) (h' : SameBut b c) : SameBut a c :=
  ⟨h.toSameSettings.trans h'.toSameSettings, h'.memtableMgr.trans h.memtableMgr⟩

/-- Files registered one after the other get consecutive ids. -/
theorem foldl_registerNext_spec (inv : e.SstInv) (files : List (Nat × SstFile))
    (fresh : ∀ f ∈ files, e.files[f.1]? = none ∧ f.1 < e.nextBlockId)
    (nodup : (files.map Prod.fst).Nodup) :
    let e' := files.foldl registerNext e
    e'.SstInv ∧ e'.sstRegistry.size = e.sstRegistry.size + files.length ∧
      e'.nextBlockId = e.nextBlockId ∧ e'.art = e.art ∧ SameBut e e' ∧
      ∀ id, e'.fileOf id = if id < e.nextSstId then e.fileOf id
        else (files[id - e.nextSstId]?).map Prod.snd := by
  induction files generalizing e with
  | nil =>
    refine ⟨inv, rfl, rfl, rfl, SameBut.refl e, ?_⟩
    intro id
    by_cases old : id < e.nextSstId
    · simp [old]
    · simp only [foldl_nil, old, if_false, getElem?_nil, map_none]
      rw [fileOf]
      cases he : e.sstRegistry[id]? with
      | none => rfl
      | some entry => exact absurd (inv.id_lt id entry he) old
  | cons f rest ih =>
    obtain ⟨hnew, nodup⟩ := nodup_cons.mp nodup
    obtain ⟨inv', step⟩ := registerNext_spec inv (fresh f mem_cons_self).1
      (fresh f mem_cons_self).2
    have fresh' : ∀ g ∈ rest, (e.registerNext f).files[g.1]? = none ∧
        g.1 < (e.registerNext f).nextBlockId := by
      intro g hg
      have differ : f.1 ≠ g.1 := fun h => hnew (h ▸ mem_map_of_mem hg)
      have old := fresh g (mem_cons_of_mem _ hg)
      refine ⟨?_, old.2⟩
      simpa [registerNext, registerFile, ExtTreeMap.getElem?_insert, differ] using old.1
    obtain ⟨inv'', size, block, art, same, all⟩ := ih inv' fresh' nodup
    have next' : (e.registerNext f).nextSstId = e.nextSstId + 1 := rfl
    have first : SameBut e (e.registerNext f) := ⟨⟨rfl, rfl, rfl, rfl, rfl, rfl⟩, rfl⟩
    refine ⟨inv'', ?_, block, art, first.trans same, ?_⟩
    · rw [foldl_cons, size, size_registerNext inv f, length_cons]
      omega
    · intro id
      rw [foldl_cons, all, next', step]
      by_cases old : id < e.nextSstId
      · rw [if_pos (by omega), if_neg (by omega), if_pos old]
      · rw [if_neg old]
        by_cases here : e.nextSstId = id
        · rw [if_pos (by omega), if_pos here, ← here, Nat.sub_self]
          rfl
        · obtain ⟨n, hn⟩ : ∃ n, id - e.nextSstId = n + 1 := ⟨id - e.nextSstId - 1, by omega⟩
          have hn' : id - (e.nextSstId + 1) = n := by omega
          rw [if_neg (by omega), hn, hn', getElem?_cons_succ]

theorem getElem?_foldl_erase {β : Type*} (m : ExtTreeMap Nat β compare) (ids : List Nat)
    (id : Nat) :
    (ids.foldl (fun m i => m.erase i) m)[id]? = if id ∈ ids then none else m[id]? := by
  induction ids generalizing m with
  | nil => simp
  | cons i rest ih =>
    rw [foldl_cons, ih]
    by_cases later : id ∈ rest
    · simp [later]
    · by_cases here : i = id
      · simp [later, here]
      · simp [later, here, Ne.symm here, ExtTreeMap.getElem?_erase]

/-- The registry and the directory without some registered files. -/
def dropFiles (e : Engine) (inputs : List (Nat × SstEntry)) : Engine :=
  { e with
    sstRegistry := (inputs.map Prod.fst).foldl (fun reg id => reg.erase id) e.sstRegistry
    files := inputs.foldl (fun files entry => files.erase entry.2.path) e.files }

/-- The dropped files are gone, and the others stay. -/
theorem dropFiles_spec (inv : e.SstInv) {inputs : List (Nat × SstEntry)}
    (inside : ∀ i ∈ inputs, e.sstRegistry[i.1]? = some i.2) :
    (e.dropFiles inputs).SstInv ∧ ∀ id, (e.dropFiles inputs).fileOf id =
        if id ∈ inputs.map Prod.fst then none else e.fileOf id := by
  have registry : ∀ id : Nat, (e.dropFiles inputs).sstRegistry[id]? =
      if id ∈ inputs.map Prod.fst then none else e.sstRegistry[id]? :=
    fun id => getElem?_foldl_erase _ _ id
  have files : ∀ path : Nat, (e.dropFiles inputs).files[path]? =
      if path ∈ inputs.map (fun i => i.2.path) then none else e.files[path]? := by
    intro path
    rw [← getElem?_foldl_erase, foldl_map]
    rfl
  have apart : ∀ (id : Nat) (entry : SstEntry), e.sstRegistry[id]? = some entry →
      id ∉ inputs.map Prod.fst → entry.path ∉ inputs.map (fun i => i.2.path) := by
    intro id entry he hid hp
    obtain ⟨i, hi, hpath⟩ := mem_map.mp hp
    have same : i.2 = entry := by
      cases i with
      | mk n en => cases en; cases entry; simpa using hpath
    have := inv.inj i.1 id entry (same ▸ inside i hi) he
    exact hid (this ▸ mem_map_of_mem hi)
  have stays : ∀ (id : Nat) (entry : SstEntry), (e.dropFiles inputs).sstRegistry[id]? = some entry →
      e.sstRegistry[id]? = some entry ∧ id ∉ inputs.map Prod.fst := by
    intro id entry he
    rw [registry] at he
    split at he
    · cases he
    · exact ⟨he, by assumption⟩
  constructor
  · refine ⟨?_, ?_, ?_, ?_, ?_⟩
    · exact fun id entry he => inv.id_lt id entry (stays id entry he).1
    · exact fun id entry he => inv.path_lt id entry (stays id entry he).1
    · intro id entry he
      obtain ⟨he, hid⟩ := stays id entry he
      obtain ⟨f, hf⟩ := inv.present id entry he
      exact ⟨f, by rw [files, if_neg (apart id entry he hid)]; exact hf⟩
    · exact fun id id' entry he he' =>
        inv.inj id id' entry (stays id entry he).1 (stays id' entry he').1
    · intro path f hf
      rw [files] at hf
      split at hf
      · cases hf
      · rename_i outside
        obtain ⟨id, hid⟩ := inv.registered path f hf
        refine ⟨id, ?_⟩
        rw [registry, if_neg ?_]
        · exact hid
        · intro h
          obtain ⟨i, hi, rfl⟩ := mem_map.mp h
          rw [inside i hi] at hid
          have entry : i.2 = ⟨path⟩ := some.inj hid
          exact outside (mem_map.mpr ⟨i, hi, congrArg SstEntry.path entry⟩)
  · intro id
    rw [fileOf, registry]
    split
    · rfl
    · rename_i hid
      rw [fileOf]
      cases he : e.sstRegistry[id]? with
      | none => rfl
      | some entry =>
        rw [bind_some, bind_some, files, if_neg (apart id entry he hid)]

end Engine

end GalaxDb
