import GalaxDb.Storage.SstLocations

/-!
# Flushes and compactions that number their files

A flush owns the first id it has drawn and the paths it has written until it registers its
files. Its further ids are the ones behind the first if nobody has drawn one in between.
-/

namespace GalaxDb

open Compaction Flush Engine List Option

theorem Engine.Extends.mono {e e' : Engine} (h : Extends [] [] e e') (own paths : List Nat) :
    Extends own paths e e' := by
  refine ⟨h.sst, h.block, ?_, ?_⟩
  · intro id entry registered
    exact (h.registry id entry registered).imp_right fun both =>
      ⟨both.1.imp_left not_mem_nil.elim, both.2.imp_left not_mem_nil.elim⟩
  · intro k id b r inside
    exact (h.entries k id b r inside).imp_right (Or.imp_left not_mem_nil.elim)

namespace ConcurrentCompaction

/-- The id that a flush has drawn and not registered. -/
def claim : Concurrent.Pc → List Nat
  | .snapshot _ _ sstId => [sstId]
  | .written _ _ sstId _ => [sstId]
  | _ => []

/-- The paths of files that are written and not registered. -/
def paths : Concurrent.Pc → List Nat
  | .written _ _ _ result => result.files.map Prod.fst
  | _ => []

def Pc.inputs : Pc → List (Nat × SstEntry)
  | .merging inputs => inputs
  | .built inputs _ => inputs
  | .committed inputs => inputs
  | _ => []

/-- What a call of a writer has to itself. -/
structure Claims (e : Engine) (pc : Concurrent.Pc) : Prop where
  unused : ∀ id ∈ claim pc, e.Unused id
  nodup : (paths pc).Nodup
  free : ∀ path ∈ paths pc, e.PathFree path
  placed : ∀ table entries sstId result, pc = .written table entries sstId result →
    Placed entries result

/-- An input of a compaction, which may be unregistered already. -/
structure Input (e : Engine) (x : Nat × SstEntry) : Prop where
  id_lt : x.1 < e.nextSstId
  path_lt : x.2.path < e.nextBlockId
  only : ∀ (id : Nat) (entry : SstEntry), e.sstRegistry[id]? = some entry →
    entry.path = x.2.path → id = x.1

structure Inv (s : State) : Prop where
  tracked : s.engine.Tracked
  claims : ∀ pc ∈ s.writers.calls, Claims s.engine pc
  apart : ∀ (i j : Nat) (pc pc' : Concurrent.Pc), s.writers.calls[i]? = some pc →
    s.writers.calls[j]? = some pc' → i ≠ j →
      (∀ id ∈ claim pc, id ∉ claim pc') ∧ ∀ path ∈ paths pc, path ∉ paths pc'
  inputs : ∀ pc ∈ s.compactions, ∀ x ∈ pc.inputs, Input s.engine x ∧
    ∀ call ∈ s.writers.calls, x.1 ∉ claim call ∧ x.2.path ∉ paths call
  gone : ∀ inputs, .committed inputs ∈ s.compactions → ∀ x ∈ inputs,
    s.engine.sstRegistry[x.1]? = none
  outputs : ∀ inputs outputs, .built inputs outputs ∈ s.compactions → ∀ out ∈ outputs,
    TargetsPlaced out

section Frame

variable {e e' : Engine} {own ps : List Nat}

variable {pc : Concurrent.Pc}

theorem Claims.extends (h : Claims e pc) (ext : Extends own ps e e')
    (ids : ∀ id ∈ claim pc, id ∉ own) (free : ∀ path ∈ paths pc, path ∉ ps) : Claims e' pc :=
  ⟨fun id hid => (h.unused id hid).extends ext (ids id hid), h.nodup,
    fun path hpath => (h.free path hpath).extends ext (free path hpath), h.placed⟩

theorem Input.extends {x : Nat × SstEntry} (h : Input e x) (ext : Extends own ps e e')
    (other : x.2.path ∉ ps) : Input e' x := by
  refine ⟨h.id_lt.trans_le ext.sst, h.path_lt.trans_le ext.block, ?_⟩
  intro id entry registered same
  rcases ext.registry id entry registered with old | ⟨_, new⟩
  · exact h.only id entry old same
  · rw [same] at new
    exact absurd (new.resolve_left other) h.path_lt.not_ge

/-- An id that is out of the registry and not the caller's stays out. -/
theorem gone_extends {id : Nat} (gone : e.sstRegistry[id]? = none) (drawn : id < e.nextSstId)
    (ext : Extends own ps e e') (other : id ∉ own) : e'.sstRegistry[id]? = none := by
  refine eq_none_iff_forall_ne_some.mpr fun entry registered => ?_
  rcases ext.registry id entry registered with old | ⟨new, _⟩
  · rw [gone] at old
    cases old
  · exact drawn.not_ge (new.resolve_left other)

variable {s : State}

/-- A step of a writer: it may use up what it had to itself, and keep or draw new. -/
theorem Inv.moveCall (h : Inv s) {i : Nat} {pc' : Concurrent.Pc} {w : Concurrent.State}
    (here : s.writers.calls[i]? = some pc) (calls : w.calls = s.writers.calls.set i pc')
    (tracked : w.engine.Tracked) (ext : Extends (claim pc) (paths pc) s.engine w.engine)
    (new : Claims w.engine pc') (ids : ∀ id ∈ claim pc', id ∈ claim pc ∨ s.engine.nextSstId ≤ id)
    (free : ∀ path ∈ paths pc', path ∈ paths pc ∨ s.engine.nextBlockId ≤ path) :
    Inv { s with writers := w } := by
  have inside := mem_of_getElem? here
  have lookup : ∀ (j : Nat) (pc1 : Concurrent.Pc), w.calls[j]? = some pc1 →
      j = i ∧ pc1 = pc' ∨ j ≠ i ∧ s.writers.calls[j]? = some pc1 := by
    intro j pc1 found
    rw [calls, getElem?_set] at found
    split at found
    · rename_i same
      split at found
      · exact .inl ⟨same.symm, (some.inj found).symm⟩
      · cases found
    · rename_i other
      exact .inr ⟨Ne.symm other, found⟩
  have others : ∀ (j : Nat) (pc1 : Concurrent.Pc), j ≠ i → s.writers.calls[j]? = some pc1 →
      (∀ id ∈ claim pc1, id ∉ claim pc') ∧ ∀ path ∈ paths pc1, path ∉ paths pc' := by
    intro j pc1 other there
    obtain ⟨apart, apart'⟩ := h.apart j i pc1 pc there here other
    have claims := h.claims pc1 (mem_of_getElem? there)
    constructor
    · intro id hid mine
      rcases ids id mine with old | drawn
      · exact apart id hid old
      · exact (claims.unused id hid).drawn.not_ge drawn
    · intro path hpath mine
      rcases free path mine with old | drawn
      · exact apart' path hpath old
      · exact (claims.free path hpath).drawn.not_ge drawn
  refine ⟨tracked, ?_, ?_, ?_, ?_, h.outputs⟩
  · intro pc1 hpc
    obtain ⟨j, found⟩ := getElem?_of_mem hpc
    rcases lookup j pc1 found with ⟨_, rfl⟩ | ⟨other, there⟩
    · exact new
    · obtain ⟨apart, apart'⟩ := h.apart j i pc1 pc there here other
      exact (h.claims pc1 (mem_of_getElem? there)).extends ext apart apart'
  · intro j k pc1 pc2 first second ne
    rcases lookup j pc1 first with ⟨rfl, rfl⟩ | ⟨other, there⟩
    · rcases lookup k pc2 second with ⟨rfl, _⟩ | ⟨other', there'⟩
      · exact absurd rfl ne
      · obtain ⟨apart, apart'⟩ := others k pc2 other' there'
        exact ⟨fun id mine theirs => apart id theirs mine,
          fun path mine theirs => apart' path theirs mine⟩
    · rcases lookup k pc2 second with ⟨rfl, rfl⟩ | ⟨_, there'⟩
      · exact others j pc1 other there
      · exact h.apart j k pc1 pc2 there there' ne
  · intro pc1 hpc x hx
    obtain ⟨input, unclaimed⟩ := h.inputs pc1 hpc x hx
    refine ⟨input.extends ext (unclaimed pc inside).2, ?_⟩
    intro call hcall
    obtain ⟨j, found⟩ := getElem?_of_mem hcall
    rcases lookup j call found with ⟨_, rfl⟩ | ⟨_, there⟩
    · constructor
      · intro mine
        rcases ids x.1 mine with old | drawn
        · exact (unclaimed pc inside).1 old
        · exact input.id_lt.not_ge drawn
      · intro mine
        rcases free x.2.path mine with old | drawn
        · exact (unclaimed pc inside).2 old
        · exact input.path_lt.not_ge drawn
    · exact unclaimed call (mem_of_getElem? there)
  · intro inputs hpc x hx
    obtain ⟨input, unclaimed⟩ := h.inputs _ hpc x hx
    exact gone_extends (h.gone inputs hpc x hx) input.id_lt ext (unclaimed pc inside).1

/-- A call that has nothing to itself starts. -/
theorem Inv.addCall (h : Inv s) (ids : claim pc = []) (free : paths pc = []) :
    Inv { s with writers := { s.writers with calls := s.writers.calls ++ [pc] } } := by
  have claims : Claims s.engine pc := by
    refine ⟨?_, ?_, ?_, ?_⟩
    · rw [ids]
      nofun
    · rw [free]
      exact nodup_nil
    · rw [free]
      nofun
    · rintro table entries sstId result rfl
      cases ids
  have lookup : ∀ (j : Nat) (pc1 : Concurrent.Pc), (s.writers.calls ++ [pc])[j]? = some pc1 →
      s.writers.calls[j]? = some pc1 ∨ pc1 = pc := by
    intro j pc1 found
    rw [getElem?_append] at found
    split at found
    · exact .inl found
    · exact .inr (mem_singleton.mp (mem_of_getElem? found))
  refine ⟨h.tracked, ?_, ?_, ?_, h.gone, h.outputs⟩
  · intro pc1 hpc
    rcases mem_append.mp hpc with old | new
    · exact h.claims pc1 old
    · exact mem_singleton.mp new ▸ claims
  · intro j k pc1 pc2 first second ne
    rcases lookup j pc1 first with old | rfl
    · rcases lookup k pc2 second with old' | rfl
      · exact h.apart j k pc1 pc2 old old' ne
      · rw [ids, free]
        exact ⟨fun _ _ => not_mem_nil, fun _ _ => not_mem_nil⟩
    · rw [ids, free]
      exact ⟨nofun, nofun⟩
  · intro pc1 hpc x hx
    obtain ⟨input, unclaimed⟩ := h.inputs pc1 hpc x hx
    refine ⟨input, fun call hcall => ?_⟩
    rcases mem_append.mp hcall with old | new
    · exact unclaimed call old
    · rw [mem_singleton.mp new, ids, free]
      exact ⟨not_mem_nil, not_mem_nil⟩

/-- A step of a compaction, which has the inputs it had or registered ones. -/
theorem Inv.moveCompaction (h : Inv s) {i : Nat} {pc pc' : Pc} {e : Engine}
    (here : s.compactions[i]? = some pc) (tracked : e.Tracked) (ext : Extends [] [] s.engine e)
    (inputs : ∀ x ∈ pc'.inputs, x ∈ pc.inputs ∨ s.engine.sstRegistry[x.1]? = some x.2)
    (gone : ∀ ins, pc' = .committed ins → ∀ x ∈ ins, e.sstRegistry[x.1]? = none)
    (outputs : ∀ ins outs, pc' = .built ins outs → ∀ out ∈ outs, TargetsPlaced out) :
    Inv ((s.setEngine e).moveTo i pc') := by
  have nothing : ∀ x : Nat, x ∉ ([] : List Nat) := fun _ => not_mem_nil
  have moved : ∀ p ∈ s.compactions.set i pc', p ∈ s.compactions ∨ p = pc' :=
    fun p hp => mem_or_eq_of_mem_set hp
  have registered : ∀ x : Nat × SstEntry, s.engine.sstRegistry[x.1]? = some x.2 →
      Input s.engine x ∧ ∀ call ∈ s.writers.calls, x.1 ∉ claim call ∧ x.2.path ∉ paths call := by
    intro x hx
    refine ⟨⟨h.tracked.id_lt x.1 x.2 hx, h.tracked.path_lt x.1 x.2 hx, ?_⟩, ?_⟩
    · rintro id ⟨path⟩ found same
      have eq : x.2 = ⟨path⟩ := congrArg SstEntry.mk same.symm
      exact h.tracked.inj id x.1 ⟨path⟩ found (eq ▸ hx)
    · intro call hcall
      have claims := h.claims call hcall
      constructor
      · intro mine
        have free := (claims.unused x.1 mine).free
        rw [hx] at free
        cases free
      · exact fun mine => (claims.free x.2.path mine).free x.1 x.2 hx rfl
  refine ⟨tracked, ?_, h.apart, ?_, ?_, ?_⟩
  · exact fun call hcall => (h.claims call hcall).extends ext (fun _ _ => nothing _)
      fun _ _ => nothing _
  · intro p hp x hx
    have known : Input s.engine x ∧
        ∀ call ∈ s.writers.calls, x.1 ∉ claim call ∧ x.2.path ∉ paths call := by
      rcases moved p hp with old | rfl
      · exact h.inputs p old x hx
      · rcases inputs x hx with old | new
        · exact h.inputs pc (mem_of_getElem? here) x old
        · exact registered x new
    exact ⟨known.1.extends ext (nothing _), known.2⟩
  · intro ins hins x hx
    rcases moved _ hins with old | rfl
    · have input := (h.inputs _ old x hx).1
      exact gone_extends (h.gone ins old x hx) input.id_lt ext (nothing _)
    · exact gone ins rfl x hx
  · intro ins outs hpc out hout
    rcases moved _ hpc with old | rfl
    · exact h.outputs ins outs old out hout
    · exact outputs ins outs rfl out hout

end Frame

section Steps

variable {env : Platform} {order : IterOrder} {s s' : State}

/-- A flush writes what it has seen at its start: no key has come in between that sorts before
another of its keys. It registers several files only if the ids behind its own are free. -/
def InOrder (s : State) : Act → Prop
  | .writer (.advance i) =>
    match s.writers.calls[i]? with
    | some (.snapshot table entries _) =>
      entries.map Prod.fst <+: (s.writers.tables table).iterAll.map Prod.fst
    | some (.written _ _ sstId result) =>
      result.files.length ≤ 1 ∨ s.engine.nextSstId = sstId + 1
    | _ => True
  | _ => True

/-- The keys of the snapshot meet the rows of the same keys, one after the other. -/
theorem placed_of_keys {blockLen : PaxBlock → Nat} {config : FlushConfig}
    {registrations : List ColumnarRegistration} {ts : Timestamp} {nextBlockId : Nat}
    {m : Memtable} {entries : List Entry}
    (keys : entries.map Prod.fst <+: m.iterAll.map Prod.fst) :
    Placed entries (flushMemtableInner blockLen config registrations ts nextBlockId m) := by
  have all : List.Forall₂ (Flush.Placed
      (flushMemtableInner blockLen config registrations ts nextBlockId m).files 0)
      (splitIntoBlocks config registrations m.iterAll).flatten
      ((flushMemtableInner blockLen config registrations ts nextBlockId m).blockMap.flatMap
        places) := placed_packLoop _ _ _ _ _
  rw [flatten_splitIntoBlocks] at all
  obtain ⟨more, eq⟩ := keys
  intro t ht
  obtain ⟨n, found⟩ := getElem?_of_mem ht
  obtain ⟨key, place⟩ := getElem?_zip_eq_some.mp found
  have longer : (entries.map Prod.fst ++ more)[n]? = some t.1 := by
    rw [getElem?_append_left (List.getElem?_eq_some_iff.mp key).1]
    exact key
  rw [eq] at longer
  have inside := mem_of_getElem? (getElem?_zip_eq_some.mpr ⟨longer, place⟩)
  rw [zip_map_left] at inside
  obtain ⟨⟨entry, place'⟩, both, rfl⟩ := mem_map.mp inside
  have placed := (forall₂_zip all both).2
  exact ⟨entryToRow entry, placed, rfl⟩

variable {i : Nat} {pc : Pc}

/-- A step of a writer. -/
theorem Inv.advanceCall (h : Inv s) {pc : Concurrent.Pc} {w : Concurrent.State}
    (here : s.writers.calls[i]? = some pc) (ordered : InOrder s (.writer (.advance i)))
    (eq : s.writers.advance env i pc = some w) : Inv { s with writers := w } := by
  have quiet : ∀ (w : Concurrent.State) (pc' : Concurrent.Pc),
      w.calls = s.writers.calls.set i pc' → claim pc' = [] → paths pc' = [] →
        w.engine.Tracked ∧ Extends [] [] s.engine w.engine → Inv { s with writers := w } := by
    intro w pc' calls ids free ⟨tracked, ext⟩
    refine h.moveCall here calls tracked (ext.mono _ _) ⟨?_, ?_, ?_, ?_⟩ ?_ ?_
    · rw [ids]
      nofun
    · rw [free]
      exact nodup_nil
    · rw [free]
      nofun
    · rintro table entries sstId result rfl
      cases ids
    · rw [ids]
      nofun
    · rw [free]
      nofun
  have same : ∀ e : Engine, e.sstRegistry = s.engine.sstRegistry → e.files = s.engine.files →
      e.nextSstId = s.engine.nextSstId → e.nextBlockId = s.engine.nextBlockId →
        (∀ k id b r, (k, .sst id b r) ∈ e.art.entries →
          (k, .sst id b r) ∈ s.engine.art.entries) →
        e.Tracked ∧ Extends [] [] s.engine e :=
    fun e registry files sst block sub => h.tracked.of_sub registry files sst.symm.le
      block.symm.le sub
  cases pc with
  | deleting key =>
    cases eq
    refine quiet _ _ rfl ?_ ?_ (same _ rfl rfl rfl rfl fun _ _ _ _ => id) <;> split <;> rfl
  | inserted row =>
    obtain ⟨w1, updated, rfl⟩ := map_eq_some_iff.mp eq
    unfold Concurrent.State.updateArt at updated
    split at updated
    · obtain ⟨art, inserted, rfl⟩ := map_eq_some_iff.mp updated
      refine quiet _ .done rfl rfl rfl (same _ rfl rfl rfl rfl fun k id b r inside => ?_)
      refine (ArtIndex.mem_entries_insert inserted inside).resolve_left fun new => ?_
      cases new
    · cases updated
      exact quiet _ .done rfl rfl rfl (same _ rfl rfl rfl rfl fun _ _ _ _ inside =>
        ArtIndex.mem_entries_delete inside)
  | flushing =>
    simp only [Concurrent.State.advance] at eq
    split at eq
    · cases eq
      exact quiet _ .done rfl rfl rfl (same _ rfl rfl rfl rfl fun _ _ _ _ => id)
    · cases eq
      obtain ⟨tracked, ext⟩ := @Tracked.of_sub s.engine
        { s.engine with nextSstId := s.engine.nextSstId + 1 } h.tracked rfl rfl (Nat.le_succ _)
        le_rfl fun _ _ _ _ => id
      refine h.moveCall here rfl tracked (ext.mono _ _) ⟨?_, nodup_nil, nofun, nofun⟩ ?_ nofun
      · intro id hid
        obtain rfl := mem_singleton.mp hid
        refine ⟨Nat.lt_succ_self _, ?_, ?_⟩
        · refine eq_none_iff_forall_ne_some.mpr fun entry registered => ?_
          exact lt_irrefl _ (h.tracked.id_lt _ entry registered)
        · exact fun k b r inside => lt_irrefl _ (h.tracked.entry_lt k _ b r inside)
      · intro id hid
        exact .inr (mem_singleton.mp hid).symm.le
  | snapshot table entries sstId =>
    cases eq
    have keys : entries.map Prod.fst <+: (s.writers.tables table).iterAll.map Prod.fst := by
      simpa only [InOrder, here] using ordered
    have claims := h.claims _ (mem_of_getElem? here)
    obtain ⟨up, range, nodup⟩ : s.engine.nextBlockId ≤ (flushMemtableInner env.blockLen
        s.engine.flushConfig s.engine.columnar sstId s.engine.nextBlockId
          (s.writers.tables table)).nextBlockId ∧ _ := ids_packLoop _ _ _ _ _
    obtain ⟨tracked, ext⟩ := @Tracked.of_sub s.engine
      { s.engine with nextBlockId := (flushMemtableInner env.blockLen s.engine.flushConfig
          s.engine.columnar sstId s.engine.nextBlockId (s.writers.tables table)).nextBlockId }
      h.tracked rfl rfl le_rfl up fun _ _ _ _ => id
    refine h.moveCall here rfl tracked (ext.mono _ _) ⟨?_, nodup, ?_, ?_⟩ (fun _ => .inl) ?_
    · exact fun id hid => (claims.unused id hid).extends ext not_mem_nil
    · intro path hpath
      obtain ⟨f, hf, rfl⟩ := mem_map.mp hpath
      refine ⟨(range f hf).2, fun id entry registered => ?_⟩
      exact (Nat.lt_of_lt_of_le (h.tracked.path_lt id entry registered) (range f hf).1).ne
    · intro table' entries' sstId' result' eq
      cases eq
      exact placed_of_keys keys
    · intro path hpath
      obtain ⟨f, hf, rfl⟩ := mem_map.mp hpath
      exact .inr (range f hf).1
  | written table entries sstId result =>
    obtain ⟨w1, registered, rfl⟩ := map_eq_some_iff.mp eq
    obtain ⟨art, inserted, rfl⟩ := map_eq_some_iff.mp registered
    have inOrder : result.files.length ≤ 1 ∨ s.engine.nextSstId = sstId + 1 := by
      simpa only [InOrder, here] using ordered
    have claims := h.claims _ (mem_of_getElem? here)
    have unused := claims.unused sstId (mem_singleton_self _)
    obtain ⟨tracked, ext⟩ := h.tracked.registerSst unused claims.nodup
      (fun f hf => claims.free f.1 (mem_map_of_mem hf)) (claims.placed _ _ _ _ rfl) inOrder
      inserted
    exact h.moveCall here rfl tracked ext ⟨nofun, nodup_nil, nofun, nofun⟩ nofun nofun
  | registered table =>
    cases eq
    obtain ⟨calls, registry, files, sst, block, art⟩ :
        s.writers.sealActive.calls = s.writers.calls ∧
          s.writers.sealActive.engine.sstRegistry = s.engine.sstRegistry ∧
          s.writers.sealActive.engine.files = s.engine.files ∧
          s.writers.sealActive.engine.nextSstId = s.engine.nextSstId ∧
          s.writers.sealActive.engine.nextBlockId = s.engine.nextBlockId ∧
          s.writers.sealActive.engine.art = s.engine.art := by
      unfold Concurrent.State.sealActive
      dsimp only
      split <;> exact ⟨rfl, rfl, rfl, rfl, rfl, rfl⟩
    refine quiet _ (.swapped table) ?_ rfl rfl (same _ registry files sst block ?_)
    · exact congrArg (fun l => l.set i (.swapped table)) calls
    · intro k id b r inside
      have now : (k, .sst id b r) ∈ s.writers.sealActive.engine.art.entries := inside
      rwa [art] at now
  | putting key value | found key | drawn row | logged row | holding row table | swapped table =>
    cases eq
    exact quiet _ _ rfl rfl rfl (same _ rfl rfl rfl rfl fun _ _ _ _ => id)
  | done =>
    cases eq
    exact h

theorem Inv.addCompaction (h : Inv s) (none : pc.inputs = [])
    (other : ∀ ins outs, pc ≠ .built ins outs) :
    Inv { s with compactions := s.compactions ++ [pc] } := by
  have added : ∀ p ∈ s.compactions ++ [pc], p ∈ s.compactions ∨ p = pc :=
    fun p hp => (mem_append.mp hp).imp_right mem_singleton.mp
  refine ⟨h.tracked, h.claims, h.apart, ?_, ?_, ?_⟩
  · intro p hp x hx
    rcases added p hp with old | rfl
    · exact h.inputs p old x hx
    · rw [none] at hx
      cases hx
  · intro ins hins x hx
    rcases added _ hins with old | rfl
    · exact h.gone ins old x hx
    · rw [Pc.inputs] at none
      rw [none] at hx
      cases hx
  · intro ins outs hpc
    rcases added _ hpc with old | new
    · exact h.outputs ins outs old
    · exact absurd new.symm (other ins outs)

/-- A step of a compaction. -/
theorem Inv.advanceCompaction (h : Inv s) (here : s.compactions[i]? = some pc)
    (eq : s.advance env order i pc = some s') : Inv s' := by
  have idle : ∀ pc', pc'.inputs = [] → (∀ ins outs, pc' ≠ .built ins outs) →
      Inv (s.moveTo i pc') := by
    intro pc' none other
    refine @Inv.moveCompaction s h i pc pc' s.engine here h.tracked (Extends.refl _ _ _) ?_ ?_ ?_
    · rw [none]
      nofun
    · rintro ins rfl x hx
      rw [Pc.inputs] at none
      rw [none] at hx
      cases hx
    · exact fun ins outs eq => absurd eq (other ins outs)
  cases pc with
  | checking =>
    cases eq
    split
    · exact idle .done rfl nofun
    · exact idle .trying rfl nofun
  | trying =>
    cases eq
    split
    · exact idle .done rfl nofun
    · exact idle (.locked false) rfl nofun
  | waiting force =>
    simp only [State.advance] at eq
    split at eq
    · cases eq
    · cases eq
      exact idle (.locked force) rfl nofun
  | locked force =>
    simp only [State.advance] at eq
    by_cases few : (order.order s.engine.sstRegistry.toList).length < (if force then 1 else 2)
    · rw [if_pos few] at eq
      cases eq
      exact idle .done rfl nofun
    · rw [if_neg few] at eq
      cases eq
      refine @Inv.moveCompaction s h i _ (.merging _) s.engine here h.tracked (Extends.refl _ _ _)
        ?_ nofun nofun
      intro x hx
      have listed := (order.perm s.engine.sstRegistry.toList).mem_iff.mp hx
      exact .inr (Std.ExtTreeMap.mem_toList_iff_getElem?_eq_some.mp listed)
  | merging inputs =>
    cases eq
    refine @Inv.moveCompaction s h i _ _ s.engine here h.tracked (Extends.refl _ _ _)
      (fun _ => .inl) nofun ?_
    intro ins outs eq out hout
    cases eq
    exact targetsPlaced_outputsOf hout
  | built inputs outputs =>
    obtain ⟨e, committed, rfl⟩ := map_eq_some_iff.mp eq
    obtain ⟨tracked, ext, gone⟩ := h.tracked.commit
      (h.outputs inputs outputs (mem_of_getElem? here)) committed
    refine h.moveCompaction here tracked ext (fun _ => .inl) ?_ nofun
    intro ins eq
    cases eq
    exact gone
  | committed inputs =>
    cases eq
    have inside := mem_of_getElem? here
    obtain ⟨tracked, ext⟩ := @Tracked.unlink s.engine h.tracked inputs (by
      intro x hx id entry registered same
      have known := (h.inputs _ inside x hx).1.only id entry registered same
      have gone := h.gone inputs inside x hx
      rw [← known, registered] at gone
      cases gone)
    exact h.moveCompaction here tracked ext nofun nofun nofun
  | done =>
    cases eq
    exact h

theorem Inv.step (h : Inv s) {a : Act} (ordered : InOrder s a)
    (eq : s.step env order a = some s') : Inv s' := by
  cases a with
  | writer a =>
    obtain ⟨w, stepped, rfl⟩ := map_eq_some_iff.mp eq
    cases a with
    | call c =>
      cases stepped
      cases c <;> exact h.addCall rfl rfl
    | advance i =>
      cases here : s.writers.calls[i]? with
      | none =>
        simp only [Concurrent.State.step, here] at stepped
        cases stepped
        exact h
      | some pc =>
        simp only [Concurrent.State.step, here] at stepped
        exact h.advanceCall here ordered stepped
  | maybeCompact | compact force =>
    cases eq
    exact h.addCompaction rfl nofun
  | advance i =>
    cases here : s.compactions[i]? with
    | none =>
      simp only [State.step, here] at eq
      cases eq
      exact h
    | some pc =>
      simp only [State.step, here] at eq
      exact h.advanceCompaction here eq

end Steps

section Run

variable {env : Platform} {order : IterOrder}

theorem inv_init (env : Platform) (config : EngineConfig) : Inv (State.init env config) := by
  have empty : ∀ id : Nat, (State.init env config).engine.sstRegistry[id]? = none := by
    simp [State.init, State.engine, Concurrent.State.init, Engine.fresh]
  have nothing : (State.init env config).engine.art.entries = [] := rfl
  have idle : (State.init env config).writers.calls = [] := rfl
  have quiet : (State.init env config).compactions = [] := rfl
  refine ⟨⟨?_, ?_, ?_, ?_, ?_⟩, ?_, ?_, ?_, ?_, ?_⟩ <;>
    simp [PointsAtOwnRows, empty, nothing, idle, quiet]

/-- In a run of writers, flushes and compactions whose flushes are in order, the index sends
no key to a row of another one. -/
theorem points_at_own_rows_of_run {config : EngineConfig} {acts : List Act} {s : State}
    (ordered : Run.Along (State.step env order) InOrder (State.init env config) acts)
    (run : Run.run (State.step env order) (State.init env config) acts = some s) :
    s.engine.PointsAtOwnRows :=
  (Run.invariant_of_run (fun _ _ _ h here eq => Inv.step h here eq) (inv_init env config) ordered
    run).tracked.points

instance (s : State) (a : Act) : Decidable (InOrder s a) := by
  unfold InOrder
  repeat' split
  all_goals infer_instance

/-- Every row becomes a file of its own. -/
def smallFiles : EngineConfig := { EngineConfig.default with sstSizeBytes := 1, maxRowsPerSst := 1 }

def advances (i n : Nat) : List Act := List.replicate n (.writer (.advance i))

def putAll (i : Nat) (keys : List Bytes) : List Act :=
  keys.zipIdx.flatMap fun key =>
    .writer (.call (.put key.1 [49])) :: advances (i + key.2) 5

/-- Two files, a compaction that has read them, and a flush of two more rows that has drawn
its first id and written its files. -/
def halfway : List Act :=
  putAll 0 [[97], [98]] ++ .writer (.call .flush) :: advances 2 5 ++
    [.compact false, .advance 0, .advance 0, .advance 0] ++ putAll 3 [[99], [100]] ++
    .writer (.call .flush) :: advances 5 2

/-- The flush registers its files before the compaction commits. -/
def flushFirst : List Act := halfway ++ advances 5 1 ++ [.advance 0, .advance 0] ++ advances 5 2

theorem points_at_own_rows_flush_first :
    ∃ s, Run.run (State.step .plain .byId) (State.init .plain smallFiles) flushFirst = some s ∧
      s.engine.PointsAtOwnRows := by
  obtain ⟨s, run⟩ := isSome_iff_exists.mp (show (Run.run (State.step .plain .byId)
    (State.init .plain smallFiles) flushFirst).isSome = true by decide +kernel)
  exact ⟨s, run, @points_at_own_rows_of_run .plain .byId smallFiles flushFirst s
    (by decide +kernel) run⟩

/-- The compaction draws the ids that the flush counts on. -/
def compactionFirst : List Act := halfway ++ [.advance 0] ++ advances 5 1

/-- The key of a flush points into the file of a compaction that took the same number. -/
theorem flushed_key_points_at_compacted_row :
    ∃ s, Run.run (State.step .plain .byId) (State.init .plain smallFiles) compactionFirst = some s ∧
      s.engine.art.lookup [100] = some (.sst 4 0 0) ∧ ¬ s.engine.PointsAtOwnRows := by
  have found : ((Run.run (State.step .plain .byId) (State.init .plain smallFiles)
      compactionFirst).map fun s => (s.engine.art.lookup [100], s.engine.sstRegistry[4]?.map
        fun entry => ((s.engine.blocksOf entry).rowAt 0 0).map SstRow.key)) =
      some (some (.sst 4 0 0), some (some [97])) := by decide +kernel
  obtain ⟨s, run, eq⟩ := map_eq_some_iff.mp found
  obtain ⟨lookup, row⟩ := Prod.mk.inj eq
  refine ⟨s, run, lookup, ?_⟩
  intro points
  obtain ⟨entry, registered, key⟩ := map_eq_some_iff.mp row
  obtain ⟨row, here, own⟩ :=
    points [100] 4 0 0 (ArtIndex.mem_entries_of_lookup lookup) entry registered
  rw [here, map_some, own] at key
  cases key

end Run

end ConcurrentCompaction

end GalaxDb
