import GalaxDb.Sql.Executor
import GalaxDb.Storage.Recorded

/-!
# What a reader shows

A reader shows the contents of a store: a live scan shows the last writes, a transaction
its snapshot under its own buffer. Two readers of the same contents are the same.
-/

namespace GalaxDb.Sql

open Std Row List

/-- The contents under a buffer of writes. -/
def buffered (m : Bytes → Option Bytes) (writes : WriteBuffer) (k : Bytes) : Option Bytes :=
  (writes[k]?).getD (m k)

structure Shows (r : Reader) (m : Bytes → Option Bytes) : Prop where
  rows : ∀ table k v, (k, v) ∈ r.tableRows table ↔
    (tablePrefix table).isPrefixOf k = true ∧ m k = some v
  ordered : ∀ table, (r.tableRows table).Pairwise fun a b => compare a.1 b.1 = .lt
  get : ∀ k, r.get k = m k

theorem nodup_keys_of_ordered {α : Type*} {rows : List (Bytes × α)}
    (ordered : rows.Pairwise fun a b => compare a.1 b.1 = .lt) : (rows.map Prod.fst).Nodup := by
  apply pairwise_map.mpr
  apply ordered.imp
  intro a b lt same
  simp [same] at lt

section Shows

variable {r r' : Reader} {m m' : Bytes → Option Bytes}

/-- The rows of a table are determined by the contents under its prefix. -/
theorem Shows.tableRows_eq (h : Shows r m) (h' : Shows r' m') {table : Bytes}
    (same : ∀ k, (tablePrefix table).isPrefixOf k = true → m k = m' k) :
    r.tableRows table = r'.tableRows table := by
  apply Bytes.eq_of_ordered_of_mem_iff Prod.fst (h.ordered table) (h'.ordered table)
  rintro ⟨k, v⟩
  rw [h.rows, h'.rows]
  exact and_congr_right fun inside => by rw [same k inside]

theorem Shows.unique (h : Shows r m) (h' : Shows r' m) : r = r' := by
  have rows : r.tableRows = r'.tableRows :=
    funext fun table => h.tableRows_eq h' fun _ _ => rfl
  have get : r.get = r'.get := funext fun k => (h.get k).trans (h'.get k).symm
  cases r
  cases r'
  simp only [Reader.mk.injEq]
  exact ⟨rows, get⟩

end Shows

section Overlay

variable {rows : List (Bytes × Bytes)}

/-- The last of the rows of a key counts; with one row a key, the row. -/
theorem getElem?_foldl_insert (determined : KeysDetermine rows) (k v : Bytes) :
    (rows.foldl (fun map r => map.insert r.1 r.2) (∅ : ExtTreeMap Bytes Bytes compare))[k]? =
      some v ↔ (k, v) ∈ rows := by
  induction rows using List.reverseRecOn with
  | nil => simp
  | append_singleton rows r ih =>
    obtain ⟨k', v'⟩ := r
    have before : KeysDetermine rows := fun a ha b hb =>
      determined a (mem_append_left _ ha) b (mem_append_left _ hb)
    rw [foldl_append, foldl_cons, foldl_nil, ExtTreeMap.getElem?_insert]
    by_cases same : k' = k
    · subst same
      have last : (k', v') ∈ rows ++ [(k', v')] := by simp
      simp only [ReflCmp.compare_self, if_true, Option.some.injEq]
      constructor
      · rintro rfl
        exact last
      · intro there
        have := determined _ last _ there rfl
        simpa using this
    · simp [ih before, same, Ne.symm same]

theorem getElem?_foldl_writes {writes : List (Bytes × Option Bytes)}
    (determined : KeysDetermine writes) (m : ExtTreeMap Bytes Bytes compare) (k : Bytes) :
    (∀ w, (k, w) ∈ writes → (writes.foldl Reader.overlayWrite m)[k]? = w) ∧
      ((∀ w, (k, w) ∉ writes) → (writes.foldl Reader.overlayWrite m)[k]? = m[k]?) := by
  induction writes using List.reverseRecOn with
  | nil => simp
  | append_singleton writes last ih =>
    obtain ⟨k', w'⟩ := last
    have before : KeysDetermine writes := fun a ha b hb =>
      determined a (mem_append_left _ ha) b (mem_append_left _ hb)
    obtain ⟨there, absent⟩ := ih before
    by_cases same : k' = k
    · subst same
      constructor
      · intro w hw
        have eq : (k', w) = (k', w') := determined _ hw _ (by simp) rfl
        simp only [Prod.mk.injEq, true_and] at eq
        subst eq
        cases w <;> simp [Reader.overlayWrite]
      · intro none_
        exact absurd (by simp) (none_ w')
    · constructor
      · intro w hw
        have hw : (k, w) ∈ writes := by simpa [Ne.symm same] using hw
        rw [← there w hw]
        cases w' <;> simp [Reader.overlayWrite, ExtTreeMap.getElem?_insert,
          ExtTreeMap.getElem?_erase, same]
      · intro none_
        rw [← absent fun w hw => none_ w (mem_append_left _ hw)]
        cases w' <;> simp [Reader.overlayWrite, ExtTreeMap.getElem?_insert,
          ExtTreeMap.getElem?_erase, same]

variable {k pfx : Bytes}

theorem getElem?_overlaid (determined : KeysDetermine rows) (writes : WriteBuffer)
    (inside : pfx.isPrefixOf k = true) (v : Bytes) :
    (Reader.overlaid pfx rows writes)[k]? = some v ↔
      writes[k]? = some (some v) ∨ writes[k]? = none ∧ (k, v) ∈ rows := by
  have distinct : KeysDetermine (writes.toList.filter fun w => pfx.isPrefixOf w.1) :=
    (keysDetermine_toList writes).filter _
  have mem : ∀ w, (k, w) ∈ (writes.toList.filter fun w => pfx.isPrefixOf w.1) ↔
      writes[k]? = some w := by
    intro w
    rw [mem_filter, ExtTreeMap.mem_toList_iff_getElem?_eq_some]
    simp [inside]
  obtain ⟨there, absent⟩ := getElem?_foldl_writes distinct
    (rows.foldl (fun map r => map.insert r.1 r.2) ∅) k
  rw [Reader.overlaid]
  cases found : writes[k]? with
  | some w =>
    rw [there w ((mem w).mpr found)]
    simp
  | none =>
    rw [absent fun w hw => by simp [(mem w).mp hw] at found, getElem?_foldl_insert determined]
    simp

/-- Nothing outside the prefix is overlaid. -/
theorem prefix_of_overlaid (determined : KeysDetermine rows)
    (under : ∀ r ∈ rows, pfx.isPrefixOf r.1 = true) (writes : WriteBuffer) {v : Bytes}
    (found : (Reader.overlaid pfx rows writes)[k]? = some v) : pfx.isPrefixOf k = true := by
  by_contra outside
  have absent := (getElem?_foldl_writes
    ((keysDetermine_toList writes).filter fun w => pfx.isPrefixOf w.1)
    (rows.foldl (fun map r => map.insert r.1 r.2) ∅) k).2 (by
      intro w hw
      exact outside (by simpa using (mem_filter.mp hw).2))
  rw [Reader.overlaid, absent, getElem?_foldl_insert determined] at found
  exact outside (under _ found)

end Overlay

section Engines

variable {e : Engine} {rows : List (Row Bytes Bytes)}

theorem shows_latest (h : e.Recorded rows) (order : IterOrder) :
    Shows (Reader.latest e order) (WriteLog.contents (WriteLog.ofRows rows)) where
  rows table k v := by
    simp only [Reader.latest, mem_filter, h.mem_scanAllWithPrefix]
    constructor
    · exact fun both => both.1
    · exact fun both => ⟨both, both.1⟩
  ordered table := (e.scanAllWithPrefix_ordered order _).filter _
  get := h.get_eq

/-- The snapshot scan lists these contents. -/
def Scans (e : Engine) (order : IterOrder) (t : Timestamp) (m : Bytes → Option Bytes) : Prop :=
  ∀ k v, (∃ ts, (k, v, ts) ∈ e.scanAllAt order t) ↔ m k = some v

variable {m : Bytes → Option Bytes} {order : IterOrder}

theorem Scans.getAt_eq {t : Timestamp} (scans : Scans e order t m) (k : Bytes) :
    e.getAt order k t = m k := by
  rw [Engine.getAt]
  cases found : (e.scanAllAt order t).find? fun r => r.1 = k with
  | none =>
    rw [find?_eq_none] at found
    cases live : m k with
    | none => rfl
    | some v =>
      obtain ⟨ts, there⟩ := (scans k v).mpr live
      simpa using found _ there
  | some r =>
    obtain ⟨k', v, ts⟩ := r
    have key : k' = k := by simpa using find?_some found
    subst key
    exact ((scans k' v).mp ⟨ts, mem_of_find?_eq_some found⟩).symm

theorem Scans.shows {txn : TxnHandle} (scans : Scans e order txn.readTs m) :
    Shows (Reader.snapshot e order txn) (buffered m txn.writes) where
  rows table k v := by
    have under : ∀ k v, (k, v) ∈ (e.scanAllAtWithPrefix order (tablePrefix table) txn.readTs).map
        (fun r => (r.1, r.2.1)) ↔ (tablePrefix table).isPrefixOf k = true ∧ m k = some v := by
      intro k v
      rw [← scans k v, Engine.scanAllAtWithPrefix, mem_map]
      constructor
      · rintro ⟨⟨k, v, ts⟩, there, eq⟩
        cases eq
        rw [mem_filter] at there
        exact ⟨there.2, ts, there.1⟩
      · rintro ⟨inside, ts, there⟩
        exact ⟨(k, v, ts), mem_filter.mpr ⟨there, inside⟩, rfl⟩
    have determined : KeysDetermine ((e.scanAllAtWithPrefix order (tablePrefix table)
        txn.readTs).map fun r => (r.1, r.2.1)) := by
      rintro ⟨k, v⟩ hv ⟨k', v'⟩ hv' same
      obtain rfl : k = k' := same
      rw [under] at hv hv'
      rw [Option.some.inj (hv.2.symm.trans hv'.2)]
    simp only [Reader.snapshot, ExtTreeMap.mem_toList_iff_getElem?_eq_some, buffered]
    constructor
    · intro found
      have inside := prefix_of_overlaid determined
        (fun r hr => ((under r.1 r.2).mp hr).1) txn.writes found
      refine ⟨inside, ?_⟩
      rcases (getElem?_overlaid determined txn.writes inside v).mp found with own | ⟨none_, there⟩
      · simp [own]
      · simp [none_, ((under k v).mp there).2]
    · rintro ⟨inside, found⟩
      rw [getElem?_overlaid determined txn.writes inside]
      cases own : txn.writes[k]? with
      | some w =>
        simp only [own, Option.getD_some] at found
        exact Or.inl (by rw [found])
      | none =>
        simp only [own, Option.getD_none] at found
        exact Or.inr ⟨rfl, (under k v).mpr ⟨inside, found⟩⟩
  ordered table := ExtTreeMap.ordered_keys_toList
  get k := by
    simp only [Reader.snapshot, buffered]
    cases txn.writes[k]? with
    | some w => rfl
    | none => exact scans.getAt_eq k

theorem scans_recorded (h : e.Recorded rows) (order : IterOrder) (t : Timestamp) :
    Scans e order t (Engine.contentsAt rows t) := fun _ _ => h.mem_scanAllAt order t

theorem getAt_eq (h : e.Recorded rows) (order : IterOrder) (k : Bytes) (t : Timestamp) :
    e.getAt order k t = Engine.contentsAt rows t k := (scans_recorded h order t).getAt_eq k

theorem shows_snapshot (h : e.Recorded rows) (order : IterOrder) (txn : TxnHandle) :
    Shows (Reader.snapshot e order txn) (buffered (Engine.contentsAt rows txn.readTs) txn.writes) :=
  (scans_recorded h order txn.readTs).shows

end Engines

end GalaxDb.Sql
