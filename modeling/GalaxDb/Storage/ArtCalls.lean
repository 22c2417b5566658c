import GalaxDb.Lib.Run
import GalaxDb.Storage.Maintenance
import Mathlib.Data.Set.Card

/-!
# The primary-key index under any sequence of calls

What each call answers, beside the tree it leaves. The tree is compared with the log of
the writes it has taken, along the calls that insert no key which the tree confuses with
one it holds.
-/

namespace GalaxDb

open ArtNode WriteLog Option

universe u

variable {V : Type u}

theorem ArtNode.lookupChild_of_not_mem {key : Bytes} {byte : UInt8} :
    ∀ {c : Children V} {d : Nat}, byte ∉ c.bytes → lookupChild key byte c d = none
  | .nil, _, _ => rfl
  | .cons b child rest, d, absent => by
    simp only [Children.bytes, List.mem_cons, not_or] at absent
    simp only [lookupChild, Ne.symm absent.1, if_false]
    exact lookupChild_of_not_mem absent.2

mutual

variable {key : Bytes} {value : V}

/-- An insert replaces a value exactly if a lookup finds one. -/
theorem ArtNode.replaced_eq : ∀ {n n' : ArtNode V} {d : Nat} {replaced : Bool},
      n.insertRecursive key value d = some (n', replaced) →
        replaced = (n.lookupRecursive key d).isSome
  | .leaf oldKey oldValue, n', d, replaced, h => by
    by_cases same : oldKey = key
    · simp only [insertRecursive, same, if_true, some.injEq, Prod.mk.injEq] at h
      simp [lookupRecursive, same, ← h.2]
    · simp only [insertRecursive, same, if_false] at h
      split at h
      · cases h
      · simp only [some.injEq, Prod.mk.injEq] at h
        simp [lookupRecursive, same, ← h.2]
  | .inner pfx nodeType children, n', d, replaced, h => by
    by_cases miss : commonPrefixLen pfx (key.drop d) < pfx.length
    · simp only [insertRecursive, miss, if_true, some.injEq, Prod.mk.injEq] at h
      simp [lookupRecursive, miss, ← h.2]
    · simp only [insertRecursive, miss, if_false] at h
      simp only [lookupRecursive, miss, if_false]
      by_cases here : byteAt key (d + pfx.length) ∈ children.bytes
      · rw [if_pos here] at h
        obtain ⟨r, eq, h⟩ := map_eq_some_iff.mp h
        obtain ⟨_, rfl⟩ := Prod.mk.inj h
        exact replacedChild_eq here eq
      · rw [if_neg here] at h
        obtain ⟨_, rfl⟩ := Prod.mk.inj (some.inj h)
        rw [lookupChild_of_not_mem here]
        rfl

theorem ArtNode.replacedChild_eq {byte : UInt8} :
    ∀ {c : Children V} {d : Nat} {r : Children V × Bool}, byte ∈ c.bytes →
      insertChild key value byte c d = some r → r.2 = (lookupChild key byte c d).isSome
  | .nil, _, _, here, _ => by simp [Children.bytes] at here
  | .cons b child rest, d, r, here, h => by
    by_cases same : b = byte
    · simp only [insertChild, same, if_true] at h
      obtain ⟨⟨n', replaced⟩, eq, rfl⟩ := map_eq_some_iff.mp h
      simp only [lookupChild, same, if_true]
      exact replaced_eq eq
    · simp only [insertChild, same, if_false] at h
      obtain ⟨r', eq, rfl⟩ := map_eq_some_iff.mp h
      have later : byte ∈ rest.bytes := by
        simpa [Children.bytes, Ne.symm same] using here
      simp only [lookupChild, same, if_false]
      exact replacedChild_eq later eq

end

mutual

/-- A delete returns what a lookup finds. -/
theorem ArtNode.deleteRecursive_value (key : Bytes) :
    ∀ (n : ArtNode V) (d : Nat), (n.deleteRecursive key d).2 = n.lookupRecursive key d
  | .leaf leafKey value, d => by
    by_cases same : leafKey = key <;> simp [deleteRecursive, lookupRecursive, same]
  | .inner pfx nodeType children, d => by
    by_cases miss : commonPrefixLen pfx (key.drop d) < pfx.length
    · simp [deleteRecursive, lookupRecursive, miss]
    · have below := deleteChild_value key (byteAt key (d + pfx.length)) children
        (d + pfx.length + 1)
      simp only [deleteRecursive, lookupRecursive, miss, if_false]
      split <;> exact below

theorem ArtNode.deleteChild_value (key : Bytes) (byte : UInt8) : ∀ (c : Children V) (d : Nat),
      (deleteChild key byte c d).2.2 = lookupChild key byte c d
  | .nil, _ => rfl
  | .cons b child rest, d => by
    by_cases same : b = byte
    · simp only [deleteChild, lookupChild, same, if_true]
      rw [← deleteRecursive_value key child d]
      split
      · rename_i eq
        rw [eq]
      · rename_i eq
        rw [eq]
    · simp only [deleteChild, lookupChild, same, if_false]
      exact deleteChild_value key byte rest d

end

namespace ArtIndex

/-- The location `delete` returns beside the tree it leaves. -/
def removed (t : ArtIndex V) (key : Bytes) : Option V :=
  t.root.bind (fun root => (root.deleteRecursive key 0).2)

theorem removed_eq_lookup (t : ArtIndex V) (key : Bytes) : t.removed key = t.lookup key := by
  exact congrArg _ (funext fun root => deleteRecursive_value key root 0)

variable {t : ArtIndex V} {key : Bytes}

theorem insert_len {t' : ArtIndex V} {value : V} (h : t.insert key value = some t') :
    t'.len = if (t.lookup key).isSome then t.len else t.len + 1 := by
  cases hr : t.root with
  | none =>
    simp only [insert, hr, some.injEq] at h
    simp [lookup, hr, ← h]
  | some root =>
    simp only [insert, hr] at h
    obtain ⟨⟨n, replaced⟩, eq, rfl⟩ := map_eq_some_iff.mp h
    simp only [lookup, hr, bind_some, replaced_eq eq]

theorem delete_len (t : ArtIndex V) (key : Bytes) :
    (t.delete key).len = if (t.lookup key).isSome then t.len - 1 else t.len := by
  cases hr : t.root with
  | none => simp [delete, lookup, hr]
  | some root =>
    simp only [delete, lookup, hr, bind_some, deleteRecursive_value]

/-- Everything the index is asked to keep: its paths, and the number of its keys. -/
structure Counts (t : ArtIndex V) : Prop where
  wf : t.WF
  finite : {k | t.lookup k ≠ none}.Finite
  len : t.len = {k | t.lookup k ≠ none}.ncard

theorem counts_new : (ArtIndex.new : ArtIndex V).Counts := by
  have empty : {k | (ArtIndex.new : ArtIndex V).lookup k ≠ none} = ∅ := by
    simp [ArtIndex.new, lookup]
  refine ⟨wf_new, ?_, ?_⟩
  · rw [empty]
    exact Set.finite_empty
  · rw [empty, Set.ncard_empty]
    rfl

theorem Counts.insert (h : t.Counts) (value : V) (clash : ∀ k, t.lookup k ≠ none → ¬ Clash key k) :
    ∃ t', t.insert key value = some t' ∧ t'.Counts ∧
      t'.lookup = write t.lookup (key, some value) := by
  obtain ⟨t', eq, wf, look⟩ := lookup_insert h.wf value clash
  have keys : {k | t'.lookup k ≠ none} = Insert.insert key {k | t.lookup k ≠ none} := by
    ext k
    by_cases same : k = key <;> simp [look, same]
  refine ⟨t', eq, ⟨wf, ?_, ?_⟩, ?_⟩
  · rw [keys]
    exact h.finite.insert key
  · rw [insert_len eq, keys, h.len]
    cases found : t.lookup key with
    | none => rw [Set.ncard_insert_of_notMem (by simp [found]) h.finite]; rfl
    | some v => rw [Set.insert_eq_of_mem (by simp [found])]; rfl
  · funext k
    rw [look]
    by_cases same : k = key
    · rw [if_pos same, same, write_self]
    · rw [if_neg same, write_other _ _ same]

theorem Counts.delete (h : t.Counts) (key : Bytes) :
    (t.delete key).Counts ∧ (t.delete key).lookup = write t.lookup (key, none) := by
  obtain ⟨wf, look⟩ := lookup_delete h.wf key
  have keys : {k | (t.delete key).lookup k ≠ none} = {k | t.lookup k ≠ none} \ {key} := by
    ext k
    by_cases same : k = key <;> simp [look, same]
  refine ⟨⟨wf, ?_, ?_⟩, ?_⟩
  · rw [keys]
    exact h.finite.subset Set.sdiff_subset
  · rw [delete_len, keys, h.len]
    cases found : t.lookup key with
    | none => rw [Set.sdiff_singleton_eq_self (by simp [found])]; rfl
    | some v => rw [Set.ncard_sdiff_singleton_of_mem (by simp [found])]; rfl
  · funext k
    rw [look]
    by_cases same : k = key
    · rw [if_pos same, same, write_self]
    · rw [if_neg same, write_other _ _ same]

end ArtIndex

section Calls

inductive ArtCall where
  | insert (key : Bytes) (location : RowLocation)
  | delete (key : Bytes)
  | relocateIfPointsTo (key : Bytes) (expectedSstIds : List Nat) (newLocation : RowLocation)
  | lookup (key : Bytes)
  | len
  deriving DecidableEq

inductive ArtAnswer where
  | inserted
  | location (found : Option RowLocation)
  | relocated (applied : Bool)
  | len (n : Nat)
  deriving DecidableEq

/-- Whether a relocation out of these files applies to what is stored. -/
def pointsInto (sstIds : List Nat) : Option RowLocation → Bool
  | some (.sst sstId _ _) => decide (sstId ∈ sstIds)
  | _ => false

namespace ArtIndex

def call (t : ArtIndex RowLocation) : ArtCall → Option (ArtIndex RowLocation × ArtAnswer)
  | .insert key location => (t.insert key location).map (fun t' => (t', .inserted))
  | .delete key => some (t.delete key, .location (t.removed key))
  | .relocateIfPointsTo key ids location =>
    (Engine.relocateIfPointsTo t key ids location).map
      (fun t' => (t', .relocated (pointsInto ids (t.lookup key))))
  | .lookup key => some (t, .location (t.lookup key))
  | .len => some (t, .len t.len)

/-- A sequence of calls; no result is a panic in one of them. -/
def calls (t : ArtIndex RowLocation) : List ArtCall → Option (ArtIndex RowLocation × List ArtAnswer)
  | [] => some (t, [])
  | c :: rest =>
    (t.call c).bind (fun r => (calls r.1 rest).map (fun later => (later.1, r.2 :: later.2)))

end ArtIndex

namespace ArtCall

/-- A map of locations, as the log of the writes it has taken. -/
abbrev Log := List (Bytes × Option RowLocation)

def writes (m : Bytes → Option RowLocation) : ArtCall → Log
  | .insert key location => [(key, some location)]
  | .delete key => [(key, none)]
  | .relocateIfPointsTo key ids location =>
    if pointsInto ids (m key) then [(key, some location)] else []
  | .lookup _ | .len => []

/-- What a map answers. -/
noncomputable def answer (m : Bytes → Option RowLocation) : ArtCall → ArtAnswer
  | .insert _ _ => .inserted
  | .delete key | .lookup key => .location (m key)
  | .relocateIfPointsTo key ids _ => .relocated (pointsInto ids (m key))
  | .len => .len {k | m k ≠ none}.ncard

def record (log : Log) (c : ArtCall) : Log := log ++ c.writes (contents log)

noncomputable def answers (log : Log) : List ArtCall → List ArtAnswer
  | [] => []
  | c :: rest => c.answer (contents log) :: answers (record log c) rest

/-- The index answers the calls as the map does that holds for each key the location of its
last insert, unless a delete of the key came after it. -/
def AnswersAsMap (calls : List ArtCall) : Prop :=
  ∃ t, ArtIndex.new.calls calls = some (t, answers [] calls)

/-- The call inserts no key that the tree confuses with another one in the map. -/
def Unconfused (log : Log) : ArtCall → Prop
  | .insert key _ => ∀ k ∈ log.map Prod.fst, contents log k ≠ none → ¬ Clash key k
  | _ => True

instance (log : Log) : (c : ArtCall) → Decidable (Unconfused log c)
  | .insert key _ => inferInstanceAs
    (Decidable (∀ k ∈ log.map Prod.fst, contents log k ≠ none → ¬ Clash key k))
  | .delete _ | .relocateIfPointsTo .. | .lookup _ | .len => isTrue trivial

end ArtCall

open ArtCall

variable {t : ArtIndex RowLocation} {log : Log}

theorem mem_keys_of_contents {k : Bytes} (present : contents log k ≠ none) :
    k ∈ log.map Prod.fst := by
  apply lastWrite_ne_none_iff.mp
  intro unwritten
  rw [contents_eq, unwritten] at present
  exact present rfl

/-- The index after a call, next to the map. -/
theorem ArtIndex.Counts.call (h : t.Counts) (same : t.lookup = contents log) (c : ArtCall)
    (clear : Unconfused log c) :
    ∃ t', t.call c = some (t', c.answer (contents log)) ∧ t'.Counts ∧
      t'.lookup = contents (record log c) := by
  cases c with
  | insert key location =>
    have clash : ∀ k, t.lookup k ≠ none → ¬ Clash key k := by
      rw [same]
      exact fun k present => clear k (mem_keys_of_contents present) present
    obtain ⟨t', eq, counts, look⟩ := h.insert location clash
    refine ⟨t', ?_, counts, ?_⟩
    · simp [ArtIndex.call, eq, answer]
    · rw [look, same, record, writes, contents_snoc]
  | delete key =>
    obtain ⟨counts, look⟩ := h.delete key
    refine ⟨t.delete key, ?_, counts, ?_⟩
    · simp [ArtIndex.call, answer, removed_eq_lookup, same]
    · rw [look, same, record, writes, contents_snoc]
  | relocateIfPointsTo key ids location =>
    cases points : pointsInto ids (t.lookup key) with
    | true =>
      obtain ⟨id, b, r, found, inside⟩ : ∃ id b r, t.lookup key = some (.sst id b r) ∧
        id ∈ ids := by
        unfold pointsInto at points
        split at points
        · rename_i id b r found
          exact ⟨id, b, r, found, by simpa using points⟩
        · cases points
      have clash : ∀ k, t.lookup k ≠ none → ¬ Clash key k :=
        fun k present => h.wf.not_clash (by simp [found]) present
      obtain ⟨t', eq, counts, look⟩ := h.insert location clash
      refine ⟨t', ?_, counts, ?_⟩
      · simp [ArtIndex.call, Engine.relocateIfPointsTo, found, inside, eq, answer, ← same,
          pointsInto]
      · rw [look, same, record, writes, ← same, if_pos points, same, contents_snoc]
    | false =>
      have stays : Engine.relocateIfPointsTo t key ids location = some t := by
        unfold Engine.relocateIfPointsTo
        split
        · rename_i id b r found
          rw [found] at points
          rw [if_neg (by simpa [pointsInto] using points)]
        · rfl
      refine ⟨t, ?_, h, ?_⟩
      · simp [ArtIndex.call, stays, answer, ← same]
      · rw [record, writes, ← same, if_neg (by simp [points]), List.append_nil, same]
  | lookup key =>
    exact ⟨t, by simp [ArtIndex.call, answer, same], h, by simp [record, writes, same]⟩
  | len =>
    refine ⟨t, ?_, h, by simp [record, writes, same]⟩
    simp only [ArtIndex.call, answer, h.len, same]

theorem ArtIndex.Counts.calls {calls : List ArtCall} (h : t.Counts) (same : t.lookup = contents log)
    (clear : Run.Along (fun log c => some (record log c)) Unconfused log calls) :
    ∃ t', t.calls calls = some (t', answers log calls) := by
  induction calls generalizing t log with
  | nil => exact ⟨t, rfl⟩
  | cons c rest ih =>
    obtain ⟨here, later⟩ := clear
    obtain ⟨t1, eq, counts, same1⟩ := h.call same c here
    obtain ⟨t', eq'⟩ := ih counts same1 (later _ rfl)
    exact ⟨t', by simp only [ArtIndex.calls, eq, bind_some, eq', map_some, answers]⟩

end Calls

end GalaxDb
