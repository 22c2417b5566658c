import GalaxDb.Storage.ArtMap

/-!
# What the index can hold

Whatever shape the tree is in, an insert adds one entry at most and a delete adds none, and
a lookup finds entries of the tree only.
-/

namespace GalaxDb

open ArtNode List Option

universe u

variable {V : Type u}

section Nodes

variable {e : Bytes × V} {n : ArtNode V}

theorem Children.mem_entries_keepLast : ∀ {c : Children V}, e ∈ c.keepLast.entries → e ∈ c.entries
  | .nil, he => he
  | .cons b child rest, he => by
    simp only [Children.keepLast] at he
    simp only [Children.entries, mem_append]
    split at he
    · exact .inr (Children.mem_entries_keepLast he)
    · simp only [Children.entries, mem_append] at he
      exact he.imp_right Children.mem_entries_keepLast

variable {c : Children V} {nodeType : NodeType} {pfx : Bytes}

theorem ArtNode.mem_entries_addChild {byte : UInt8}
    (he : e ∈ (addChild byte n nodeType c).2.entries) : e ∈ n.entries ∨ e ∈ c.entries := by
  simp only [addChild, Children.mem_entries_insertSorted] at he
  refine he.imp_right fun inside => ?_
  split at inside
  · cases nodeType with
    | node16 => exact Children.mem_entries_keepLast inside
    | _ => exact inside
  · exact inside

theorem ArtNode.mem_entries_newNode4 {oldByte newByte : UInt8} {o : ArtNode V}
    (he : e ∈ (newNode4 pfx oldByte o newByte n).entries) : e ∈ n.entries ∨ e ∈ o.entries := by
  refine (mem_entries_addChild he).imp_right fun old => ?_
  exact (mem_entries_addChild old).resolve_right not_mem_nil

mutual

variable {key : Bytes} {value : V}

theorem ArtNode.mem_entries_insertRecursive : ∀ {n n' : ArtNode V} {d : Nat} {replaced : Bool},
      n.insertRecursive key value d = some (n', replaced) →
        e ∈ n'.entries → e = (key, value) ∨ e ∈ n.entries
  | .leaf oldKey oldValue, n', d, replaced, h, he => by
    simp only [insertRecursive] at h
    split at h
    · rename_i same
      obtain ⟨rfl, _⟩ := Prod.mk.inj (some.inj h)
      rw [entries, same] at he
      exact .inl (mem_singleton.mp he)
    split at h
    · cases h
    · obtain ⟨rfl, _⟩ := Prod.mk.inj (some.inj h)
      exact (mem_entries_newNode4 he).imp_left mem_singleton.mp
  | .inner pfx nodeType children, n', d, replaced, h, he => by
    simp only [insertRecursive] at h
    split at h
    · obtain ⟨rfl, _⟩ := Prod.mk.inj (some.inj h)
      exact (mem_entries_newNode4 he).imp_left mem_singleton.mp
    split at h
    · obtain ⟨r, eq, h⟩ := map_eq_some_iff.mp h
      obtain ⟨rfl, _⟩ := Prod.mk.inj h
      exact mem_entries_insertChild eq he
    · obtain ⟨rfl, _⟩ := Prod.mk.inj (some.inj h)
      exact (mem_entries_addChild he).imp_left mem_singleton.mp

theorem ArtNode.mem_entries_insertChild {byte : UInt8} :
    ∀ {c c' : Children V} {d : Nat} {replaced : Bool},
      insertChild key value byte c d = some (c', replaced) →
        e ∈ c'.entries → e = (key, value) ∨ e ∈ c.entries
  | .nil, c', d, replaced, h, he => by
    obtain ⟨rfl, _⟩ := Prod.mk.inj (some.inj h)
    exact .inr he
  | .cons b child rest, c', d, replaced, h, he => by
    simp only [Children.entries, mem_append]
    simp only [insertChild] at h
    split at h
    · obtain ⟨r, eq, h⟩ := map_eq_some_iff.mp h
      obtain ⟨rfl, _⟩ := Prod.mk.inj h
      rcases mem_append.mp he with inside | later
      · exact (mem_entries_insertRecursive eq inside).imp_right .inl
      · exact .inr (.inr later)
    · obtain ⟨r, eq, h⟩ := map_eq_some_iff.mp h
      obtain ⟨rfl, _⟩ := Prod.mk.inj h
      rcases mem_append.mp he with first | inside
      · exact .inr (.inl first)
      · exact (mem_entries_insertChild eq inside).imp_right .inr

end

theorem ArtNode.mem_entries_collapse (h : collapse pfx nodeType c = some n) (he : e ∈ n.entries) :
    e ∈ c.entries := by
  unfold collapse at h
  generalize (if nodeType.shouldShrink c then nodeType.shrink else nodeType) = shrunk at h
  by_cases one : shrunk.numChildren c = 1
  · rw [if_pos one] at h
    match c with
    | .cons byte (.inner childPfx childType grandchildren) rest =>
      cases h
      exact mem_append_left _ he
    | .cons byte (.leaf key value) rest =>
      cases h
      exact mem_append_left _ he
    | .nil => cases h
  · rw [if_neg one] at h
    split at h
    · cases h
    · cases h
      exact he

mutual

variable {key : Bytes}

theorem ArtNode.mem_entries_deleteRecursive : ∀ {n n' : ArtNode V} {d : Nat} {value : Option V},
      n.deleteRecursive key d = (some n', value) → e ∈ n'.entries → e ∈ n.entries
  | .leaf leafKey leafValue, n', d, value, h, he => by
    simp only [deleteRecursive] at h
    split at h
    · cases h
    · cases h
      exact he
  | .inner pfx nodeType children, n', d, value, h, he => by
    simp only [deleteRecursive] at h
    rw [entries]
    split at h
    · cases h
      exact he
    have inside : ∀ c' gone value', deleteChild key (byteAt key (d + pfx.length)) children
        (d + pfx.length + 1) = (c', gone, value') → e ∈ c'.entries → e ∈ children.entries :=
      fun _ _ _ eq => mem_entries_deleteChild eq
    split at h
    · exact inside _ _ _ rfl (mem_entries_collapse (Prod.mk.inj h).1 he)
    · cases h
      exact inside _ _ _ rfl he

theorem ArtNode.mem_entries_deleteChild {byte : UInt8} :
    ∀ {c c' : Children V} {d : Nat} {gone : Bool} {value : Option V},
      deleteChild key byte c d = (c', gone, value) → e ∈ c'.entries → e ∈ c.entries
  | .nil, c', d, gone, value, h, he => by
    cases h
    exact he
  | .cons b child rest, c', d, gone, value, h, he => by
    simp only [Children.entries, mem_append]
    simp only [deleteChild] at h
    split at h
    · split at h
      · cases h
        exact .inr he
      · rename_i eq
        cases h
        rcases mem_append.mp he with inside | later
        · exact .inl (mem_entries_deleteRecursive eq inside)
        · exact .inr later
    · obtain ⟨rfl, _⟩ := Prod.mk.inj h
      rcases mem_append.mp he with first | inside
      · exact .inl first
      · exact .inr (mem_entries_deleteChild rfl inside)

end

mutual

variable {key : Bytes} {v : V}

theorem ArtNode.mem_entries_of_lookupRecursive :
    ∀ {n : ArtNode V} {d : Nat}, n.lookupRecursive key d = some v → (key, v) ∈ n.entries
  | .leaf leafKey value, d, h => by
    simp only [lookupRecursive] at h
    split at h
    · rename_i same
      rw [entries, ← same, some.inj h]
      exact mem_singleton_self _
    · cases h
  | .inner pfx nodeType children, d, h => by
    simp only [lookupRecursive] at h
    split at h
    · cases h
    · exact mem_entries_of_lookupChild h

theorem ArtNode.mem_entries_of_lookupChild {byte : UInt8} :
    ∀ {c : Children V} {d : Nat}, lookupChild key byte c d = some v → (key, v) ∈ c.entries
  | .cons b child rest, d, h => by
    simp only [Children.entries, mem_append]
    simp only [lookupChild] at h
    split at h
    · exact .inl (mem_entries_of_lookupRecursive h)
    · exact .inr (mem_entries_of_lookupChild h)

end

end Nodes

namespace ArtIndex

/-- The leaves of the tree. -/
def entries (t : ArtIndex V) : List (Bytes × V) := optionEntries t.root

variable {t : ArtIndex V} {e : Bytes × V} {key : Bytes}

theorem mem_entries_insert {t' : ArtIndex V} {value : V} (h : t.insert key value = some t')
    (he : e ∈ t'.entries) : e = (key, value) ∨ e ∈ t.entries := by
  unfold insert at h
  split at h
  · cases h
    exact .inl (mem_singleton.mp he)
  · rename_i root eq
    obtain ⟨r, inserted, rfl⟩ := map_eq_some_iff.mp h
    rw [entries, eq]
    exact mem_entries_insertRecursive inserted he

theorem mem_entries_delete (he : e ∈ (t.delete key).entries) : e ∈ t.entries := by
  unfold delete at he
  split at he
  · exact he
  · rename_i root eq
    rw [entries, eq]
    cases left : root.deleteRecursive key 0 with
    | mk node value =>
      simp only [entries, left] at he
      cases node with
      | none => cases he
      | some n => exact mem_entries_deleteRecursive left he

theorem mem_entries_of_lookup {v : V} (h : t.lookup key = some v) : (key, v) ∈ t.entries := by
  obtain ⟨root, eq, found⟩ := bind_eq_some_iff.mp h
  rw [entries, eq]
  exact mem_entries_of_lookupRecursive found

end ArtIndex

end GalaxDb
