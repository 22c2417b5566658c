import GalaxDb.Storage.ArtKeys

/-!
# The radix tree is a map

On keys that do not clash, the tree is the finite map of its leaves: a lookup finds
exactly the leaf of the key, an insert never panics and sets one key, a delete clears
one key. The invariant keeps every compressed path a real part of the keys below it.
-/

namespace GalaxDb

open List

universe u

variable {V : Type u}

mutual

def ArtNode.entries : ArtNode V → List (Bytes × V)
  | .leaf key value => [(key, value)]
  | .inner _ _ children => children.entries

def Children.entries : Children V → List (Bytes × V)
  | .nil => []
  | .cons _ child rest => child.entries ++ rest.entries

end

/-- Every child is still reached through the byte index. -/
def NodeType.AllReachable : NodeType → Prop
  | .node48 unreachable => unreachable = 0
  | _ => True

mutual

def ArtNode.WF : ArtNode V → Nat → Prop
  | .leaf _ _, _ => True
  | .inner pfx nodeType children, depth =>
    (∀ e ∈ children.entries, pfx <+: e.1.drop depth) ∧ children.bytes.Nodup ∧
      2 ≤ children.length ∧ nodeType.AllReachable ∧ children.WF (depth + pfx.length)

def Children.WF : Children V → Nat → Prop
  | .nil, _ => True
  | .cons byte child rest, depth =>
    (∀ e ∈ child.entries, byteAt e.1 depth = byte) ∧ child.WF (depth + 1) ∧ rest.WF depth

end

namespace Children

theorem length_bytes : ∀ c : Children V, c.bytes.length = c.length
  | .nil => rfl
  | .cons _ _ rest => by simp [bytes, length, length_bytes rest]

variable {e : Bytes × V} {n : ArtNode V} {byte : UInt8} {d : Nat}

theorem byteAt_mem_bytes : ∀ {c : Children V}, c.WF d → e ∈ c.entries → byteAt e.1 d ∈ c.bytes
  | .nil, _, he => by simp [entries] at he
  | .cons b child rest, wf, he => by
    rw [entries, mem_append] at he
    rcases he with he | he
    · simp [bytes, wf.1 e he]
    · exact mem_cons_of_mem b (byteAt_mem_bytes wf.2.2 he)

theorem wf_insertSorted (hbyte : ∀ e ∈ n.entries, byteAt e.1 d = byte) (hn : n.WF (d + 1)) :
    ∀ {c : Children V}, c.WF d → (c.insertSorted byte n).WF d
  | .nil, _ => by
    exact ⟨hbyte, hn, trivial⟩
  | .cons b child rest, wf => by
    by_cases before : byte < b
    · simp only [insertSorted, before, if_true, WF]
      exact ⟨hbyte, hn, wf⟩
    · simp only [insertSorted, before, if_false, WF]
      exact ⟨wf.1, wf.2.1, wf_insertSorted hbyte hn wf.2.2⟩

theorem mem_entries_insertSorted :
    ∀ {c : Children V}, e ∈ (c.insertSorted byte n).entries ↔ e ∈ n.entries ∨ e ∈ c.entries
  | .nil => by simp [insertSorted, entries]
  | .cons b child rest => by
    by_cases before : byte < b
    · simp [insertSorted, before, entries]
    · simp only [insertSorted, before, if_false, entries, mem_append,
        mem_entries_insertSorted (c := rest)]
      exact or_left_comm

theorem bytes_insertSorted_perm (byte : UInt8) (n : ArtNode V) :
    ∀ c : Children V, (c.insertSorted byte n).bytes.Perm (byte :: c.bytes)
  | .nil => by simp [insertSorted, bytes]
  | .cons b child rest => by
    by_cases before : byte < b
    · simp [insertSorted, before, bytes]
    · simp only [insertSorted, before, if_false, bytes]
      exact ((bytes_insertSorted_perm byte n rest).cons b).trans (List.Perm.swap byte b rest.bytes)

/-- Re-indexing children with distinct bytes loses none of them. -/
theorem keepLast_eq_self : ∀ {c : Children V}, c.bytes.Nodup → c.keepLast = c
  | .nil, _ => rfl
  | .cons b child rest, nodup => by
    rw [bytes, nodup_cons] at nodup
    simp [keepLast, nodup.1, keepLast_eq_self nodup.2]

end Children

mutual

theorem ArtNode.exists_mem_entries : ∀ {n : ArtNode V} {d : Nat}, n.WF d → ∃ e, e ∈ n.entries
  | .leaf key value, _, _ => ⟨(key, value), by simp [ArtNode.entries]⟩
  | .inner pfx nodeType children, d, wf => by
    rw [ArtNode.WF] at wf
    simpa only [ArtNode.entries] using
      Children.exists_mem_entries wf.2.2.2.2 (Nat.le_of_succ_le wf.2.2.1)

theorem Children.exists_mem_entries :
    ∀ {c : Children V} {d : Nat}, c.WF d → 1 ≤ c.length → ∃ e, e ∈ c.entries
  | .nil, _, _, size => by simp [Children.length] at size
  | .cons b child rest, d, wf, _ => by
    rw [Children.WF] at wf
    obtain ⟨e, he⟩ := ArtNode.exists_mem_entries wf.2.1
    exact ⟨e, by simp [Children.entries, he]⟩

end

/-- Two children with different bytes hold different keys. -/
theorem Children.exists_other {c : Children V} {d : Nat} (wf : c.WF d) (nodup : c.bytes.Nodup)
    (size : 2 ≤ c.length) (e : Bytes × V) : ∃ e' ∈ c.entries, e'.1 ≠ e.1 := by
  match c, wf, nodup, size with
  | .cons b child (.cons b' child' rest), wf, nodup, _ =>
    obtain ⟨x, hx⟩ := ArtNode.exists_mem_entries wf.2.1
    obtain ⟨y, hy⟩ := ArtNode.exists_mem_entries wf.2.2.2.1
    have hb : b ≠ b' := by
      intro h
      simp [Children.bytes, h] at nodup
    by_cases hxe : x.1 = e.1
    · refine ⟨y, by simp [Children.entries, hy], ?_⟩
      intro hye
      exact hb ((wf.1 x hx).symm.trans ((hxe.trans hye.symm) ▸ wf.2.2.1 y hy))
    · exact ⟨x, by simp [Children.entries, hx], hxe⟩

mutual

variable {key : Bytes} {v : V}

theorem ArtNode.lookupRecursive_iff : ∀ {n : ArtNode V} {d : Nat}, n.WF d →
      (n.lookupRecursive key d = some v ↔ (key, v) ∈ n.entries)
  | .leaf leafKey value, d, _ => by
    by_cases h : leafKey = key
    · simp [ArtNode.lookupRecursive, ArtNode.entries, h, eq_comm]
    · simp [ArtNode.lookupRecursive, ArtNode.entries, h, Ne.symm h]
  | .inner pfx nodeType children, d, wf => by
    rw [ArtNode.WF] at wf
    obtain ⟨paths, nodup, _, _, below⟩ := wf
    by_cases miss : commonPrefixLen pfx (key.drop d) < pfx.length
    · simp only [ArtNode.lookupRecursive, miss, if_true, ArtNode.entries, reduceCtorEq, false_iff]
      exact fun h => commonPrefixLen_lt_iff.mp miss (paths _ h)
    · simpa only [ArtNode.lookupRecursive, miss, if_false, ArtNode.entries] using
        ArtNode.lookupChild_iff below nodup

theorem ArtNode.lookupChild_iff : ∀ {c : Children V} {d : Nat}, c.WF d → c.bytes.Nodup →
      (ArtNode.lookupChild key (byteAt key d) c (d + 1) = some v ↔ (key, v) ∈ c.entries)
  | .nil, _, _, _ => by simp [ArtNode.lookupChild, Children.entries]
  | .cons b child rest, d, wf, nodup => by
    rw [Children.WF] at wf
    rw [Children.bytes, nodup_cons] at nodup
    rw [Children.entries, mem_append]
    by_cases here : b = byteAt key d
    · have elsewhere : (key, v) ∉ rest.entries := by
        intro h
        exact nodup.1 (here ▸ Children.byteAt_mem_bytes wf.2.2 h)
      simp only [ArtNode.lookupChild, here, if_true, elsewhere, or_false]
      exact ArtNode.lookupRecursive_iff wf.2.1
    · have notHere : (key, v) ∉ child.entries := fun h => here (wf.1 _ h).symm
      simp only [ArtNode.lookupChild, here, if_false, notHere, false_or]
      exact ArtNode.lookupChild_iff wf.2.2 nodup.2

end

section Insert

variable {children : Children V} {nodeType : NodeType} {pfx : Bytes} {d : Nat}

theorem NodeType.grow_of_nodup (nodup : children.bytes.Nodup) (reach : nodeType.AllReachable) :
    (nodeType.grow children).1.AllReachable ∧ (nodeType.grow children).2 = children := by
  cases nodeType <;> simp_all [NodeType.grow, NodeType.AllReachable, Children.keepLast_eq_self]

theorem ArtNode.addChild_of_nodup (byte : UInt8) (n : ArtNode V) (nodup : children.bytes.Nodup)
    (reach : nodeType.AllReachable) :
    (ArtNode.addChild byte n nodeType children).1.AllReachable ∧
      (ArtNode.addChild byte n nodeType children).2 = children.insertSorted byte n := by
  by_cases full : nodeType.isFull children
  · have grown := NodeType.grow_of_nodup nodup reach
    simpa [ArtNode.addChild, full, grown.2] using grown.1
  · simpa [ArtNode.addChild, full] using reach

/-- Adding a child whose byte is new keeps an inner node well formed. -/
theorem ArtNode.wf_addChild {byte : UInt8} {n : ArtNode V} (nodup : children.bytes.Nodup)
    (reach : nodeType.AllReachable) (size : 1 ≤ children.length)
    (paths : ∀ e ∈ children.entries, pfx <+: e.1.drop d) (below : children.WF (d + pfx.length))
    (fresh : byte ∉ children.bytes) (npath : ∀ e ∈ n.entries, pfx <+: e.1.drop d)
    (nbyte : ∀ e ∈ n.entries, byteAt e.1 (d + pfx.length) = byte)
    (nwf : n.WF (d + pfx.length + 1)) :
    (ArtNode.inner pfx (ArtNode.addChild byte n nodeType children).1
      (ArtNode.addChild byte n nodeType children).2).WF d := by
  obtain ⟨reach', eq⟩ := ArtNode.addChild_of_nodup byte n nodup reach
  rw [eq, ArtNode.WF]
  have perm := children.bytes_insertSorted_perm byte n
  refine ⟨?_, ?_, ?_, reach', Children.wf_insertSorted nbyte nwf below⟩
  · intro e he
    rcases Children.mem_entries_insertSorted.mp he with he | he
    · exact npath e he
    · exact paths e he
  · exact perm.nodup_iff.mpr (nodup_cons.mpr ⟨fresh, nodup⟩)
  · have := perm.length_eq
    rw [Children.length_bytes, length_cons, Children.length_bytes] at this
    omega

theorem ArtNode.newNode4_eq (pfx : Bytes) (oldByte newByte : UInt8) (old new : ArtNode V) :
    newNode4 pfx oldByte old newByte new =
      .inner pfx (addChild newByte new .node4 (.cons oldByte old .nil)).1
        (addChild newByte new .node4 (.cons oldByte old .nil)).2 := rfl

theorem ArtNode.newNode4_spec {oldByte newByte : UInt8} {o n : ArtNode V}
    (differ : oldByte ≠ newByte) (oldPath : ∀ e ∈ o.entries, pfx <+: e.1.drop d)
    (oldAt : ∀ e ∈ o.entries, byteAt e.1 (d + pfx.length) = oldByte)
    (oldWf : o.WF (d + pfx.length + 1)) (newPath : ∀ e ∈ n.entries, pfx <+: e.1.drop d)
    (newAt : ∀ e ∈ n.entries, byteAt e.1 (d + pfx.length) = newByte)
    (newWf : n.WF (d + pfx.length + 1)) :
    (newNode4 pfx oldByte o newByte n).WF d ∧ ∀ e, e ∈ (newNode4 pfx oldByte o newByte n).entries ↔
        e ∈ o.entries ∨ e ∈ n.entries := by
  have single : (Children.cons oldByte o .nil).WF (d + pfx.length) := by
    exact ⟨oldAt, oldWf, trivial⟩
  have nodup : (Children.cons oldByte o .nil).bytes.Nodup := by simp [Children.bytes]
  have reach : NodeType.node4.AllReachable := trivial
  rw [newNode4_eq]
  constructor
  · refine ArtNode.wf_addChild nodup reach (le_refl 1) ?_ single ?_ newPath newAt newWf
    · simpa [Children.entries] using oldPath
    · simpa [Children.bytes] using differ.symm
  · intro e
    rw [ArtNode.entries, (ArtNode.addChild_of_nodup newByte n nodup reach).2,
      Children.mem_entries_insertSorted]
    simp [Children.entries, or_comm]

/-- What an insert of `key` leaves in a node: the new leaf and the leaves of other keys. -/
def InsertedInto (key : Bytes) (value : V) (before after : List (Bytes × V)) : Prop :=
  ∀ e, e ∈ after ↔ e = (key, value) ∨ (e ∈ before ∧ e.1 ≠ key)

/-- A second key splits a leaf. -/
theorem ArtNode.insertRecursive_leaf {key oldKey : Bytes} {value oldValue : V}
    (agree : Agree d key oldKey) (clash : ¬ Clash key oldKey) :
    ∃ n r, (ArtNode.leaf oldKey oldValue).insertRecursive key value d = some (n, r) ∧ n.WF d ∧
      InsertedInto key value [(oldKey, oldValue)] n.entries := by
  by_cases same : oldKey = key
  · subst same
    refine ⟨.leaf oldKey value, true, by simp [ArtNode.insertRecursive], trivial, ?_⟩
    intro e
    simp only [ArtNode.entries, mem_singleton]
    exact ⟨Or.inl, fun h => h.elim id (fun h => False.elim (h.2 (h.1 ▸ rfl)))⟩
  · obtain ⟨t, k, o, rfl, rfl, ht, hne, hc⟩ := agree.split (Ne.symm same) clash
    have hne' : o ≠ k := hne.symm
    have hc' : ¬ Clash o k := fun h => hc h.symm
    have dropK : (t ++ k).drop d = k := by rw [← ht, drop_left]
    have dropO : (t ++ o).drop d = o := by rw [← ht, drop_left]
    have long : ¬ ((t ++ o).length < d ∨ (t ++ k).length < d) := by
      simp only [length_append, ← ht]; omega
    have shared := take_commonPrefixLen o k
    have differ := byteAt_commonPrefixLen_ne hne' hc'
    have takeLen : (k.take (commonPrefixLen o k)).length = commonPrefixLen o k := by
      rw [length_take, min_eq_left (commonPrefixLen_le o k).2]
    have readK : byteAt (t ++ k) (d + commonPrefixLen o k) = byteAt k (commonPrefixLen o k) := by
      rw [← ht, byteAt_append]
    have readO : byteAt (t ++ o) (d + commonPrefixLen o k) = byteAt o (commonPrefixLen o k) := by
      rw [← ht, byteAt_append]
    have pathK : k.take (commonPrefixLen o k) <+: (t ++ k).drop d := by
      rw [dropK]; exact take_prefix _ _
    have pathO : k.take (commonPrefixLen o k) <+: (t ++ o).drop d := by
      rw [dropO, ← shared]; exact take_prefix _ _
    have split := ArtNode.newNode4_spec (d := d) (readO.trans_ne (differ.trans_eq readK.symm))
      (o := .leaf (t ++ o) oldValue) (n := .leaf (t ++ k) value)
      (by simpa [ArtNode.entries] using pathO) (by simp [ArtNode.entries, takeLen]) trivial
      (by simpa [ArtNode.entries] using pathK) (by simp [ArtNode.entries, takeLen]) trivial
    refine ⟨_, false, ?_, split.1, ?_⟩
    · simp only [ArtNode.insertRecursive, same, if_false, long, dropK, dropO]
    · intro e
      rw [split.2, ArtNode.entries, ArtNode.entries, mem_singleton, mem_singleton]
      constructor
      · rintro (rfl | rfl)
        · exact Or.inr ⟨rfl, same⟩
        · exact Or.inl rfl
      · rintro (rfl | ⟨rfl, _⟩)
        · exact Or.inr rfl
        · exact Or.inl rfl

/-- A key that leaves the prefix of an inner node splits it. -/
theorem ArtNode.insertRecursive_mismatch {key : Bytes} {value : V}
    (wf : (ArtNode.inner pfx nodeType children).WF d)
    (agree : ∀ e ∈ children.entries, Agree d key e.1 ∧ ¬ Clash key e.1)
    (miss : commonPrefixLen pfx (key.drop d) < pfx.length) :
    ∃ n r, (ArtNode.inner pfx nodeType children).insertRecursive key value d = some (n, r) ∧
      n.WF d ∧ InsertedInto key value children.entries n.entries := by
  obtain ⟨paths, nodup, size, reach, below⟩ := wf
  have absent : ∀ e ∈ children.entries, e.1 ≠ key := by
    rintro e he rfl
    exact commonPrefixLen_lt_iff.mp miss (paths e he)
  have differ : byteAt pfx (commonPrefixLen pfx (key.drop d)) ≠
      byteAt key (d + commonPrefixLen pfx (key.drop d)) := by
    obtain ⟨e, he⟩ := Children.exists_mem_entries below (Nat.le_of_succ_le size)
    obtain ⟨t, k, o, hk, ho, ht, hne, hc⟩ :=
      (agree e he).1.split (absent e he).symm (agree e he).2
    have dropK : key.drop d = k := by rw [hk, ← ht, drop_left]
    have path := paths e he
    rw [ho, ← ht, drop_left] at path
    rw [dropK] at miss ⊢
    have cut := commonPrefixLen_of_startsWith path miss
    rw [hk, ← ht, byteAt_append, ← byteAt_of_startsWith path miss, ← cut]
    exact byteAt_commonPrefixLen_ne hne.symm (fun h => hc h.symm)
  have takeLen : (pfx.take (commonPrefixLen pfx (key.drop d))).length =
      commonPrefixLen pfx (key.drop d) := by
    rw [length_take, min_eq_left miss.le]
  have shared := take_commonPrefixLen pfx (key.drop d)
  generalize hm : commonPrefixLen pfx (key.drop d) = m at *
  have oldPath : ∀ e ∈ children.entries, pfx.take m <+: e.1.drop d :=
    fun e he => (List.take_prefix m pfx).trans (paths e he)
  have oldAt : ∀ e ∈ children.entries, byteAt e.1 (d + (pfx.take m).length) = byteAt pfx m := by
    intro e he
    rw [takeLen, ← byteAt_drop, byteAt_of_startsWith (paths e he) miss]
  have oldWf : (ArtNode.inner (pfx.drop (m + 1)) nodeType children).WF
      (d + (pfx.take m).length + 1) := by
    have depth : d + m + 1 + (pfx.length - (m + 1)) = d + pfx.length := by omega
    rw [takeLen, ArtNode.WF, length_drop, depth]
    refine ⟨?_, nodup, size, reach, below⟩
    intro e he
    have tail := (paths e he).drop (m + 1)
    rwa [drop_drop, ← add_assoc] at tail
  have newPath : pfx.take m <+: key.drop d := by
    rw [shared]; exact take_prefix m _
  have split := ArtNode.newNode4_spec (d := d) differ
    (o := .inner (pfx.drop (m + 1)) nodeType children) (n := .leaf key value)
    oldPath oldAt oldWf (by simpa [ArtNode.entries] using newPath)
    (by simp [ArtNode.entries, takeLen]) trivial
  refine ⟨_, false, ?_, split.1, ?_⟩
  · simp only [ArtNode.insertRecursive, hm, miss, if_true]
  · intro e
    rw [split.2, ArtNode.entries, ArtNode.entries, mem_singleton, or_comm]
    exact or_congr_right ⟨fun he => ⟨he, absent e he⟩, And.left⟩

mutual

/-- An insertion keeps the tree well formed and adds its entry. -/
theorem ArtNode.insertRecursive_spec {key : Bytes} (value : V) :
    ∀ {n : ArtNode V} {d : Nat}, n.WF d → (∀ e ∈ n.entries, Agree d key e.1 ∧ ¬ Clash key e.1) →
      ∃ n' r, n.insertRecursive key value d = some (n', r) ∧ n'.WF d ∧
        InsertedInto key value n.entries n'.entries
  | .leaf oldKey oldValue, d, _, agree => by
    have := agree (oldKey, oldValue) (by simp [ArtNode.entries])
    simpa only [ArtNode.entries] using ArtNode.insertRecursive_leaf this.1 this.2
  | .inner pfx nodeType children, d, wf, agree => by
    rw [ArtNode.entries] at agree
    by_cases miss : commonPrefixLen pfx (key.drop d) < pfx.length
    · exact ArtNode.insertRecursive_mismatch wf agree miss
    have follows : pfx <+: key.drop d := by
      simpa using mt commonPrefixLen_lt_iff.mpr miss
    rw [ArtNode.WF] at wf
    obtain ⟨paths, nodup, size, reach, below⟩ := wf
    have agree' : ∀ e ∈ children.entries, Agree (d + pfx.length) key e.1 ∧ ¬ Clash key e.1 :=
      fun e he => ⟨(agree e he).1.extend follows (paths e he), (agree e he).2⟩
    by_cases here : byteAt key (d + pfx.length) ∈ children.bytes
    · obtain ⟨c, r, eq, wf', bytes, entries⟩ :=
        ArtNode.insertChild_spec value below nodup here agree'
      refine ⟨.inner pfx nodeType c, r, ?_, ?_, entries⟩
      · simp only [ArtNode.insertRecursive, miss, if_false, here, if_true, eq, Option.map_some]
      · rw [ArtNode.WF]
        refine ⟨?_, bytes ▸ nodup, ?_, reach, wf'⟩
        · intro e he
          rcases (entries e).mp he with rfl | ⟨he, _⟩
          · exact follows
          · exact paths e he
        · rw [← Children.length_bytes, bytes, Children.length_bytes]; exact size
    · let added :=
        ArtNode.addChild (byteAt key (d + pfx.length)) (.leaf key value) nodeType children
      refine ⟨.inner pfx added.1 added.2, false, ?_, ?_, ?_⟩
      · simp only [ArtNode.insertRecursive, miss, if_false, here, added]
      · refine ArtNode.wf_addChild nodup reach (Nat.le_of_succ_le size) paths below here ?_ ?_
          trivial
        · simpa [ArtNode.entries] using follows
        · simp [ArtNode.entries]
      · intro e
        rw [ArtNode.entries, (ArtNode.addChild_of_nodup _ _ nodup reach).2,
          Children.mem_entries_insertSorted, ArtNode.entries, ArtNode.entries, mem_singleton]
        refine or_congr_right ⟨fun he => ⟨he, ?_⟩, And.left⟩
        rintro rfl
        exact here (Children.byteAt_mem_bytes below he)

theorem ArtNode.insertChild_spec {key : Bytes} (value : V) :
    ∀ {c : Children V} {d : Nat}, c.WF d → c.bytes.Nodup → byteAt key d ∈ c.bytes →
      (∀ e ∈ c.entries, Agree d key e.1 ∧ ¬ Clash key e.1) →
      ∃ c' r, ArtNode.insertChild key value (byteAt key d) c (d + 1) = some (c', r) ∧ c'.WF d ∧
        c'.bytes = c.bytes ∧ InsertedInto key value c.entries c'.entries
  | .nil, _, _, _, here, _ => by simp [Children.bytes] at here
  | .cons b child rest, d, wf, nodup, here, agree => by
    rw [Children.WF] at wf
    rw [Children.bytes, nodup_cons] at nodup
    rw [Children.entries] at agree
    by_cases this : b = byteAt key d
    · have agree' : ∀ e ∈ child.entries, Agree (d + 1) key e.1 ∧ ¬ Clash key e.1 := by
        intro e he
        have h := agree e (mem_append_left _ he)
        exact ⟨h.1.succ (this.symm.trans (wf.1 e he).symm), h.2⟩
      obtain ⟨n, r, eq, wf', entries⟩ :=
        ArtNode.insertRecursive_spec value wf.2.1 agree'
      refine ⟨.cons b n rest, r, ?_, ?_, rfl, ?_⟩
      · simp [ArtNode.insertChild, this, eq]
      · rw [Children.WF]
        refine ⟨?_, wf', wf.2.2⟩
        intro e he
        rcases (entries e).mp he with rfl | ⟨he, _⟩
        · exact this.symm
        · exact wf.1 e he
      · intro e
        rw [Children.entries, Children.entries, mem_append, mem_append, entries e,
          or_and_right, or_assoc]
        refine or_congr_right (or_congr_right ⟨fun he => ⟨he, ?_⟩, And.left⟩)
        rintro rfl
        exact nodup.1 (this ▸ Children.byteAt_mem_bytes wf.2.2 he)
    · have here' : byteAt key d ∈ rest.bytes := by
        simpa [Children.bytes, Ne.symm this] using here
      obtain ⟨c, r, eq, wf', bytes, entries⟩ :=
        ArtNode.insertChild_spec value wf.2.2 nodup.2 here'
          (fun e he => agree e (mem_append_right _ he))
      refine ⟨.cons b child c, r, ?_, ?_, ?_, ?_⟩
      · simp [ArtNode.insertChild, this, eq]
      · rw [Children.WF]
        exact ⟨wf.1, wf.2.1, wf'⟩
      · simp [Children.bytes, bytes]
      · intro e
        rw [Children.entries, Children.entries, mem_append, mem_append, entries e,
          or_and_right, or_left_comm]
        refine or_congr_right (or_congr_left ⟨fun he => ⟨he, ?_⟩, And.left⟩)
        rintro rfl
        exact this (wf.1 e he).symm

end

end Insert

section Delete

/-- Different keys of a subtree agree on its path and do not clash. -/
def Separated (depth : Nat) (entries : List (Bytes × V)) : Prop :=
  ∀ e ∈ entries, ∀ e' ∈ entries, Agree depth e.1 e'.1 ∧ ¬ Clash e.1 e'.1

variable {l : List (Bytes × V)} {nodeType : NodeType} {d : Nat}

theorem Separated.subset {l' : List (Bytes × V)} (h : Separated d l) (sub : ∀ e ∈ l', e ∈ l) :
    Separated d l' :=
  fun e he e' he' => h e (sub e he) e' (sub e' he')

theorem Separated.extend {p : Bytes} (h : Separated d l) (paths : ∀ e ∈ l, p <+: e.1.drop d) :
    Separated (d + p.length) l :=
  fun e he e' he' => ⟨(h e he e' he').1.extend (paths e he) (paths e' he'), (h e he e' he').2⟩

theorem Separated.succ {b : UInt8} (h : Separated d l) (same : ∀ e ∈ l, byteAt e.1 d = b) :
    Separated (d + 1) l :=
  fun e he e' he' =>
    ⟨(h e he e' he').1.succ ((same e he).trans (same e' he').symm), (h e he e' he').2⟩

def optionEntries (n : Option (ArtNode V)) : List (Bytes × V) :=
  n.elim [] ArtNode.entries

def ErasedFrom (key : Bytes) (before after : List (Bytes × V)) : Prop :=
  ∀ e, e ∈ after ↔ e ∈ before ∧ e.1 ≠ key

theorem NodeType.numChildren_of_reachable (reach : nodeType.AllReachable) (children : Children V) :
    nodeType.numChildren children = children.length := by
  cases nodeType <;> simp_all [NodeType.numChildren, NodeType.AllReachable]

theorem NodeType.shrink_reachable (reach : nodeType.AllReachable) (children : Children V) :
    (if nodeType.shouldShrink children then nodeType.shrink else nodeType).AllReachable := by
  split
  · cases nodeType <;> simp [NodeType.shrink, NodeType.AllReachable]
  · exact reach

variable {children : Children V} {pfx : Bytes}

/-- Joining the path of a node with that of its only child gives a path of the keys below:
the child has two different keys, so none of them ends at the joining byte. -/
theorem ArtNode.wf_join {q : Bytes} {byte : UInt8}
    (wf : (inner q nodeType children).WF (d + pfx.length + 1))
    (paths : ∀ e ∈ children.entries, pfx <+: e.1.drop d)
    (same : ∀ e ∈ children.entries, byteAt e.1 (d + pfx.length) = byte)
    (sep : Separated d children.entries) : (inner (pfx ++ byte :: q) nodeType children).WF d := by
  obtain ⟨qpaths, nodup, size, reach, below⟩ := wf
  have depth : d + (pfx ++ byte :: q).length = d + pfx.length + 1 + q.length := by
    simp only [length_append, length_cons]; omega
  refine ⟨?_, nodup, size, reach, depth ▸ below⟩
  intro e he
  obtain ⟨e', he', hne⟩ := Children.exists_other below nodup size e
  obtain ⟨t, a, b, ha, _, ht, _, _⟩ :=
    (((sep.extend paths).succ same) e he e' he').1.split hne.symm (sep e he e' he').2
  obtain ⟨rest, hrest⟩ := paths e he
  obtain ⟨tail, htail⟩ := qpaths e he
  have drops : rest = e.1.drop (d + pfx.length) := by
    rw [← drop_drop, ← hrest, drop_left]
  have long : d + pfx.length < e.1.length := by
    rw [ha, length_append, ht]; omega
  have byteEq : e.1[d + pfx.length] = byte := by
    have := same e he
    rwa [byteAt, getElem?_eq_getElem long, Option.getD_some] at this
  refine ⟨tail, ?_⟩
  rw [append_assoc, cons_append, htail, ← hrest, drops, drop_eq_getElem_cons long, byteEq]

theorem ArtNode.collapse_spec (nodup : children.bytes.Nodup) (size : 1 ≤ children.length)
    (reach : nodeType.AllReachable) (paths : ∀ e ∈ children.entries, pfx <+: e.1.drop d)
    (below : children.WF (d + pfx.length)) (sep : Separated d children.entries) :
    (∀ n ∈ collapse pfx nodeType children, n.WF d) ∧
      optionEntries (collapse pfx nodeType children) = children.entries := by
  have reach' := NodeType.shrink_reachable reach children
  have count := NodeType.numChildren_of_reachable reach' children
  match children, size with
  | .cons byte child .nil, _ =>
    have entriesEq : (Children.cons byte child .nil).entries = child.entries := by
      simp [Children.entries]
    rw [entriesEq] at paths sep ⊢
    cases child with
    | leaf key value =>
      simp only [collapse, count, Children.length]
      exact ⟨fun n hn => by simp at hn; simp [← hn, ArtNode.WF], rfl⟩
    | inner q childType grandchildren =>
      have joined := ArtNode.wf_join below.2.1 paths below.1 sep
      simp only [collapse, count, Children.length]
      exact ⟨fun n hn => by simp at hn; simpa [← hn] using joined, rfl⟩
  | .cons byte child (.cons byte' child' rest), _ =>
    have many : ¬ rest.length + 1 + 1 = 1 := by omega
    have some_left : ¬ rest.length + 1 + 1 = 0 := by omega
    simp only [collapse, count, Children.length, many, some_left, if_false]
    refine ⟨?_, rfl⟩
    intro n hn
    obtain rfl := Option.mem_some.mp hn
    exact ⟨paths, nodup, by simp [Children.length], reach', below⟩

mutual

/-- A deletion keeps the tree well formed and erases its entry. -/
theorem ArtNode.deleteRecursive_spec (key : Bytes) :
    ∀ {n : ArtNode V} {d : Nat}, n.WF d → Separated d n.entries →
      (∀ n' ∈ (n.deleteRecursive key d).1, n'.WF d) ∧
        ErasedFrom key n.entries (optionEntries (n.deleteRecursive key d).1)
  | .leaf leafKey value, d, _, _ => by
    by_cases h : leafKey = key
    · simp [ArtNode.deleteRecursive, h, ErasedFrom, optionEntries, ArtNode.entries]
    · refine ⟨by simp [ArtNode.deleteRecursive, h, ArtNode.WF], ?_⟩
      intro e
      simp only [ArtNode.deleteRecursive, h, if_false, optionEntries, Option.elim, ArtNode.entries,
        mem_singleton]
      exact ⟨fun he => ⟨he, he ▸ h⟩, And.left⟩
  | .inner pfx nodeType children, d, wf, sep => by
    by_cases miss : commonPrefixLen pfx (key.drop d) < pfx.length
    · have wf' := wf
      rw [ArtNode.WF] at wf'
      simp only [ArtNode.deleteRecursive, miss, if_true]
      refine ⟨fun n hn => Option.mem_some.mp hn ▸ wf, ?_⟩
      intro e
      refine ⟨fun he => ⟨he, ?_⟩, And.left⟩
      rintro rfl
      exact commonPrefixLen_lt_iff.mp miss (wf'.1 e he)
    rw [ArtNode.WF] at wf
    rw [ArtNode.entries] at sep ⊢
    obtain ⟨paths, nodup, size, reach, below⟩ := wf
    obtain ⟨wf', sub, lost, erased⟩ :=
      ArtNode.deleteChild_spec key below nodup (sep.extend paths)
    have kept : ∀ e ∈ _, e ∈ children.entries := fun e he => ((erased e).mp he).1
    simp only [ArtNode.deleteRecursive, miss, if_false]
    split
    · rename_i gone
      rw [gone, if_pos rfl] at lost
      obtain ⟨wf'', eq⟩ := ArtNode.collapse_spec (sub.nodup nodup) (by omega) reach
        (fun e he => paths e (kept e he)) wf' (sep.subset kept)
      exact ⟨wf'', eq ▸ erased⟩
    · rename_i stays
      rw [if_neg stays] at lost
      refine ⟨?_, erased⟩
      intro n hn
      obtain rfl := Option.mem_some.mp hn
      rw [ArtNode.WF]
      exact ⟨fun e he => paths e (kept e he), sub.nodup nodup, by omega, reach, wf'⟩

theorem ArtNode.deleteChild_spec (key : Bytes) :
    ∀ {c : Children V} {d : Nat}, c.WF d → c.bytes.Nodup → Separated d c.entries →
      let r := ArtNode.deleteChild key (byteAt key d) c (d + 1)
      r.1.WF d ∧ r.1.bytes.Sublist c.bytes ∧ r.1.length + (if r.2.1 then 1 else 0) = c.length ∧
        ErasedFrom key c.entries r.1.entries
  | .nil, _, _, _, _ => by
    simp [ArtNode.deleteChild, Children.WF, ErasedFrom, Children.entries]
  | .cons b child rest, d, wf, nodup, sep => by
    rw [Children.WF] at wf
    rw [Children.bytes, nodup_cons] at nodup
    rw [Children.entries] at sep ⊢
    by_cases this : b = byteAt key d
    · have sepChild := (sep.subset (fun e he => mem_append_left _ he)).succ wf.1
      have spec := ArtNode.deleteRecursive_spec key wf.2.1 sepChild
      have elsewhere : ∀ e ∈ rest.entries, e.1 ≠ key := by
        rintro e he rfl
        exact nodup.1 (this ▸ Children.byteAt_mem_bytes wf.2.2 he)
      have member : ∀ after, ErasedFrom key child.entries after →
          ErasedFrom key (child.entries ++ rest.entries) (after ++ rest.entries) := by
        intro after erased e
        rw [mem_append, mem_append, erased e, or_and_right]
        exact or_congr_right ⟨fun he => ⟨he, elsewhere e he⟩, And.left⟩
      match hr : child.deleteRecursive key (d + 1) with
      | (none, value) =>
        simp only [ArtNode.deleteChild, this, if_true, hr] at spec ⊢
        exact ⟨wf.2.2, sublist_cons_self _ _, rfl, member [] spec.2⟩
      | (some child', value) =>
        simp only [ArtNode.deleteChild, this, if_true, hr] at spec ⊢
        refine ⟨?_, List.Sublist.refl _, rfl, member child'.entries spec.2⟩
        rw [Children.WF]
        exact ⟨fun e he => this ▸ wf.1 e ((spec.2 e).mp he).1, spec.1 child' rfl, wf.2.2⟩
    · have spec := ArtNode.deleteChild_spec key wf.2.2 nodup.2
        (sep.subset (fun e he => mem_append_right _ he))
      simp only [ArtNode.deleteChild, this, if_false]
      refine ⟨?_, ?_, ?_, ?_⟩
      · rw [Children.WF]
        exact ⟨wf.1, wf.2.1, spec.1⟩
      · exact spec.2.1.cons_cons b
      · simp only [Children.length, ← spec.2.2.1]
        omega
      · intro e
        rw [Children.entries, mem_append, mem_append, spec.2.2.2 e, or_and_right]
        refine or_congr_left ⟨fun he => ⟨he, ?_⟩, And.left⟩
        rintro rfl
        exact this (wf.1 e he).symm

end

end Delete

namespace ArtIndex

/-- The keys in the index can be told apart and every path in it is real. -/
def WF (t : ArtIndex V) : Prop :=
  ∀ root ∈ t.root, root.WF 0 ∧ Separated 0 root.entries

theorem wf_new : (ArtIndex.new : ArtIndex V).WF := by
  intro root h
  cases h

variable {t : ArtIndex V}

theorem lookup_eq_some_iff (wf : t.WF) {key : Bytes} {v : V} :
    t.lookup key = some v ↔ (key, v) ∈ optionEntries t.root := by
  cases h : t.root with
  | none => simp [lookup, h, optionEntries]
  | some root =>
    simpa [lookup, h, optionEntries] using ArtNode.lookupRecursive_iff (wf root h).1

theorem insertedInto_nil (key : Bytes) (value : V) : InsertedInto key value [] [(key, value)] := by
  intro e
  simp

/-- Inserting a key that clashes with no key of the index succeeds and sets that key. -/
theorem lookup_insert (wf : t.WF) {key : Bytes} (value : V)
    (clash : ∀ k, t.lookup k ≠ none → ¬ Clash key k) :
    ∃ t', t.insert key value = some t' ∧ t'.WF ∧
      ∀ k, t'.lookup k = if k = key then some value else t.lookup k := by
  have clash' : ∀ e ∈ optionEntries t.root, ¬ Clash key e.1 := by
    intro e he
    exact clash e.1 (by rw [(lookup_eq_some_iff wf).mpr he]; simp)
  obtain ⟨t', eq, wf', inserted⟩ : ∃ t', t.insert key value = some t' ∧
      (∀ root ∈ t'.root, root.WF 0) ∧
      InsertedInto key value (optionEntries t.root) (optionEntries t'.root) := by
    cases h : t.root with
    | none =>
      refine ⟨⟨some (.leaf key value), t.len + 1⟩, by simp [insert, h], ?_,
        insertedInto_nil key value⟩
      intro root hr
      obtain rfl := Option.mem_some.mp hr
      trivial
    | some root =>
      rw [h] at clash'
      obtain ⟨n, r, eq, nwf, entries⟩ := ArtNode.insertRecursive_spec value (wf root h).1
        (fun e he => ⟨fun i hi => absurd hi (Nat.not_lt_zero i), clash' e he⟩)
      refine ⟨⟨some n, if r then t.len else t.len + 1⟩, by simp [insert, h, eq], ?_, entries⟩
      intro root' hr
      exact Option.mem_some.mp hr ▸ nwf
  have sep' : ∀ root ∈ t'.root, Separated 0 root.entries := by
    intro root hr e he e' he'
    have entriesEq : optionEntries t'.root = root.entries := by rw [hr]; rfl
    refine ⟨fun i hi => absurd hi (Nat.not_lt_zero i), ?_⟩
    rcases (inserted e).mp (entriesEq ▸ he) with rfl | ⟨hb, _⟩ <;>
      rcases (inserted e').mp (entriesEq ▸ he') with rfl | ⟨hb', _⟩
    · exact not_clash_self key
    · exact clash' e' hb'
    · exact fun h => clash' e hb h.symm
    · cases hroot : t.root with
      | none => simp [hroot, optionEntries] at hb
      | some old =>
        rw [hroot] at hb hb'
        exact ((wf old hroot).2 e hb e' hb').2
  have wfT : t'.WF := fun root hr => ⟨wf' root hr, sep' root hr⟩
  refine ⟨t', eq, wfT, ?_⟩
  intro k
  ext v
  rw [lookup_eq_some_iff wfT, inserted (k, v)]
  by_cases hk : k = key
  · simp [hk, eq_comm]
  · simp [hk, lookup_eq_some_iff wf]

theorem lookup_delete (wf : t.WF) (key : Bytes) :
    (t.delete key).WF ∧ ∀ k, (t.delete key).lookup k = if k = key then none else t.lookup k := by
  obtain ⟨wf', erased⟩ : (∀ root ∈ (t.delete key).root, root.WF 0) ∧
      ErasedFrom key (optionEntries t.root) (optionEntries (t.delete key).root) := by
    cases h : t.root with
    | none => simp [delete, h, optionEntries, ErasedFrom]
    | some root =>
      simp only [delete, h]
      exact ArtNode.deleteRecursive_spec key (wf root h).1 (wf root h).2
  have wfT : (t.delete key).WF := by
    intro root hr
    refine ⟨wf' root hr, ?_⟩
    have entriesEq : optionEntries (t.delete key).root = root.entries := by rw [hr]; rfl
    rw [entriesEq] at erased
    cases h : t.root with
    | none =>
      have none_root : (t.delete key).root = none := by rw [delete, h]; exact h
      rw [none_root] at hr
      cases hr
    | some old =>
      rw [h] at erased
      exact (wf old h).2.subset (fun e he => ((erased e).mp he).1)
  refine ⟨wfT, ?_⟩
  intro k
  ext v
  rw [lookup_eq_some_iff wfT, erased (k, v), ← lookup_eq_some_iff wf]
  by_cases hk : k = key <;> simp [hk]

/-- Keys that are in the index together do not clash. -/
theorem WF.not_clash (wf : t.WF) {k k' : Bytes} (h : t.lookup k ≠ none) (h' : t.lookup k' ≠ none) :
    ¬ Clash k k' := by
  obtain ⟨v, hv⟩ := Option.ne_none_iff_exists'.mp h
  obtain ⟨v', hv'⟩ := Option.ne_none_iff_exists'.mp h'
  rw [lookup_eq_some_iff wf] at hv hv'
  cases hroot : t.root with
  | none => simp [hroot, optionEntries] at hv
  | some root =>
    rw [hroot] at hv hv'
    exact ((wf root hroot).2 _ hv _ hv').2

end ArtIndex

end GalaxDb
