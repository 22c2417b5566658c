import GalaxDb.Storage.LruCache
import Mathlib.Data.List.DropRight

/-!
# The LRU cache as a recency list

What the cache is for: a list of pairs by last use, the last of which goes when there is no room.
The arena, its links and the recycled slots refine the list, with the same answers to every
sequence of calls.
-/

namespace GalaxDb.BufferPool

open AList Option

universe u

variable {K V : Type u} [DecidableEq K]

inductive LruCall (K V : Type u) where
  | get (key : K)
  | put (key : K) (value : V)
  | remove (key : K)
  | lruTailKeys (k : Nat)

inductive LruReply (K V : Type u) where
  | value (found : Option V)
  | evicted (pair : Option (K × V))
  | keys (keys : List K)

namespace Recency

/-- The value of a key. -/
def find (l : List (K × V)) (key : K) : Option V :=
  (l.find? fun e => e.1 = key).map Prod.snd

def without (l : List (K × V)) (key : K) : List (K × V) := l.filter fun e => e.1 ≠ key

/-- One call on the list; the pairs that are used go to its front. -/
def step (capacity : Nat) (l : List (K × V)) : LruCall K V → LruReply K V × List (K × V)
  | .get key =>
    match find l key with
    | some value => (.value (some value), (key, value) :: without l key)
    | none => (.value none, l)
  | .put key value =>
    if (find l key).isSome then (.evicted none, (key, value) :: without l key)
    else if capacity ≤ l.length then (.evicted l.getLast?, (key, value) :: l.dropLast)
    else (.evicted none, (key, value) :: l)
  | .remove key => (.value (find l key), without l key)
  | .lruTailKeys k => (.keys (((l.rtake k).reverse).map Prod.fst), l)

/-- The answers to a sequence of calls, and the list after it. -/
def exec (capacity : Nat) : List (K × V) → List (LruCall K V) → List (LruReply K V) × List (K × V)
  | l, [] => ([], l)
  | l, call :: calls =>
    let next := step capacity l call
    let rest := exec capacity next.2 calls
    (next.1 :: rest.1, rest.2)

variable {a b l : List (K × V)} {key : K} {value : V}

theorem middle_spec (nodup : ((a ++ (key, value) :: b).map Prod.fst).Nodup) :
    find (a ++ (key, value) :: b) key = some value ∧ without (a ++ (key, value) :: b) key = a ++ b ∧
      ∀ e ∈ a ++ b, e.1 ≠ key := by
  rw [List.map_append, List.map_cons] at nodup
  obtain ⟨absent, -⟩ := List.nodup_cons.mp (List.nodup_middle.mp nodup)
  rw [← List.map_append] at absent
  have others : ∀ e ∈ a ++ b, e.1 ≠ key := by
    intro e mem same
    have there : e.1 ∈ (a ++ b).map Prod.fst := List.mem_map_of_mem mem
    rw [same] at there
    exact absent there
  refine ⟨?_, ?_, others⟩
  · have front : a.find? (fun e => e.1 = key) = none :=
      List.find?_eq_none.mpr fun e mem => by simpa using others e (List.mem_append_left _ mem)
    rw [find, List.find?_append, front]
    simp
  · have kept : (a ++ b).filter (fun e => e.1 ≠ key) = a ++ b :=
      List.filter_eq_self.mpr fun e mem => by simpa using others e mem
    rw [List.filter_append] at kept
    rw [without, List.filter_append, List.filter_cons_of_neg (by simp)]
    exact kept

theorem find_eq_none (absent : ∀ e ∈ l, e.1 ≠ key) : find l key = none ∧ without l key = l := by
  constructor
  · rw [find, List.find?_eq_none.mpr fun e mem => by simpa using absent e mem]
    rfl
  · exact List.filter_eq_self.mpr fun e mem => by simpa using absent e mem

end Recency

namespace LruCache

def step (c : LruCache K V) : LruCall K V → Option (LruReply K V × LruCache K V)
  | .get key => (c.get key).map fun r => (.value r.1, r.2)
  | .put key value => (c.put key value).map fun r => (.evicted r.1, r.2)
  | .remove key => (c.remove key).map fun r => (.value r.1, r.2)
  | .lruTailKeys k => (c.lruTailKeys k).map fun keys => (.keys keys, c)

def exec : LruCache K V → List (LruCall K V) → Option (List (LruReply K V) × LruCache K V)
  | c, [] => some ([], c)
  | c, call :: calls => do
    let (reply, c) ← c.step call
    let (replies, c) ← exec c calls
    some (reply :: replies, c)

section Mirrors

variable {c c' : LruCache K V} {l la lb : List (K × V)} {slots a b : List Nat} {idx : Nat}
  {key : K} {value : V}

/-- The linked slots have the pairs of the list, the map names them, and the other slots are the
free ones. -/
structure Mirrors (c : LruCache K V) (l : List (K × V)) (slots : List Nat) : Prop where
  chain : Chain c slots
  entries : slots.map c.entry = l.map some
  keys : (l.map Prod.fst).Nodup
  mapped : ∀ key idx, c.map.lookup key = some idx ↔ idx ∈ slots ∧ ∃ v, c.entry idx = some (key, v)
  recycles : Recycles c
  occupied : ∀ idx n, c.node idx = some n → idx ∈ slots
  count : c.len = l.length
  room : l.length ≤ c.capacity

theorem mirrors_new (capacity : Nat) : Mirrors (new capacity : LruCache K V) [] [] := by
  refine ⟨⟨trivial, List.nodup_nil, rfl, rfl⟩, rfl, List.nodup_nil, fun key idx => ?_,
    ⟨List.nodup_nil, fun idx => ?_⟩, fun idx n found => ?_, rfl, Nat.zero_le _⟩
  · simp [new]
  · simp [new]
  · cases found

/-- The place of a key in both lists. -/
theorem Mirrors.place (mirrors : Mirrors c l slots) (mapped : c.map.lookup key = some idx) :
    ∃ a b la lb v, slots = a ++ idx :: b ∧ l = la ++ (key, v) :: lb ∧ a.map c.entry = la.map some ∧
      b.map c.entry = lb.map some ∧ c.entry idx = some (key, v) := by
  obtain ⟨mem, v, shown⟩ := (mirrors.mapped key idx).mp mapped
  obtain ⟨a, b, rfl⟩ := List.append_of_mem mem
  have entries := mirrors.entries
  rw [List.map_append, List.map_cons, shown] at entries
  obtain ⟨la, rest, rfl, front, back⟩ := List.map_eq_append_iff.mp entries.symm
  obtain ⟨e, lb, rfl, here, rest⟩ := List.map_eq_cons_iff.mp back
  obtain rfl := some.inj here
  exact ⟨a, b, la, lb, v, rfl, rfl, front.symm, rest.symm, shown⟩

theorem Mirrors.absent (mirrors : Mirrors c l slots) (unmapped : c.map.lookup key = none) :
    ∀ e ∈ l, e.1 ≠ key := by
  rintro ⟨k, v⟩ mem rfl
  have shown : some (k, v) ∈ slots.map c.entry := by
    rw [mirrors.entries]
    exact List.mem_map_of_mem mem
  obtain ⟨idx, at_idx, entry⟩ := List.mem_map.mp shown
  have mapped := (mirrors.mapped k idx).mpr ⟨at_idx, v, entry⟩
  rw [unmapped] at mapped
  cases mapped

omit [DecidableEq K] in
theorem node_eq_none : c.node idx = none ↔ c.entry idx = none := by
  rw [entry, map_eq_none_iff]

omit [DecidableEq K] in
theorem Recycles.congr (recycles : Recycles c) (free : c'.free = c.free)
    (length : c'.slots.length = c.slots.length) (entry : ∀ idx, c'.entry idx = c.entry idx) :
    Recycles c' := by
  refine ⟨by rw [free]; exact recycles.nodup, fun idx => ?_⟩
  rw [free, length, node_eq_none, entry, ← node_eq_none]
  exact recycles.free idx

omit [DecidableEq K] in
theorem entry_of_node {n : Node K V} (found : c.node idx = some n) :
    c.entry idx = some (n.key, n.value) := by
  rw [entry, found, map_some]

omit [DecidableEq K] in
theorem node_of_entry (shown : c.entry idx = some (key, value)) :
    ∃ n, c.node idx = some n ∧ n.key = key ∧ n.value = value := by
  obtain ⟨n, found, pair⟩ := map_eq_some_iff.mp shown
  exact ⟨n, found, congrArg Prod.fst pair, congrArg Prod.snd pair⟩

/-- Another order of the same pairs. -/
theorem Mirrors.reorder {l' : List (K × V)} {slots' : List Nat} (mirrors : Mirrors c l slots)
    (relinked : Relinked c c') (chain : Chain c' slots') (perm : slots'.Perm slots)
    (same : l'.Perm l) (entries : slots'.map c.entry = l'.map some) : Mirrors c' l' slots' := by
  refine ⟨chain, ?_, ?_, fun key idx => ?_,
    mirrors.recycles.congr relinked.free relinked.length relinked.entry, fun idx n found => ?_,
    ?_, ?_⟩
  · rw [← entries]
    exact List.map_congr_left fun idx _ => relinked.entry idx
  · exact (same.map Prod.fst).nodup_iff.mpr mirrors.keys
  · rw [relinked.map, relinked.entry, mirrors.mapped, perm.mem_iff]
  · have shown := entry_of_node found
    rw [relinked.entry] at shown
    obtain ⟨n', found', -⟩ := node_of_entry shown
    exact perm.mem_iff.mpr (mirrors.occupied idx n' found')
  · rw [len, relinked.map, same.length_eq]
    exact mirrors.count
  · rw [same.length_eq, relinked.capacity]
    exact mirrors.room

/-- A used key goes to the front. -/
theorem Mirrors.moveToHead (mirrors : Mirrors c l slots) (mapped : c.map.lookup key = some idx) :
    ∃ c' v slots' n, c.moveToHead idx = some c' ∧ Recency.find l key = some v ∧
      Mirrors c' ((key, v) :: Recency.without l key) slots' ∧ c'.capacity = c.capacity ∧
      c'.node idx = some n ∧ n.value = v := by
  obtain ⟨a, b, la, lb, v, rfl, rfl, front, back, shown⟩ := mirrors.place mapped
  obtain ⟨c', moved, chain, relinked⟩ := moveToHead_spec mirrors.chain
  obtain ⟨found, rest, -⟩ := Recency.middle_spec mirrors.keys
  obtain ⟨n, at_idx, -, same⟩ := node_of_entry ((relinked.entry idx).trans shown)
  refine ⟨c', v, idx :: (a ++ b), n, moved, found, ?_, relinked.capacity, at_idx, same⟩
  rw [rest]
  refine mirrors.reorder relinked chain List.perm_middle.symm List.perm_middle.symm ?_
  rw [List.map_cons, List.map_cons, List.map_append, List.map_append, front, back, shown]

/-- A slot of the list is given back, and its key forgotten. -/
theorem Mirrors.release {v : V} (mirrors : Mirrors c (la ++ (key, v) :: lb) (a ++ idx :: b))
    (front : a.map c.entry = la.map some) (back : b.map c.entry = lb.map some)
    (shown : c.entry idx = some (key, v)) :
    ∃ c1 n c', { c with map := c.map.erase key }.unlink idx = some c1 ∧
      c1.takeNode idx = some (n, c') ∧ n.key = key ∧ n.value = v ∧
      Mirrors c' (la ++ lb) (a ++ b) ∧ c'.capacity = c.capacity ∧ c'.map = c.map.erase key := by
  have chain0 : Chain { c with map := c.map.erase key } (a ++ idx :: b) :=
    mirrors.chain.congr (fun _ _ => rfl) rfl rfl
  obtain ⟨c1, unlinked, chain1, relinked, -⟩ := unlink_spec chain0
  obtain ⟨n, found, same_key, same_value⟩ := node_of_entry ((relinked.entry idx).trans shown)
  obtain ⟨c', taken, nodes, length, free, frame⟩ := takeNode_spec found
  have nodup := mirrors.chain.nodup
  obtain ⟨not_mem, -⟩ := List.nodup_cons.mp (List.nodup_middle.mp nodup)
  have entries (j : Nat) : c'.entry j = if j = idx then none else c.entry j := by
    rw [entry, nodes]
    split
    · rfl
    · exact relinked.entry j
  have kept {l : List Nat} (sub : ∀ j ∈ l, j ∈ a ++ b) : l.map c'.entry = l.map c.entry := by
    refine List.map_congr_left fun j mem => ?_
    rw [entries, if_neg]
    rintro rfl
    exact not_mem (sub j mem)
  have map' : c'.map = c.map.erase key := by rw [frame]; exact relinked.map
  have keyed : c.map.lookup key = some idx := (mirrors.mapped key idx).mpr ⟨by simp, v, shown⟩
  refine ⟨c1, n, c', unlinked, taken, same_key, same_value,
    ⟨?_, ?_, ?_, fun k j => ?_, ⟨?_, fun j => ?_⟩, fun j m at_j => ?_, ?_, ?_⟩, ?_, map'⟩
  · refine chain1.congr (fun j mem => ?_) (by rw [frame]) (by rw [frame])
    have other : j ≠ idx := by
      rintro rfl
      exact not_mem mem
    rw [link, nodes, if_neg other, link]
  · rw [List.map_append, List.map_append, kept fun j mem => List.mem_append_left b mem,
      kept fun j mem => List.mem_append_right a mem, front, back]
  · refine mirrors.keys.sublist (List.Sublist.map Prod.fst ?_)
    exact (List.Sublist.refl la).append (List.sublist_cons_self _ lb)
  · rw [map', entries]
    by_cases same : k = key
    · subst same
      refine iff_of_false (by simp) ?_
      rintro ⟨mem, w, at_j⟩
      split at at_j
      · cases at_j
      · rename_i other
        have keyed' := (mirrors.mapped k j).mpr ⟨by
          rw [List.mem_append] at mem ⊢
          exact mem.imp_right (List.mem_cons_of_mem idx), w, at_j⟩
        exact other (some.inj (keyed'.symm.trans keyed))
    · rw [lookup_erase_ne same, mirrors.mapped]
      constructor
      · rintro ⟨mem, w, at_j⟩
        have other : j ≠ idx := by
          rintro rfl
          rw [shown] at at_j
          exact same (Prod.mk.inj (some.inj at_j)).1.symm
        refine ⟨?_, w, by rw [if_neg other, at_j]⟩
        simpa [other] using mem
      · rintro ⟨mem, w, at_j⟩
        split at at_j
        · cases at_j
        · refine ⟨?_, w, at_j⟩
          rw [List.mem_append] at mem ⊢
          exact mem.imp_right (List.mem_cons_of_mem idx)
  · rw [free, relinked.free]
    refine List.nodup_cons.mpr ⟨fun mem => ?_, mirrors.recycles.nodup⟩
    have empty := ((mirrors.recycles.free idx).mp mem).2
    rw [node_eq_none, shown] at empty
    cases empty
  · have before := mirrors.recycles.free j
    rw [free, relinked.free, List.mem_cons, length, relinked.length, node_eq_none, entries]
    rw [node_eq_none] at before
    split
    · rename_i here
      subst here
      have inside := lt_of_node found
      rw [relinked.length] at inside
      simpa using inside
    · rename_i other
      rw [← before]
      simp [other]
  · rw [nodes] at at_j
    split at at_j
    · cases at_j
    · rename_i other
      obtain ⟨m', found', -⟩ :=
        @node_of_entry K V c j _ _ ((relinked.entry j).symm.trans (entry_of_node at_j))
      simpa [other] using mirrors.occupied j m' found'
  · have there : key ∈ c.map.keys :=
      mem_keys.mpr (lookup_isSome.mp (by rw [keyed]; rfl))
    have count := mirrors.count
    rw [len, List.length_append, List.length_cons] at count
    rw [len, map', keys_erase, List.length_erase_of_mem there, List.length_append]
    omega
  · have room := mirrors.room
    rw [List.length_append, List.length_cons] at room
    have capacity : c'.capacity = c.capacity := by rw [frame]; exact relinked.capacity
    rw [capacity, List.length_append]
    omega
  · rw [frame]
    exact relinked.capacity

/-- A new pair gets a slot and goes to the front. -/
theorem Mirrors.admit (mirrors : Mirrors c l slots) (unmapped : c.map.lookup key = none)
    (space : l.length < c.capacity) (value : V) :
    ∃ idx c1 c2, c.allocNode { key, value, prev := none, next := none } = some (idx, c1) ∧
      c1.pushHead idx = some c2 ∧ c2.capacity = c.capacity ∧
      Mirrors { c2 with map := c2.map.insert key idx } ((key, value) :: l) (idx :: slots) := by
  obtain ⟨idx, c1, alloc, empty, nodes, recycles, frame⟩ :=
    allocNode_spec mirrors.recycles { key, value, prev := none, next := none }
  have new : idx ∉ slots := fun mem => by
    obtain ⟨n, found⟩ := mirrors.chain.node_mem mem
    rw [empty] at found
    cases found
  have away {j : Nat} (mem : j ∈ slots) : j ≠ idx := by
    rintro rfl
    exact new mem
  have chain1 : Chain c1 slots :=
    mirrors.chain.congr (fun j mem => by rw [link, nodes, if_neg (away mem), link])
      (by rw [frame]) (by rw [frame])
  obtain ⟨c2, pushed, chain2, relinked⟩ :=
    pushHead_spec chain1 ⟨_, (nodes idx).trans (if_pos rfl)⟩ new
  have entries (j : Nat) : c2.entry j = if j = idx then some (key, value) else c.entry j := by
    rw [relinked.entry, entry, nodes]
    split <;> rfl
  have map₂ : c2.map = c.map := by rw [relinked.map, frame]
  have capacity2 : c2.capacity = c.capacity := by rw [relinked.capacity, frame]
  have not_key : key ∉ c.map := by
    rw [← lookup_isSome, unmapped]
    exact Bool.false_ne_true
  refine ⟨idx, c1, c2, alloc, pushed, capacity2, ⟨chain2.congr (fun _ _ => rfl) rfl rfl, ?_, ?_,
    fun k j => ?_, ?_, fun j n found => ?_, ?_, ?_⟩⟩
  · change c2.entry idx :: slots.map c2.entry = some (key, value) :: l.map some
    rw [entries, if_pos rfl, ← mirrors.entries]
    refine congrArg _ (List.map_congr_left fun j mem => ?_)
    rw [entries, if_neg (away mem)]
  · refine List.nodup_cons.mpr ⟨fun mem => ?_, mirrors.keys⟩
    obtain ⟨e, at_e, same⟩ := List.mem_map.mp mem
    exact mirrors.absent unmapped e at_e same
  · change (c2.map.insert key idx).lookup k = some j ↔ j ∈ idx :: slots ∧
      ∃ v, c2.entry j = some (k, v)
    rw [map₂, entries]
    by_cases same : k = key
    · subst same
      rw [lookup_insert]
      constructor
      · rintro ⟨⟩
        exact ⟨List.mem_cons_self, value, if_pos rfl⟩
      · rintro ⟨mem, v, shown⟩
        split at shown
        · rename_i here
          rw [here]
        · rename_i other
          have there := (mirrors.mapped k j).mpr ⟨List.mem_of_ne_of_mem other mem, v, shown⟩
          rw [unmapped] at there
          cases there
    · rw [lookup_insert_ne same, mirrors.mapped]
      constructor
      · rintro ⟨mem, v, shown⟩
        exact ⟨List.mem_cons_of_mem idx mem, v, by rw [if_neg (away mem), shown]⟩
      · rintro ⟨mem, v, shown⟩
        split at shown
        · exact absurd (Prod.mk.inj (some.inj shown)).1.symm same
        · rename_i other
          exact ⟨List.mem_of_ne_of_mem other mem, v, shown⟩
  · exact (recycles.congr relinked.free relinked.length relinked.entry).congr rfl rfl fun _ => rfl
  · have shown := @entry_of_node K V c2 j n found
    rw [entries] at shown
    split at shown
    · rename_i here
      exact here ▸ List.mem_cons_self
    · obtain ⟨n', found', -⟩ := node_of_entry shown
      exact List.mem_cons_of_mem idx (mirrors.occupied j n' found')
  · change (c2.map.insert key idx).keys.length = l.length + 1
    rw [map₂, keys_insert, List.erase_of_not_mem (fun mem => not_key (mem_keys.mp mem)),
      List.length_cons]
    exact congrArg (· + 1) mirrors.count
  · rw [capacity2]
    exact space

/-- The value of a mapped key is replaced where it stands. -/
theorem Mirrors.setValue (mirrors : Mirrors c l slots) (mapped : c.map.lookup key = some idx)
    (value : V) :
    ∃ c' l', (c.nodeMut idx fun node => { node with value }) = some c' ∧ Mirrors c' l' slots ∧
      c'.map = c.map ∧ c'.capacity = c.capacity ∧ (Recency.find l key).isSome ∧
      Recency.find l' key = some value ∧ Recency.without l' key = Recency.without l key := by
  obtain ⟨a, b, la, lb, v, rfl, rfl, front, back, shown⟩ := mirrors.place mapped
  obtain ⟨n, found, same_key, -⟩ := node_of_entry shown
  obtain ⟨c', made, nodes, frame, length⟩ := nodeMut_spec found fun node => { node with value }
  have nodup := mirrors.chain.nodup
  obtain ⟨not_mem, -⟩ := List.nodup_cons.mp (List.nodup_middle.mp nodup)
  have entries (j : Nat) : c'.entry j = if j = idx then some (key, value) else c.entry j := by
    rw [entry, nodes]
    split
    · rw [← same_key]
      rfl
    · rfl
  have kept {l : List Nat} (sub : ∀ j ∈ l, j ∈ a ++ b) : l.map c'.entry = l.map c.entry := by
    refine List.map_congr_left fun j mem => ?_
    rw [entries, if_neg]
    rintro rfl
    exact not_mem (sub j mem)
  have same_keys : (la ++ (key, value) :: lb).map Prod.fst =
      (la ++ (key, v) :: lb).map Prod.fst := by
    simp
  have keys : ((la ++ (key, value) :: lb).map Prod.fst).Nodup := same_keys ▸ mirrors.keys
  obtain ⟨found_old, rest_old, -⟩ := Recency.middle_spec mirrors.keys
  obtain ⟨found_new, rest_new, -⟩ := Recency.middle_spec keys
  have map' : c'.map = c.map := by rw [frame]
  have capacity' : c'.capacity = c.capacity := by rw [frame]
  refine ⟨c', la ++ (key, value) :: lb, made, ⟨?_, ?_, keys, fun k j => ?_, ⟨?_, fun j => ?_⟩,
    fun j m at_j => ?_, ?_, ?_⟩, map', capacity', by rw [found_old]; rfl, found_new,
    rest_new.trans rest_old.symm⟩
  · refine mirrors.chain.congr (fun j _ => ?_) (by rw [frame]) (by rw [frame])
    rw [link, nodes]
    split
    · rename_i here
      rw [here, link, found]
      rfl
    · rfl
  · rw [List.map_append, List.map_cons, List.map_append, List.map_cons,
      kept fun j mem => List.mem_append_left b mem, kept fun j mem => List.mem_append_right a mem,
      front, back, entries, if_pos rfl]
  · rw [map', mirrors.mapped, entries]
    split
    · rename_i here
      subst here
      simp [shown]
    · rfl
  · rw [frame]
    exact mirrors.recycles.nodup
  · have before := mirrors.recycles.free j
    have free : c'.free = c.free := by rw [frame]
    rw [free, before, length, node_eq_none, node_eq_none, entries]
    split
    · rename_i here
      simp [here, shown]
    · rfl
  · rw [nodes] at at_j
    split at at_j
    · rename_i here
      simp [here]
    · exact mirrors.occupied j m at_j
  · have count := mirrors.count
    rw [len] at count ⊢
    rw [map', count, List.length_append, List.length_append]
    rfl
  · have room := mirrors.room
    rw [capacity']
    simpa using room

/-- The last pair of the list goes. -/
theorem Mirrors.evictLru {e : K × V} (mirrors : Mirrors c (l ++ [e]) slots) :
    ∃ c' slots', c.evictLru = some (some e, c') ∧ Mirrors c' l slots' ∧
      c'.map = c.map.erase e.1 ∧ c'.capacity = c.capacity := by
  have entries := mirrors.entries
  rw [List.map_append, List.map_singleton] at entries
  obtain ⟨a, rest, rfl, front, back⟩ := List.map_eq_append_iff.mp entries
  obtain ⟨idx, rest, rfl, shown, none⟩ := List.map_eq_cons_iff.mp back
  obtain rfl := List.map_eq_nil_iff.mp none
  obtain ⟨n, found, same_key, -⟩ := node_of_entry shown
  have tail : c.tail = some idx := by rw [mirrors.chain.tail, List.getLast?_concat]
  obtain ⟨c1, m, c', unlinked, taken, same, same', mirrors', capacity, map⟩ :=
    mirrors.release front rfl shown
  rw [List.append_nil, List.append_nil] at mirrors'
  refine ⟨c', a, ?_, mirrors', map, capacity⟩
  rw [tail] at unlinked
  simp only [LruCache.evictLru, tail, found, same_key, bind_eq_bind, bind_some,
    unlinked, taken, same, same']

theorem Mirrors.unmapped (mirrors : Mirrors c l slots) (none : c.map.lookup key = none) :
    Recency.find l key = Option.none ∧ Recency.without l key = l :=
  Recency.find_eq_none (mirrors.absent none)

theorem Mirrors.get (mirrors : Mirrors c l slots) (capacity : Nat) (key : K) :
    ∃ c' slots', c.step (.get key) = some ((Recency.step capacity l (.get key)).1, c') ∧
      Mirrors c' (Recency.step capacity l (.get key)).2 slots' ∧ c'.capacity = c.capacity := by
  cases mapped : c.map.lookup key with
  | none =>
    refine ⟨c, slots, ?_, ?_, rfl⟩
    · simp only [step, LruCache.get, mapped, Recency.step, (mirrors.unmapped mapped).1,
        map_some]
    · simpa only [Recency.step, (mirrors.unmapped mapped).1] using mirrors
  | some idx =>
    obtain ⟨c', v, slots', n, moved, found, mirrors', same, at_idx, value⟩ :=
      mirrors.moveToHead mapped
    refine ⟨c', slots', ?_, ?_, same⟩
    · simp only [step, LruCache.get, mapped, moved, at_idx, value, bind_eq_bind,
        bind_some, map_some, Recency.step, found]
    · simpa only [Recency.step, found] using mirrors'

theorem Mirrors.remove (mirrors : Mirrors c l slots) (capacity : Nat) (key : K) :
    ∃ c' slots', c.step (.remove key) = some ((Recency.step capacity l (.remove key)).1, c') ∧
      Mirrors c' (Recency.step capacity l (.remove key)).2 slots' ∧ c'.capacity = c.capacity := by
  cases mapped : c.map.lookup key with
  | none =>
    refine ⟨c, slots, ?_, ?_, rfl⟩
    · simp only [step, LruCache.remove, mapped, Recency.step, (mirrors.unmapped mapped).1,
        map_some]
    · simpa only [Recency.step, (mirrors.unmapped mapped).2] using mirrors
  | some idx =>
    obtain ⟨a, b, la, lb, v, rfl, rfl, front, back, shown⟩ := mirrors.place mapped
    obtain ⟨found, rest, -⟩ := Recency.middle_spec mirrors.keys
    obtain ⟨c1, n, c', unlinked, taken, -, value, mirrors', same, -⟩ :=
      mirrors.release front back shown
    refine ⟨c', a ++ b, ?_, ?_, same⟩
    · simp only [step, LruCache.remove, mapped, unlinked, taken, value, bind_eq_bind,
        bind_some, map_some, Recency.step, found]
    · simpa only [Recency.step, rest] using mirrors'

/-- A pair that is there is replaced; else the last pair goes if there is no room. -/
theorem Mirrors.put (mirrors : Mirrors c l slots) (positive : 1 ≤ c.capacity) (key : K)
    (value : V) :
    ∃ c' slots',
      c.step (.put key value) = some ((Recency.step c.capacity l (.put key value)).1, c') ∧
      Mirrors c' (Recency.step c.capacity l (.put key value)).2 slots' ∧
      c'.capacity = c.capacity := by
  cases mapped : c.map.lookup key with
  | some idx =>
    obtain ⟨c1, l1, set, mirrors1, map1, capacity1, known, found1, rest⟩ :=
      mirrors.setValue mapped value
    obtain ⟨c', v, slots', n, moved, found, mirrors', same, -⟩ :=
      mirrors1.moveToHead (by rw [map1]; exact mapped)
    obtain rfl := some.inj (found1.symm.trans found)
    rw [rest] at mirrors'
    refine ⟨c', slots', ?_, ?_, same.trans capacity1⟩
    · simp only [step, LruCache.put, mapped, set, moved, bind_eq_bind, bind_some,
        map_some, Recency.step, known, if_true]
    · simpa only [Recency.step, known, if_true] using mirrors'
  | none =>
    have unknown := (mirrors.unmapped mapped).1
    by_cases full : c.capacity ≤ l.length
    · have some_pair : l ≠ [] := List.ne_nil_of_length_pos (Nat.lt_of_lt_of_le positive full)
      obtain ⟨l', e, rfl⟩ : ∃ l' e, l = l' ++ [e] :=
        ⟨l.dropLast, l.getLast some_pair, (List.dropLast_append_getLast some_pair).symm⟩
      obtain ⟨c1, slots1, evicted, mirrors1, map1, capacity1⟩ := mirrors.evictLru
      have unmapped1 : c1.map.lookup key = none := by
        rw [map1]
        by_cases same : key = e.1
        · rw [same, lookup_erase]
        · rw [lookup_erase_ne same, mapped]
      have space : l'.length < c1.capacity := by
        have room := mirrors.room
        rw [List.length_append, List.length_singleton] at room
        omega
      obtain ⟨idx, c2, c3, alloc, pushed, capacity3, mirrors3⟩ :=
        mirrors1.admit unmapped1 space value
      refine ⟨{ c3 with map := c3.map.insert key idx }, idx :: slots1, ?_, ?_,
        capacity3.trans capacity1⟩
      · simp only [step, LruCache.put, mapped, mirrors.count, full, if_true, evicted, alloc, pushed,
          bind_eq_bind, bind_some, map_some, Recency.step, unknown,
          isSome_none, Bool.false_eq_true, if_false, List.getLast?_concat]
      · simpa only [Recency.step, unknown, isSome_none, Bool.false_eq_true, if_false, full,
          if_true, List.dropLast_concat] using mirrors3
    · obtain ⟨idx, c2, c3, alloc, pushed, capacity3, mirrors3⟩ :=
        mirrors.admit mapped (by omega) value
      refine ⟨{ c3 with map := c3.map.insert key idx }, idx :: slots, ?_, ?_, capacity3⟩
      · simp only [step, LruCache.put, mapped, mirrors.count, full, if_false, alloc, pushed,
          bind_eq_bind, bind_some, map_some, Recency.step, unknown,
          isSome_none, Bool.false_eq_true]
      · simpa only [Recency.step, unknown, isSome_none, Bool.false_eq_true, if_false, full]
          using mirrors3

omit [DecidableEq K] in
/-- The walk from the tail meets the pairs from the last on. -/
theorem tailKeysFrom_spec {after : Option Nat} (seg : Link.Seg c.link none a after)
    (entries : a.map c.entry = l.map some) (k : Nat) :
    c.tailKeysFrom k a.getLast? = some ((l.rtake k).reverse.map Prod.fst) := by
  rw [List.rtake_eq_reverse_take_reverse, List.reverse_reverse]
  induction a using List.reverseRecOn generalizing l k after with
  | nil =>
    obtain rfl := List.map_eq_nil_iff.mp entries.symm
    cases k <;> rfl
  | append_singleton a idx ih =>
    rw [List.map_append] at entries
    obtain ⟨la, rest, rfl, front, back⟩ := List.map_eq_append_iff.mp entries.symm
    obtain ⟨⟨key, v⟩, rest, rfl, shown, none⟩ := List.map_eq_cons_iff.mp back
    obtain rfl := List.map_eq_nil_iff.mp none
    obtain ⟨seg, at_idx, -⟩ := Link.seg_middle.mp seg
    obtain ⟨n, found, same_key, -⟩ := node_of_entry shown.symm
    obtain ⟨n', found', links⟩ := link_eq_some.mp at_idx
    obtain rfl := some.inj (found.symm.trans found')
    have prev : n.prev = a.getLast? := by
      have := congrArg Link.prev links
      rwa [or_none] at this
    rw [List.getLast?_concat, List.reverse_append, List.reverse_singleton, List.singleton_append]
    cases k with
    | zero => rfl
    | succ k =>
      simp only [tailKeysFrom, found, bind_eq_bind, bind_some, prev,
        ih seg front.symm k, same_key, List.take_succ_cons, List.map_cons]

/-- The walk from a slot toward the tail, for at most `k` keys. -/
def headKeysFrom (c : LruCache K V) : Nat → Option Nat → Option (List K)
  | 0, _ => some []
  | _ + 1, none => some []
  | k + 1, some idx => do
    let node ← c.node idx
    let keys ← headKeysFrom c k node.next
    some (node.key :: keys)

omit [DecidableEq K] in
theorem headKeysFrom_spec {before : Option Nat} (seg : Link.Seg c.link before a none)
    (entries : a.map c.entry = l.map some) (k : Nat) :
    c.headKeysFrom k a.head? = some ((l.take k).map Prod.fst) := by
  induction a generalizing l k before with
  | nil =>
    obtain rfl := List.map_eq_nil_iff.mp entries.symm
    cases k <;> rfl
  | cons idx a ih =>
    rw [List.map_cons] at entries
    obtain ⟨⟨key, v⟩, lb, rfl, shown, back⟩ := List.map_eq_cons_iff.mp entries.symm
    obtain ⟨at_idx, seg⟩ := seg
    obtain ⟨n, found, same_key, -⟩ := node_of_entry shown.symm
    obtain ⟨n', found', links⟩ := link_eq_some.mp at_idx
    obtain rfl := some.inj (found.symm.trans found')
    have next : n.next = a.head? := by
      have := congrArg Link.next links
      rwa [or_none] at this
    rw [List.head?_cons]
    cases k with
    | zero => rfl
    | succ k =>
      simp only [headKeysFrom, found, bind_eq_bind, bind_some, next,
        ih seg back.symm k, same_key, List.take_succ_cons, List.map_cons]

theorem Mirrors.step (mirrors : Mirrors c l slots) (positive : 1 ≤ c.capacity)
    (call : LruCall K V) :
    ∃ c' slots', c.step call = some ((Recency.step c.capacity l call).1, c') ∧
      Mirrors c' (Recency.step c.capacity l call).2 slots' ∧ c'.capacity = c.capacity := by
  cases call with
  | get key => exact mirrors.get c.capacity key
  | put key value => exact mirrors.put positive key value
  | remove key => exact mirrors.remove c.capacity key
  | lruTailKeys k =>
    refine ⟨c, slots, ?_, mirrors, rfl⟩
    have walk := tailKeysFrom_spec mirrors.chain.seg mirrors.entries k
    rw [← mirrors.chain.tail] at walk
    simp only [LruCache.step, lruTailKeys, walk, map_some, Recency.step]

theorem Mirrors.exec (mirrors : Mirrors c l slots) (positive : 1 ≤ c.capacity)
    (calls : List (LruCall K V)) :
    ∃ c' slots', c.exec calls = some ((Recency.exec c.capacity l calls).1, c') ∧
      Mirrors c' (Recency.exec c.capacity l calls).2 slots' ∧ c'.capacity = c.capacity := by
  induction calls generalizing c l slots with
  | nil => exact ⟨c, slots, rfl, mirrors, rfl⟩
  | cons call calls ih =>
    obtain ⟨c1, slots1, first, mirrors1, capacity1⟩ := mirrors.step positive call
    obtain ⟨c', slots', rest, mirrors', capacity'⟩ := ih mirrors1 (capacity1 ▸ positive)
    rw [capacity1] at rest mirrors'
    refine ⟨c', slots', ?_, mirrors', capacity'.trans capacity1⟩
    simp only [LruCache.exec, first, rest, bind_eq_bind, bind_some, Recency.exec]

/-- The map has the keys of the list. -/
theorem Mirrors.perm_keys (mirrors : Mirrors c l slots) : (l.map Prod.fst).Perm c.map.keys := by
  refine (List.perm_ext_iff_of_nodup mirrors.keys c.map.keys_nodup).mpr fun key => ?_
  rw [← mem_keys, ← lookup_isSome]
  constructor
  · intro mem
    obtain ⟨e, at_e, rfl⟩ := List.mem_map.mp mem
    by_contra none
    exact mirrors.absent (not_isSome_iff_eq_none.mp none) e at_e rfl
  · intro known
    obtain ⟨idx, mapped⟩ := isSome_iff_exists.mp known
    obtain ⟨a, b, la, lb, v, -, rfl, -⟩ := mirrors.place mapped
    simp

/-- Every sequence of calls has the answers of the recency list, no free slot is used, and the
walks in both directions meet the keys of the map. -/
theorem recency_list (capacity : Nat) (positive : 1 ≤ capacity) (calls : List (LruCall K V)) :
    ∃ c, (new capacity).exec calls = some ((Recency.exec capacity [] calls).1, c) ∧
      ∃ l, (Recency.exec capacity [] calls).2 = l ∧ l.length ≤ capacity ∧ c.len = l.length ∧
        (l.map Prod.fst).Perm c.map.keys ∧
        ∀ k, c.len ≤ k → c.headKeysFrom k c.head = some (l.map Prod.fst) ∧
          c.tailKeysFrom k c.tail = some (l.map Prod.fst).reverse := by
  obtain ⟨c, slots, replies, mirrors, same⟩ := (mirrors_new capacity).exec positive calls
  have room := mirrors.room
  rw [show c.capacity = capacity from same] at room
  refine ⟨c, replies, _, rfl, room, mirrors.count, mirrors.perm_keys, fun k all => ?_⟩
  rw [mirrors.count] at all
  constructor
  · have walk := headKeysFrom_spec mirrors.chain.seg mirrors.entries k
    rwa [← mirrors.chain.head, List.take_of_length_le all] at walk
  · have walk := tailKeysFrom_spec mirrors.chain.seg mirrors.entries k
    rwa [← mirrors.chain.tail, List.rtake_eq_reverse_take_reverse, List.reverse_reverse,
      List.take_of_length_le (by rw [List.length_reverse]; exact all), List.map_reverse] at walk

/-- With two places, the third key takes the place of the one not used since. -/
theorem third_key_evicts_second : 1 ≤ 2 ∧ ∃ c, (new 2 : LruCache Nat Nat).exec
      [.put 1 10, .put 2 20, .get 1, .put 3 30, .lruTailKeys 5] =
        some ([.evicted none, .evicted none, .value (some 10), .evicted (some (2, 20)),
          .keys [1, 3]], c) ∧
      ∃ l, l = [(3, 30), (1, 10)] ∧ l.length ≤ 2 ∧ c.len = l.length ∧
        (l.map Prod.fst).Perm c.map.keys ∧
        ∀ k, c.len ≤ k → c.headKeysFrom k c.head = some (l.map Prod.fst) ∧
          c.tailKeysFrom k c.tail = some (l.map Prod.fst).reverse := by
  obtain ⟨c, replies, l, same, facts⟩ :=
    @recency_list Nat Nat _ 2 (by decide) [.put 1 10, .put 2 20, .get 1, .put 3 30, .lruTailKeys 5]
  exact ⟨by decide, c, replies, l, same.symm, facts⟩

end Mirrors

end LruCache

end GalaxDb.BufferPool
