import GalaxDb.Lib.Links
import Mathlib.Data.List.AList

/-!
# The LRU cache

A map from keys to the slots of an arena, whose occupied slots are linked from the most to the
least recently used, and a stack of free slots. A use of a free slot or of an index out of range
ends without a result.
-/

namespace GalaxDb.BufferPool

open List Option

universe u

structure Node (K V : Type u) extends Link Nat where
  key : K
  value : V

inductive Slot (K V : Type u) where
  | occupied (node : Node K V)
  | free

/-- The free list has the slot to take first in front. -/
structure LruCache (K V : Type u) where
  capacity : Nat
  map : AList fun _ : K => Nat
  slots : List (Slot K V)
  free : List Nat
  head : Option Nat
  tail : Option Nat

namespace LruCache

variable {K V : Type u}

section Operations

def new (capacity : Nat) : LruCache K V := ⟨capacity, ∅, [], [], none, none⟩

def len (c : LruCache K V) : Nat := c.map.keys.length

/-- The node of an occupied slot. -/
def node (c : LruCache K V) (idx : Nat) : Option (Node K V) :=
  match c.slots[idx]? with
  | some (.occupied node) => some node
  | _ => none

def nodeMut (c : LruCache K V) (idx : Nat) (change : Node K V → Node K V) : Option (LruCache K V) :=
  (c.node idx).map fun node => { c with slots := c.slots.set idx (.occupied (change node)) }

def allocNode (c : LruCache K V) (node : Node K V) : Option (Nat × LruCache K V) :=
  match c.free with
  | idx :: rest =>
    if idx < c.slots.length then
      some (idx, { c with free := rest, slots := c.slots.set idx (.occupied node) })
    else none
  | [] => some (c.slots.length, { c with slots := c.slots ++ [.occupied node] })

def takeNode (c : LruCache K V) (idx : Nat) : Option (Node K V × LruCache K V) :=
  (c.node idx).map fun node =>
    (node, { c with slots := c.slots.set idx .free, free := idx :: c.free })

/-- The link to before of a node, if there is one. -/
def setPrev (c : LruCache K V) (idx prev : Option Nat) : Option (LruCache K V) :=
  match idx with
  | some idx => c.nodeMut idx fun node => { node with prev }
  | none => some c

def setNext (c : LruCache K V) (idx next : Option Nat) : Option (LruCache K V) :=
  match idx with
  | some idx => c.nodeMut idx fun node => { node with next }
  | none => some c

def pushHead (c : LruCache K V) (idx : Nat) : Option (LruCache K V) := do
  let c ← c.setPrev (some idx) none
  let c ← c.setNext (some idx) c.head
  let c ← c.setPrev c.head (some idx)
  some { c with head := some idx, tail := c.tail.or (some idx) }

/-- The end of the list moves where there is no neighbour. -/
def unlink (c : LruCache K V) (idx : Nat) : Option (LruCache K V) := do
  let node ← c.node idx
  let c ← c.setNext node.prev node.next
  let c := { c with head := if node.prev.isNone then node.next else c.head }
  let c ← c.setPrev node.next node.prev
  let c := { c with tail := if node.next.isNone then node.prev else c.tail }
  let c ← c.setPrev (some idx) none
  c.setNext (some idx) none

def moveToHead (c : LruCache K V) (idx : Nat) : Option (LruCache K V) :=
  if c.head = some idx then some c else (c.unlink idx).bind fun c => c.pushHead idx

variable [DecidableEq K]

def evictLru (c : LruCache K V) : Option (Option (K × V) × LruCache K V) :=
  match c.tail with
  | none => some (none, c)
  | some idx => do
    let key := (← c.node idx).key
    let c ← { c with map := c.map.erase key }.unlink idx
    let (node, c) ← c.takeNode idx
    some (some (node.key, node.value), c)

def get (c : LruCache K V) (key : K) : Option (Option V × LruCache K V) :=
  match c.map.lookup key with
  | none => some (none, c)
  | some idx => do
    let c ← c.moveToHead idx
    let node ← c.node idx
    some (some node.value, c)

def put (c : LruCache K V) (key : K) (value : V) : Option (Option (K × V) × LruCache K V) :=
  match c.map.lookup key with
  | some idx => do
    let c ← c.nodeMut idx fun node => { node with value }
    let c ← c.moveToHead idx
    some (none, c)
  | none => do
    let (evicted, c) ← if c.capacity ≤ c.len then c.evictLru else some (none, c)
    let (idx, c) ← c.allocNode { key, value, prev := none, next := none }
    let c ← c.pushHead idx
    some (evicted, { c with map := c.map.insert key idx })

def remove (c : LruCache K V) (key : K) : Option (Option V × LruCache K V) :=
  match c.map.lookup key with
  | none => some (none, c)
  | some idx => do
    let c ← { c with map := c.map.erase key }.unlink idx
    let (node, c) ← c.takeNode idx
    some (some node.value, c)

/-- The walk of `lru_tail_keys` from a slot on, for at most `k` keys. -/
def tailKeysFrom (c : LruCache K V) : Nat → Option Nat → Option (List K)
  | 0, _ => some []
  | _ + 1, none => some []
  | k + 1, some idx => do
    let node ← c.node idx
    let keys ← tailKeysFrom c k node.prev
    some (node.key :: keys)

def lruTailKeys (c : LruCache K V) (k : Nat) : Option (List K) := c.tailKeysFrom k c.tail

end Operations

section Views

variable {c c' : LruCache K V} {idx : Nat}

/-- The links of a slot. -/
def link (c : LruCache K V) (idx : Nat) : Option (Link Nat) := (c.node idx).map Node.toLink

/-- The key and the value of a slot. -/
def entry (c : LruCache K V) (idx : Nat) : Option (K × V) :=
  (c.node idx).map fun node => (node.key, node.value)

/-- A change of links alone. -/
structure Relinked (c c' : LruCache K V) : Prop where
  capacity : c'.capacity = c.capacity
  map : c'.map = c.map
  free : c'.free = c.free
  length : c'.slots.length = c.slots.length
  entry : ∀ idx, c'.entry idx = c.entry idx

theorem Relinked.refl (c : LruCache K V) : Relinked c c := ⟨rfl, rfl, rfl, rfl, fun _ => rfl⟩

theorem Relinked.trans {c'' : LruCache K V} (first : Relinked c c') (second : Relinked c' c'') :
    Relinked c c'' where
  capacity := second.capacity.trans first.capacity
  map := second.map.trans first.map
  free := second.free.trans first.free
  length := second.length.trans first.length
  entry idx := (second.entry idx).trans (first.entry idx)

variable {n : Node K V}

theorem lt_of_node (found : c.node idx = some n) : idx < c.slots.length := by
  by_contra outside
  rw [node, getElem?_eq_none (Nat.le_of_not_lt outside)] at found
  cases found

/-- The nodes after one slot was set. -/
theorem node_set {slot : Slot K V} (inside : idx < c.slots.length) (j : Nat) :
    node { c with slots := c.slots.set idx slot } j = if j = idx then
        match slot with
        | .occupied n => some n
        | .free => none
      else c.node j := by
  rw [node]
  by_cases here : j = idx
  · subst here
    simp only [getElem?_set_self inside, if_true]
    cases slot <;> rfl
  · simp only [getElem?_set_ne (Ne.symm here), if_neg here]
    rfl

theorem nodeMut_spec (found : c.node idx = some n) (change : Node K V → Node K V) :
    ∃ c', c.nodeMut idx change = some c' ∧
      (∀ j, c'.node j = if j = idx then some (change n) else c.node j) ∧
      c' = { c with slots := c'.slots } ∧ c'.slots.length = c.slots.length := by
  refine ⟨_, by rw [nodeMut, found]; rfl, fun j => node_set (lt_of_node found) j, rfl,
    length_set⟩

theorem link_eq_some {k : Link Nat} : c.link idx = some k ↔
    ∃ n, c.node idx = some n ∧ n.toLink = k := by
  rw [link, map_eq_some_iff]

theorem setPrev_spec (target prev : Option Nat) (there : ∀ i ∈ target, ∃ n, c.node i = some n) :
    ∃ c', c.setPrev target prev = some c' ∧ c'.link = Link.setPrev c.link target prev ∧
      Relinked c c' ∧ c'.head = c.head ∧ c'.tail = c.tail := by
  cases target with
  | none => exact ⟨c, rfl, rfl, Relinked.refl c, rfl, rfl⟩
  | some i =>
    obtain ⟨n, found⟩ := there i rfl
    obtain ⟨c', made, nodes, frame, length⟩ := nodeMut_spec found fun node => { node with prev }
    refine ⟨c', made, funext fun j => ?_, ⟨by rw [frame], by rw [frame], by rw [frame], length,
      fun j => ?_⟩, by rw [frame], by rw [frame]⟩
    · rw [link, nodes, Link.setPrev, Function.update_apply]
      split
      · rw [link, found]
        rfl
      · rfl
    · rw [entry, nodes, entry]
      split
      · rename_i here
        rw [here, found]
        rfl
      · rfl

theorem setNext_spec (target next : Option Nat) (there : ∀ i ∈ target, ∃ n, c.node i = some n) :
    ∃ c', c.setNext target next = some c' ∧ c'.link = Link.setNext c.link target next ∧
      Relinked c c' ∧ c'.head = c.head ∧ c'.tail = c.tail := by
  cases target with
  | none => exact ⟨c, rfl, rfl, Relinked.refl c, rfl, rfl⟩
  | some i =>
    obtain ⟨n, found⟩ := there i rfl
    obtain ⟨c', made, nodes, frame, length⟩ := nodeMut_spec found fun node => { node with next }
    refine ⟨c', made, funext fun j => ?_, ⟨by rw [frame], by rw [frame], by rw [frame], length,
      fun j => ?_⟩, by rw [frame], by rw [frame]⟩
    · rw [link, nodes, Link.setNext, Function.update_apply]
      split
      · rw [link, found]
        rfl
      · rfl
    · rw [entry, nodes, entry]
      split
      · rename_i here
        rw [here, found]
        rfl
      · rfl

theorem Relinked.node (relinked : Relinked c c') (found : ∃ n, c.node idx = some n) :
    ∃ n, c'.node idx = some n := by
  obtain ⟨n, found⟩ := found
  have shown := relinked.entry idx
  rw [LruCache.entry, LruCache.entry, found, map_some, map_eq_some_iff] at shown
  obtain ⟨n', found', -⟩ := shown
  exact ⟨n', found'⟩

end Views

section Lists

variable {c c' : LruCache K V} {idx : Nat} {l a b : List Nat}

/-- The occupied slots of the list, from the most to the least recently used. -/
structure Chain (c : LruCache K V) (l : List Nat) : Prop where
  seg : Link.Seg c.link none l none
  nodup : l.Nodup
  head : c.head = l.head?
  tail : c.tail = l.getLast?

theorem Chain.node_middle (chain : Chain c (a ++ idx :: b)) :
    ∃ n, c.node idx = some n ∧ n.prev = a.getLast? ∧ n.next = b.head? := by
  obtain ⟨-, at_idx, -⟩ := Link.seg_middle.mp chain.seg
  obtain ⟨n, found, same⟩ := link_eq_some.mp at_idx
  rw [or_none, or_none] at same
  exact ⟨n, found, congrArg Link.prev same, congrArg Link.next same⟩

theorem Chain.node_mem (chain : Chain c l) (mem : idx ∈ l) : ∃ n, c.node idx = some n := by
  obtain ⟨a, b, rfl⟩ := append_of_mem mem
  obtain ⟨n, found, -⟩ := chain.node_middle
  exact ⟨n, found⟩

/-- A list does not see the other slots. -/
theorem Chain.congr (chain : Chain c l) (same : ∀ i ∈ l, c'.link i = c.link i)
    (head : c'.head = c.head) (tail : c'.tail = c.tail) : Chain c' l :=
  ⟨chain.seg.congr same, chain.nodup, head.trans chain.head, tail.trans chain.tail⟩

/-- Both links of a slot that is in no list are cleared. -/
theorem clear_spec (there : ∃ n, c.node idx = some n) :
    ∃ c', ((c.setPrev (some idx) none).bind fun c => c.setNext (some idx) none) = some c' ∧
      (∀ j, j ≠ idx → c'.link j = c.link j) ∧ c'.link idx = some ⟨none, none⟩ ∧ Relinked c c' ∧
      c'.head = c.head ∧ c'.tail = c.tail := by
  obtain ⟨n, found⟩ := there
  have at_idx : c.link idx = some n.toLink := by rw [link, found]; rfl
  obtain ⟨c1, set1, link1, kept1, head1, tail1⟩ := @setPrev_spec K V c (some idx) none
    fun i mem => ⟨n, some.inj mem ▸ found⟩
  obtain ⟨c2, set2, link2, kept2, head2, tail2⟩ := @setNext_spec K V c1 (some idx) none
    fun i mem => some.inj mem ▸ kept1.node ⟨n, found⟩
  refine ⟨c2, by rw [set1]; exact set2, fun j other => ?_, ?_, kept1.trans kept2,
    head2.trans head1, tail2.trans tail1⟩
  · have away : some idx ≠ some j := fun same => other (some.inj same).symm
    rw [link2, Link.setNext_of_ne away, link1, Link.setPrev_of_ne away]
  · rw [link2, link1]
    simp [Link.setNext, Link.setPrev, at_idx]

/-- The neighbours of a slot get linked, and the slot has no links. -/
theorem unlink_spec (chain : Chain c (a ++ idx :: b)) :
    ∃ c', c.unlink idx = some c' ∧ Chain c' (a ++ b) ∧ Relinked c c' ∧
      c'.link idx = some ⟨none, none⟩ := by
  obtain ⟨n, found, prev, next⟩ := chain.node_middle
  obtain ⟨nodup_a, nodup_b, apart⟩ := nodup_append.mp chain.nodup
  obtain ⟨not_b, nodup_b⟩ := nodup_cons.mp nodup_b
  have not_a : idx ∉ a := fun mem => apart idx mem idx mem_cons_self rfl
  obtain ⟨c1, set1, link1, kept1, head1, tail1⟩ := @setNext_spec K V c n.prev n.next fun i mem => by
      rw [prev] at mem
      exact chain.node_mem (mem_append_left _ (mem_of_getLast? mem))
  obtain ⟨c2, set2, link2, kept2, head2, tail2⟩ :=
    @setPrev_spec K V { c1 with head := if n.prev.isNone then n.next else c1.head } n.next n.prev
      fun i mem => by
        rw [next] at mem
        exact kept1.node (chain.node_mem
          (mem_append_right _ (mem_cons_of_mem _ (mem_of_head? mem))))
  have kept : Relinked c { c2 with tail := if n.next.isNone then n.prev else c2.tail } :=
    ⟨kept2.capacity.trans kept1.capacity, kept2.map.trans kept1.map,
      kept2.free.trans kept1.free, kept2.length.trans kept1.length,
      fun j => (kept2.entry j).trans (kept1.entry j)⟩
  obtain ⟨c3, cleared, others, at_idx, kept3, head3, tail3⟩ :=
    @clear_spec K V { c2 with tail := if n.next.isNone then n.prev else c2.tail } idx
      (kept.node ⟨n, found⟩)
  refine ⟨c3, ?_, ⟨?_, ?_, ?_, ?_⟩, kept.trans kept3, at_idx⟩
  · simp only [unlink, found, bind_eq_bind, bind_some, set1, set2]
    exact cleared
  · refine (chain.seg.unlink chain.nodup).congr fun x mem => ?_
    have other : x ≠ idx := by
      rintro rfl
      exact (mem_append.mp mem).elim not_a not_b
    rw [others x other, ← prev, ← next, ← link1]
    exact congrFun link2 x
  · exact nodup_append.mpr ⟨nodup_a, nodup_b,
      fun x mem y mem' => apart x mem y (mem_cons_of_mem _ mem')⟩
  · rw [head3]
    rw [head2]
    rw [head1, chain.head, prev, next]
    cases a with
    | nil => rfl
    | cons x a => simp [getLast?_cons]
  · rw [tail3]
    rw [tail2]
    rw [tail1, chain.tail, prev, next]
    cases b with
    | nil => simp
    | cons x b => simp [getLast?_append, getLast?_cons]

/-- An occupied slot that is not in the list goes in front. -/
theorem pushHead_spec (chain : Chain c l) (there : ∃ n, c.node idx = some n) (new : idx ∉ l) :
    ∃ c', c.pushHead idx = some c' ∧ Chain c' (idx :: l) ∧ Relinked c c' := by
  obtain ⟨n, found⟩ := there
  have at_idx : c.link idx = some n.toLink := by rw [link, found]; rfl
  obtain ⟨c1, set1, link1, kept1, head1, tail1⟩ := @setPrev_spec K V c (some idx) none
    fun i mem => ⟨n, some.inj mem ▸ found⟩
  obtain ⟨c2, set2, link2, kept2, head2, tail2⟩ := @setNext_spec K V c1 (some idx) c1.head
    fun i mem => some.inj mem ▸ kept1.node ⟨n, found⟩
  have kept := kept1.trans kept2
  have away {j : Nat} (mem : j ∈ l) : some idx ≠ some j :=
    fun same => new (some.inj same ▸ mem)
  have here : c2.link idx = some ⟨none, l.head?⟩ := by
    rw [link2, link1, head1, chain.head]
    simp [Link.setNext, Link.setPrev, at_idx]
  have seg : Link.Seg c2.link none l none := chain.seg.congr fun x mem => by
    rw [link2, Link.setNext_of_ne (away mem), link1, Link.setPrev_of_ne (away mem)]
  have head : c2.head = l.head? := head2.trans (head1.trans chain.head)
  obtain ⟨c3, set3, link3, kept3, -, tail3⟩ := @setPrev_spec K V c2 c2.head (some idx)
    fun i mem => by
      rw [head] at mem
      exact kept.node (chain.node_mem (mem_of_head? mem))
  refine ⟨{ c3 with head := some idx, tail := c3.tail.or (some idx) }, ?_, ⟨?_, ?_, rfl, ?_⟩, ?_⟩
  · simp only [pushHead, bind_eq_bind, set1, bind_some, set2, set3]
  · have pushed := seg.push chain.nodup new here
    rw [← head, ← link3] at pushed
    exact pushed
  · exact nodup_cons.mpr ⟨new, chain.nodup⟩
  · rw [tail3, tail2, tail1, chain.tail, getLast?_cons]
    cases l.getLast? <;> rfl
  · have all := kept.trans kept3
    exact ⟨all.capacity, all.map, all.free, all.length, all.entry⟩

theorem moveToHead_spec (chain : Chain c (a ++ idx :: b)) :
    ∃ c', c.moveToHead idx = some c' ∧ Chain c' (idx :: (a ++ b)) ∧ Relinked c c' := by
  rw [moveToHead]
  split
  · rename_i first
    rw [chain.head] at first
    cases a with
    | nil => exact ⟨c, rfl, chain, Relinked.refl c⟩
    | cons x a =>
      obtain rfl : x = idx := by simpa using first
      exact absurd (mem_append_right a mem_cons_self) (nodup_cons.mp chain.nodup).1
  · obtain ⟨c1, unlinked, chain1, kept1, -⟩ := unlink_spec chain
    have new : idx ∉ a ++ b := by
      have middle := nodup_middle.mp chain.nodup
      exact (nodup_cons.mp middle).1
    obtain ⟨n, found, -⟩ := chain.node_middle
    obtain ⟨c2, pushed, chain2, kept2⟩ := pushHead_spec chain1 (kept1.node ⟨n, found⟩) new
    exact ⟨c2, by rw [unlinked]; exact pushed, chain2, kept1.trans kept2⟩

theorem takeNode_spec {n : Node K V} (found : c.node idx = some n) :
    ∃ c', c.takeNode idx = some (n, c') ∧
      (∀ j, c'.node j = if j = idx then none else c.node j) ∧ c'.slots.length = c.slots.length ∧
      c'.free = idx :: c.free ∧ c' = { c with slots := c'.slots, free := c'.free } := by
  refine ⟨_, by rw [takeNode, found]; rfl, fun j => ?_, length_set, rfl, rfl⟩
  exact node_set (lt_of_node found) j

/-- The free list has the slots that are not occupied, each once. -/
structure Recycles (c : LruCache K V) : Prop where
  nodup : c.free.Nodup
  free : ∀ idx, idx ∈ c.free ↔ idx < c.slots.length ∧ c.node idx = none

/-- A node gets a slot that was not occupied. -/
theorem allocNode_spec (recycles : Recycles c) (n : Node K V) :
    ∃ idx c', c.allocNode n = some (idx, c') ∧ c.node idx = none ∧
      (∀ j, c'.node j = if j = idx then some n else c.node j) ∧ Recycles c' ∧
      c' = { c with slots := c'.slots, free := c'.free } := by
  cases free : c.free with
  | cons idx rest =>
    obtain ⟨inside, empty⟩ := (recycles.free idx).mp (free ▸ mem_cons_self)
    obtain ⟨fresh, nodup⟩ := nodup_cons.mp (free ▸ recycles.nodup)
    have nodes (j : Nat) := @node_set K V c idx (.occupied n) inside j
    refine ⟨idx, { c with free := rest, slots := c.slots.set idx (.occupied n) },
      by simp only [allocNode, free, inside, if_true], empty, nodes, ⟨nodup, fun j => ?_⟩, rfl⟩
    have before := recycles.free j
    rw [free, mem_cons] at before
    change j ∈ rest ↔ j < (c.slots.set idx _).length ∧ node { c with slots := _ } j = none
    rw [nodes, length_set]
    split
    · rename_i here
      subst here
      simpa using fresh
    · rename_i other
      rw [← before]
      simp [other]
  | nil =>
    have empty : c.node c.slots.length = none := by simp [node]
    have nodes (j : Nat) : node { c with slots := c.slots ++ [.occupied n] } j =
        if j = c.slots.length then some n else c.node j := by
      rw [node]
      split_ifs with last
      · rw [last]
        simp
      · by_cases inside : j < c.slots.length
        · simp only [getElem?_append_left inside]
          rfl
        · have outside : c.slots.length < j := by omega
          rw [getElem?_eq_none (by rw [length_append]; exact outside), node,
            getElem?_eq_none (Nat.le_of_lt outside)]
    refine ⟨c.slots.length, { c with slots := c.slots ++ [.occupied n] },
      by simp only [allocNode, free], empty, nodes, ⟨recycles.nodup, fun j => ?_⟩, rfl⟩
    have full := recycles.free j
    rw [nodes, length_append, length_singleton, full]
    split
    · rename_i last
      simp [last]
    · exact and_congr_left fun _ => by omega

end Lists

end LruCache

end GalaxDb.BufferPool
