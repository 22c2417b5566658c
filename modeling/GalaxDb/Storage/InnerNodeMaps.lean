import GalaxDb.Storage.InnerNodes
import GalaxDb.Lib.Collect
import Mathlib.Data.List.Perm.Subperm
import Mathlib.Data.Vector.Defs

/-!
# Inner nodes are byte maps

Each of the four layouts holds a map from bytes to children. The sorted arrays list the map
in byte order, so an insertion or a removal splits the list at its byte. The index table
gives every byte of the map a slot of its own and every used slot a byte.
-/

namespace GalaxDb.InnerNodes

open Arrays InnerNode InnerNodes.NodeType Option Function
open List hiding Vector

variable {α : Type} {m : UInt8 → Option α} {b : UInt8} {c : α}

section ByteMaps

/-- The number of bytes present. -/
def size (m : UInt8 → Option α) : Nat := allBytes.countP fun b => (m b).isSome

/-- The part of the map over some bytes, as a list. -/
def listed (m : UInt8 → Option α) (l : List UInt8) : List (UInt8 × α) :=
  l.filterMap fun b => (m b).map (b, ·)

theorem length_listed (m : UInt8 → Option α) (l : List UInt8) :
    (listed m l).length = l.countP fun b => (m b).isSome := by
  induction l with
  | nil => rfl
  | cons x rest ih =>
    rw [countP_cons, ← ih]
    cases here : m x <;> simp [listed, here]

theorem listed_append (m : UInt8 → Option α) (l l' : List UInt8) :
    listed m (l ++ l') = listed m l ++ listed m l' := filterMap_append

variable {l : List UInt8}

theorem listed_cons_of_none (absent : m b = none) : listed m (b :: l) = listed m l := by
  simp [listed, absent]

theorem listed_cons_of_some (present : m b = some c) :
    listed m (b :: l) = (b, c) :: listed m l := by
  simp [listed, present]

theorem listed_update (other : b ∉ l) (v : Option α) :
    listed (update m b v) l = listed m l := by
  refine filterMap_congr ?_
  intro x member
  have apart : x ≠ b := fun same => other (same ▸ member)
  rw [update_of_ne apart]

theorem mem_listed : (b, c) ∈ listed m l ↔ b ∈ l ∧ m b = some c := by
  simp [listed]

/-- A search through the list finds what the map says. -/
theorem lookup_listed (m : UInt8 → Option α) (l : List UInt8) (b : UInt8) :
    (listed m l).lookup b = if b ∈ l then m b else none := by
  induction l with
  | nil => rfl
  | cons x rest ih =>
    by_cases same : b = x
    · subst same
      cases here : m b with
      | none => simp [listed_cons_of_none here, ih, here]
      | some c => simp [listed_cons_of_some here]
    · have other : (b == x) = false := by simpa using same
      cases here : m x with
      | none => simp [listed_cons_of_none here, ih, same]
      | some c => simp [listed_cons_of_some here, lookup_cons, other, ih, same]

theorem mem_allBytes (b : UInt8) : b ∈ allBytes :=
  mem_map.mpr ⟨b.toNat, mem_range.mpr b.toNat_lt, UInt8.ofNat_toNat⟩

theorem allBytes_ordered : allBytes.Pairwise (· < ·) := by
  refine pairwise_map.mpr (pairwise_lt_range.imp_of_mem ?_)
  intro i j hi hj lt
  rw [mem_range] at hi hj
  rw [UInt8.lt_iff_toNat_lt, UInt8.toNat_ofNat_of_lt' hi, UInt8.toNat_ofNat_of_lt' hj]
  exact lt

theorem split_allBytes (b : UInt8) : ∃ below above, allBytes = below ++ b :: above ∧
    (∀ x ∈ below, x < b) ∧ ∀ x ∈ above, b < x := by
  obtain ⟨below, above, split⟩ := append_of_mem (mem_allBytes b)
  have ordered := allBytes_ordered
  rw [split] at ordered
  obtain ⟨_, right, across⟩ := pairwise_append.mp ordered
  exact ⟨below, above, split, fun x hx => across x hx b mem_cons_self,
    fun x hx => (pairwise_cons.mp right).1 x hx⟩

/-- The map in byte order around one byte, whatever is stored under it. -/
theorem listed_around (m : UInt8 → Option α) (b : UInt8) : ∃ below above : List (UInt8 × α),
    (∀ e ∈ below, e.1 < b) ∧ (∀ e ∈ above, b < e.1) ∧ ∀ v, listed (update m b v) allBytes =
      below ++ (v.map (b, ·)).toList ++ above := by
  obtain ⟨below, above, split, lower, upper⟩ := split_allBytes b
  refine ⟨listed m below, listed m above, ?_, ?_, ?_⟩
  · rintro ⟨x, c⟩ member
    exact lower x (mem_listed.mp member).1
  · rintro ⟨x, c⟩ member
    exact upper x (mem_listed.mp member).1
  · intro v
    have notBelow : b ∉ below := fun member => absurd (lower b member) (UInt8.lt_irrefl b)
    have notAbove : b ∉ above := fun member => absurd (upper b member) (UInt8.lt_irrefl b)
    have here : update m b v b = v := update_self b v m
    rw [split, listed_append, listed_update notBelow]
    cases v with
    | none => simp [listed_cons_of_none here, listed_update notAbove]
    | some c => simp [listed_cons_of_some here, listed_update notAbove]

theorem size_eq (m : UInt8 → Option α) : size m = (listed m allBytes).length :=
  (length_listed m allBytes).symm

theorem size_insert (absent : m b = none) (c : α) :
    size (update m b (some c)) = size m + 1 := by
  obtain ⟨below, above, _, _, around⟩ := listed_around m b
  have before := around none
  rw [← absent, update_eq_self, absent] at before
  rw [size_eq, size_eq, around (some c), before]
  simp only [map_some, map_none, toList_some, toList_none,
    length_append, length_cons, length_nil]
  omega

theorem size_remove (present : m b = some c) : size (update m b none) + 1 = size m := by
  have back := @size_insert _ (update m b none) b (update_self ..) c
  rw [update_idem, ← present, update_eq_self] at back
  exact back.symm

theorem size_le (m : UInt8 → Option α) : size m ≤ 256 := by
  have whole : allBytes.length = 256 := by rw [allBytes, length_map, length_range]
  rw [← whole]
  exact countP_le_length

/-- The part of the map over some bytes. -/
def upTo (m : UInt8 → Option α) (l : List UInt8) : UInt8 → Option α :=
  fun b => if b ∈ l then m b else none

theorem size_upTo_le (l : List UInt8) : size (upTo m l) ≤ size m := by
  refine countP_mono_left ?_
  intro x _ present
  by_cases member : x ∈ l
  · simpa [upTo, member] using present
  · simp [upTo, member] at present

theorem upTo_snoc (m : UInt8 → Option α) (l : List UInt8) (b : UInt8) :
    upTo m (l ++ [b]) = update (upTo m l) b (m b) := by
  funext x
  by_cases same : x = b
  · subst same
    simp [upTo]
  · simp [upTo, same]

theorem upTo_allBytes (m : UInt8 → Option α) : upTo m allBytes = m := by
  funext x
  simp [upTo, mem_allBytes]

end ByteMaps

namespace SortedNode

variable {capacity : Nat} {n : SortedNode capacity α} {entries below above : List (UInt8 × α)}

abbrev keysOf (entries : List (UInt8 × α)) : List UInt8 := entries.map Prod.fst

abbrev slotsOf (entries : List (UInt8 × α)) : List (Option α) := entries.map fun e => some e.2

theorem keysOf_append (l l' : List (UInt8 × α)) : keysOf (l ++ l') = keysOf l ++ keysOf l' :=
  map_append

theorem slotsOf_append (l l' : List (UInt8 × α)) : slotsOf (l ++ l') = slotsOf l ++ slotsOf l' :=
  map_append

/-- The arrays list the entries, and the places after them are free. -/
structure Holds (n : SortedNode capacity α) (entries : List (UInt8 × α)) : Prop where
  keys : ∃ tail, n.keys.toList = keysOf entries ++ tail
  children : n.children.toList = slotsOf entries ++ List.replicate (capacity - entries.length) none
  count : n.count = entries.length

theorem Holds.length_le (holds : n.Holds entries) : entries.length ≤ capacity := by
  obtain ⟨tail, keys⟩ := holds.keys
  have total := congrArg List.length keys
  simp only [Vector.length_toList, length_append, length_map] at total
  omega

theorem new_holds : (new capacity : SortedNode capacity α).Holds [] :=
  ⟨⟨_, rfl⟩, by simp [new], rfl⟩

/-- An array that is not full after its front has a place there. -/
theorem exists_place {β : Type} {a : Vector β capacity} {front tail : List β}
    (split : a.toList = front ++ tail) (room : front.length < capacity) :
    ∃ x tail', a.toList = front ++ x :: tail' := by
  cases tail with
  | nil =>
    have total := congrArg List.length split
    simp only [Vector.length_toList, append_nil] at total
    omega
  | cons x tail' => exact ⟨x, tail', split⟩

theorem replicate_place {k : Nat} (room : k < capacity) :
    List.replicate (capacity - k) (none : Option α) =
      none :: List.replicate (capacity - (k + 1)) none := by
  have more : capacity - k = capacity - (k + 1) + 1 := by omega
  rw [more, replicate_succ]

theorem findFrom_eq {done rest : List (UInt8 × α)} {tail : List UInt8} {tail' : List (Option α)}
    (keys : n.keys.toList = keysOf (done ++ rest) ++ tail)
    (children : n.children.toList = slotsOf (done ++ rest) ++ tail') (byte : UInt8) :
    n.findFrom byte done.length rest.length = some (rest.lookup byte) := by
  induction rest generalizing done with
  | nil => rfl
  | cons e rest ih =>
    have keys' : n.keys.toList = keysOf done ++ e.1 :: (keysOf rest ++ tail) := by simp [keys]
    have children' : n.children.toList = slotsOf done ++ some e.2 :: (slotsOf rest ++ tail') := by
      simp [children]
    have key := read_split keys'
    have child := read_split children'
    have later := @ih (done ++ [e]) (by simpa using keys) (by simpa using children)
    simp only [length_map, length_append, length_singleton] at key child later
    obtain ⟨k, c⟩ := e
    rw [length_cons, findFrom, key, child, later, lookup_cons]
    by_cases same : byte = k
    · simp [same]
    · have other : (byte == k) = false := by simpa using same
      simp [Ne.symm same, other]

theorem Holds.findChild (holds : n.Holds entries) (byte : UInt8) :
    n.findChild byte = some (entries.lookup byte) := by
  obtain ⟨tail, keys⟩ := holds.keys
  rw [SortedNode.findChild, holds.count]
  exact @findFrom_eq _ _ n [] entries _ _ keys holds.children byte

section Shifts

variable {ks tail : List UInt8} {cs tail' : List (Option α)} {x z : UInt8} {p q : Option α}

theorem shiftRight_split (keys : n.keys.toList = ks ++ z :: x :: tail)
    (children : n.children.toList = cs ++ p :: q :: tail') (same : cs.length = ks.length) :
    ∃ n', n.shiftRight ks.length = some n' ∧ n'.keys.toList = ks ++ z :: z :: tail ∧
      n'.children.toList = cs ++ q :: p :: tail' ∧ n'.count = n.count := by
  have key := read_split keys
  have keys' : n.keys.toList = (ks ++ [z]) ++ x :: tail := by simp [keys]
  obtain ⟨keys1, stored, split⟩ := store_split z keys'
  obtain ⟨children1, swapped, split'⟩ := swap_split children
  rw [length_append, length_singleton] at stored
  rw [same] at swapped
  refine ⟨⟨keys1, children1, n.count⟩, ?_, by simpa using split, split', rfl⟩
  simp [shiftRight, key, stored, swapped]

theorem shiftLeft_split (keys : n.keys.toList = ks ++ z :: x :: tail)
    (children : n.children.toList = cs ++ p :: q :: tail') (same : cs.length = ks.length) :
    ∃ n', n.shiftLeft ks.length = some n' ∧ n'.keys.toList = ks ++ x :: x :: tail ∧
      n'.children.toList = cs ++ q :: p :: tail' ∧ n'.count = n.count := by
  have keys' : n.keys.toList = (ks ++ [z]) ++ x :: tail := by simp [keys]
  have key := read_split keys'
  obtain ⟨keys1, stored, split⟩ := store_split x keys
  obtain ⟨children1, swapped, split'⟩ := swap_split children
  rw [length_append, length_singleton] at key
  rw [same] at swapped
  refine ⟨⟨keys1, children1, n.count⟩, ?_, split, split', rfl⟩
  simp [shiftLeft, key, stored, swapped]

/-- The shifts to the right, from the last entry down, carry the free place in front. -/
theorem shiftRight_run (keys : n.keys.toList = keysOf below ++ (keysOf above ++ x :: tail))
    (children : n.children.toList = slotsOf below ++ (slotsOf above ++ none :: tail')) :
    ∃ n' y, (List.range' below.length above.length).reverse.foldlM shiftRight n = some n' ∧
      n'.keys.toList = keysOf below ++ y :: (keysOf above ++ tail) ∧
      n'.children.toList = slotsOf below ++ none :: (slotsOf above ++ tail') ∧
      n'.count = n.count := by
  induction above using List.reverseRecOn generalizing n x tail tail' with
  | nil => exact ⟨n, x, rfl, keys, children, rfl⟩
  | append_singleton above e ih =>
    have keys' : n.keys.toList = keysOf (below ++ above) ++ e.1 :: x :: tail := by simp [keys]
    have children' : n.children.toList = slotsOf (below ++ above) ++ some e.2 :: none :: tail' := by
      simp [children]
    obtain ⟨n1, first, split, split', count⟩ := shiftRight_split keys' children' (by simp)
    obtain ⟨n2, y, later, split2, split2', count2⟩ :=
      @ih n1 (e.1 :: tail) (some e.2 :: tail') e.1 (by simp [split]) (by simp [split'])
    simp only [length_map, length_append] at first
    refine ⟨n2, y, ?_, by simp [split2], by simp [split2'], count2.trans count⟩
    rw [length_append, length_singleton, range'_concat, reverse_append]
    simp only [reverse_cons, reverse_nil, nil_append, singleton_append,
      foldlM_cons, one_mul, first]
    exact later

/-- The shifts to the left carry the free place behind the entries. -/
theorem shiftLeft_run (keys : n.keys.toList = keysOf below ++ x :: (keysOf above ++ tail))
    (children : n.children.toList = slotsOf below ++ none :: (slotsOf above ++ tail')) :
    ∃ n' y, (List.range' below.length above.length).foldlM shiftLeft n = some n' ∧
      n'.keys.toList = keysOf (below ++ above) ++ y :: tail ∧
      n'.children.toList = slotsOf (below ++ above) ++ none :: tail' ∧ n'.count = n.count := by
  obtain ⟨n', run, ⟨y, split⟩, split', count⟩ := @exists_foldlM_range _ _ shiftLeft
    (fun s done rest => (∃ y, s.keys.toList = keysOf done ++ y :: (keysOf rest ++ tail)) ∧
      s.children.toList = slotsOf done ++ none :: (slotsOf rest ++ tail') ∧ s.count = n.count)
    (by
      rintro s done e rest ⟨⟨y, split⟩, split', count⟩
      obtain ⟨s', now, after, after', same⟩ :=
        @shiftLeft_split _ _ s _ (keysOf rest ++ tail) _ (slotsOf rest ++ tail') e.1 y none
          (some e.2) split split' (by simp)
      rw [length_map] at now
      exact ⟨s', now, ⟨e.1, by simp [after]⟩, by simp [after'], same.trans count⟩)
    above below n ⟨⟨x, keys⟩, children, rfl⟩
  exact ⟨n', y, run, split, split', count⟩

end Shifts

theorem getD_findIdx? {β : Type} {test : β → Bool} {l l' : List β} (fails : ∀ x ∈ l, test x = false)
    (meets : ∀ x ∈ l', test x = true) : ((l ++ l').findIdx? test).getD (l ++ l').length =
      l.length := by
  rw [← findIdx_eq_getD_findIdx?]
  induction l with
  | nil =>
    cases l' with
    | nil => rfl
    | cons x l' => simp [findIdx_cons, meets x]
  | cons x l ih =>
    have tail := ih fun y member => fails y (mem_cons_of_mem _ member)
    simp [findIdx_cons, fails x, tail]

theorem insertChild_holds (holds : n.Holds (below ++ above)) (lower : ∀ e ∈ below, e.1 < b)
    (upper : ∀ e ∈ above, b < e.1) (room : (below ++ above).length < capacity)
    (small : capacity < 256) (c : α) :
    ∃ n', n.insertChild b c = some n' ∧ n'.Holds (below ++ (b, c) :: above) := by
  obtain ⟨tail, keys⟩ := holds.keys
  have free : n.isFull = false := by
    rw [isFull, holds.count]
    simpa using room
  have used : front n.keys n.count = some (keysOf below ++ keysOf above) := by
    have front := front_split keys
    rwa [length_map, ← holds.count, keysOf_append] at front
  have position : (((keysOf below ++ keysOf above).findIdx? fun k => decide (b < k)).getD
      n.count) = below.length := by
    have found := @getD_findIdx? _ (fun k => decide (b < k)) (keysOf below) (keysOf above)
      (by simpa using fun k x member => UInt8.not_lt.mpr (UInt8.le_of_lt (lower (k, x) member)))
      (by simpa using fun k x member => upper (k, x) member)
    rw [length_append, length_map, length_map] at found
    rw [holds.count, length_append]
    exact found
  obtain ⟨k, tail, keys⟩ := exists_place keys (by simpa using room)
  have children := holds.children
  rw [replicate_place room] at children
  rw [keysOf_append, append_assoc] at keys
  rw [slotsOf_append, append_assoc] at children
  obtain ⟨n1, y, shifted, keys1, children1, count1⟩ := shiftRight_run keys children
  obtain ⟨keys2, storedKey, split⟩ := store_split b keys1
  obtain ⟨children2, storedChild, split'⟩ := store_split (some c) children1
  have more : increment 8 n.count = some (n.count + 1) := if_pos (by rw [holds.count]; omega)
  have steps : n.count - below.length = above.length := by
    rw [holds.count, length_append]
    omega
  rw [length_map] at storedKey storedChild
  refine ⟨⟨keys2, children2, n.count + 1⟩, ?_, ⟨⟨tail, by simp [split]⟩, ?_, ?_⟩⟩
  · simp only [insertChild, free, Bool.false_eq_true, if_false, used, bind_eq_bind,
      bind_some, position, steps, shifted, storedKey, storedChild, count1, more]
  · have length : (below ++ (b, c) :: above).length = (below ++ above).length + 1 := by
      simp only [length_append, length_cons]
      omega
    rw [split', length]
    simp
  · rw [holds.count]
    simp only [length_append, length_cons]
    omega

theorem removeChild_holds (holds : n.Holds (below ++ (b, c) :: above))
    (lower : ∀ e ∈ below, e.1 < b) :
    ∃ n', n.removeChild b = some n' ∧ n'.Holds (below ++ above) := by
  obtain ⟨tail, keys⟩ := holds.keys
  have room := holds.length_le
  have total : (below ++ (b, c) :: above).length = (below ++ above).length + 1 := by
    simp only [length_append, length_cons]
    omega
  have used : front n.keys n.count = some (keysOf below ++ b :: keysOf above) := by
    have front := front_split keys
    rwa [length_map, ← holds.count, keysOf_append] at front
  have position : (keysOf below ++ b :: keysOf above).findIdx? (fun k => decide (k = b)) =
      some below.length := by
    have none_below : (keysOf below).findIdx? (fun k => decide (k = b)) = none := by
      rw [findIdx?_eq_none_iff]
      intro k member
      obtain ⟨e, inside, rfl⟩ := mem_map.mp member
      exact decide_eq_false fun same => UInt8.lt_irrefl b (same ▸ lower e inside)
    simp [findIdx?_append, none_below, findIdx?_cons]
  have children := holds.children
  rw [keysOf_append, append_assoc] at keys
  rw [slotsOf_append, append_assoc] at children
  obtain ⟨children0, emptied, split0⟩ := store_split none children
  obtain ⟨n1, y, shifted, keys1, children1, count1⟩ := @shiftLeft_run _ _
    ⟨n.keys, children0, n.count⟩ below above _ _ _ keys split0
  obtain ⟨keys2, stored, split⟩ := store_split 0 keys1
  have fewer : decrement n.count = some (below ++ above).length := by
    rw [decrement, holds.count, total, if_neg (Nat.succ_ne_zero _), Nat.add_sub_cancel]
  have steps : (below ++ above).length - below.length = above.length := by
    rw [length_append]
    omega
  rw [length_map] at emptied stored
  refine ⟨⟨keys2, n1.children, (below ++ above).length⟩, ?_, ⟨⟨0 :: tail, split⟩, ?_, rfl⟩⟩
  · simp only [removeChild, used, bind_eq_bind, bind_some, position, emptied, fewer,
      steps, shifted, stored]
  · have place : (below ++ above).length < capacity := by omega
    rw [children1, total, replicate_place place]

theorem removeChild_absent (holds : n.Holds entries) (absent : ∀ e ∈ entries, e.1 ≠ b) :
    n.removeChild b = some n := by
  obtain ⟨tail, keys⟩ := holds.keys
  have used : front n.keys n.count = some (keysOf entries) := by
    have front := front_split keys
    rwa [length_map, ← holds.count] at front
  have nowhere : (keysOf entries).findIdx? (fun k => decide (k = b)) = none := by
    rw [findIdx?_eq_none_iff]
    intro k member
    obtain ⟨e, inside, rfl⟩ := mem_map.mp member
    exact decide_eq_false (absent e inside)
  simp [removeChild, used, nowhere]

/-- An entry stored behind the others. -/
theorem Holds.push (holds : n.Holds entries) (room : entries.length < capacity) (e : UInt8 × α) :
    ∃ keys children, store n.keys entries.length e.1 = some keys ∧
      store n.children entries.length (some e.2) = some children ∧
      (⟨keys, children, entries.length + 1⟩ : SortedNode capacity α).Holds (entries ++ [e]) := by
  obtain ⟨tail, keys⟩ := holds.keys
  have children := holds.children
  obtain ⟨k, free, keys⟩ := exists_place keys (by simpa using room)
  rw [replicate_place room] at children
  obtain ⟨keys1, storedKey, splitKey⟩ := store_split e.1 keys
  obtain ⟨children1, storedChild, splitChild⟩ := store_split (some e.2) children
  rw [length_map] at storedKey storedChild
  exact ⟨keys1, children1, storedKey, storedChild,
    ⟨free, by simp [splitKey]⟩, by simp [splitChild], by simp⟩

/-- Entries still to be moved out of a node. -/
structure Moving (n : SortedNode capacity α) (done rest : List (UInt8 × α)) : Prop where
  keys : ∃ tail, n.keys.toList = keysOf (done ++ rest) ++ tail
  children : ∃ before tail, before.length = done.length ∧
    n.children.toList = before ++ (slotsOf rest ++ tail)

theorem Holds.moving (holds : n.Holds entries) : n.Moving [] entries :=
  ⟨holds.keys, [], _, rfl, holds.children⟩

theorem Moving.next {done rest : List (UInt8 × α)} {e : UInt8 × α}
    (moving : n.Moving done (e :: rest)) : n.keys[done.length]? = some e.1 ∧
      n.children[done.length]? = some (some e.2) ∧
      ∃ taken, store n.children done.length none = some taken ∧
        (⟨n.keys, taken, n.count⟩ : SortedNode capacity α).Moving (done ++ [e]) rest := by
  obtain ⟨⟨tail, keys⟩, before, tail', length, children⟩ := moving
  have keys' : n.keys.toList = keysOf done ++ e.1 :: (keysOf rest ++ tail) := by simp [keys]
  have children' : n.children.toList = before ++ some e.2 :: (slotsOf rest ++ tail') := by
    simp [children]
  have key := read_split keys'
  have child := read_split children'
  obtain ⟨taken, emptied, split⟩ := store_split none children'
  rw [length_map] at key
  rw [length] at child emptied
  exact ⟨key, child, taken, emptied, ⟨tail, by simp [keys]⟩, before ++ [none], tail',
    by simp [length], by simp [split]⟩

theorem moveChildren_holds (holds : n.Holds entries) {target : Nat} (fits :
    entries.length ≤ target) :
    ∃ n', n.moveChildren target = some n' ∧ n'.Holds entries := by
  obtain ⟨s, run, _, _, moved⟩ := @exists_foldlM_range _ _ moveChild
    (fun (s : SortedNode capacity α × SortedNode target α) done rest =>
      (done ++ rest).length ≤ target ∧ s.1.Moving done rest ∧
        (⟨s.2.keys, s.2.children, done.length⟩ : SortedNode target α).Holds done)
    (by
      rintro s done e rest ⟨fits, moving, moved⟩
      obtain ⟨key, child, taken, emptied, moving'⟩ := moving.next
      rw [length_append, length_cons] at fits
      obtain ⟨keys, children, storedKey, storedChild, moved'⟩ := moved.push (by omega) e
      refine ⟨(⟨s.1.keys, taken, s.1.count⟩, ⟨keys, children, s.2.count⟩), ?_, ?_, moving', ?_⟩
      · simp [moveChild, key, storedKey, child, emptied, storedChild]
      · simp only [length_append, length_singleton]
        omega
      · rwa [length_append, length_singleton])
    entries [] (n, new target) ⟨fits, holds.moving, new_holds⟩
  rw [length_nil, ← holds.count] at run
  refine ⟨⟨s.2.keys, s.2.children, n.count⟩, ?_, moved.keys, moved.children, holds.count⟩
  simp [moveChildren, run]

theorem takeSingle_holds (holds : n.Holds [(b, c)]) :
    ∃ n', n.takeSingle = some ((b, c), n') ∧ n'.Holds [] := by
  obtain ⟨tail, keys⟩ := holds.keys
  have keys' : n.keys.toList = [] ++ b :: tail := keys
  have children' : n.children.toList = [] ++ some c :: List.replicate (capacity - 1) none :=
    holds.children
  have key := read_split keys'
  have child := read_split children'
  obtain ⟨taken, emptied, split⟩ := store_split none children'
  rw [length_nil] at key child emptied
  refine ⟨⟨n.keys, taken, 0⟩, ?_, ⟨_, rfl⟩, ?_, rfl⟩
  · simp [takeSingle, key, child, emptied]
  · have place : 0 < capacity := holds.length_le
    rw [split, length_nil, replicate_place place]
    rfl

end SortedNode

/-- A store under a byte in an array with a place for every byte. -/
theorem store_byte {β : Type} {a : Vector β 256} {f : UInt8 → β} (reads : ∀ x :
    UInt8, a[x.toNat]? = some (f x))
    (b : UInt8) (v : β) : ∃ a', store a b.toNat v = some a' ∧
      ∀ x : UInt8, a'[x.toNat]? = some (update f b v x) := by
  obtain ⟨a', stored, after⟩ := store_at b.toNat_lt v
  refine ⟨a', stored, ?_⟩
  intro x
  rw [after]
  by_cases same : x = b
  · subst same
    simp
  · have apart : x.toNat ≠ b.toNat := fun equal => same (UInt8.toNat_inj.mp equal)
    rw [if_neg apart, reads, update_of_ne same]

theorem keysOf_listed (m : UInt8 → Option α) (l : List UInt8) :
    SortedNode.keysOf (listed m l) = l.filter fun b => (m b).isSome := by
  induction l with
  | nil => rfl
  | cons x rest ih =>
    cases here : m x with
    | none => simp [listed_cons_of_none here, ih, here]
    | some c => simp [listed_cons_of_some here, ih, here]

theorem allBytes_nodup : allBytes.Nodup := by
  refine allBytes_ordered.imp ?_
  rintro x _ lt rfl
  exact UInt8.lt_irrefl x lt

namespace Node48

variable {childIndex : Vector UInt8 256} {children : Vector (Option α) 48} {slot : UInt8 → Nat}

/-- Every byte of the map has a slot of its own, and every used slot has a byte. -/
structure Layout (childIndex : Vector UInt8 256) (children : Vector (Option α) 48)
    (slot : UInt8 → Nat) (m : UInt8 → Option α) : Prop where
  index : ∀ b : UInt8, childIndex[b.toNat]? =
    some (if (m b).isSome then UInt8.ofNat (slot b) else emptySlot)
  child : ∀ b c, m b = some c → children[slot b]? = some (some c)
  apart : ∀ b b', (m b).isSome → (m b').isSome → slot b = slot b' → b = b'
  owned : ∀ i c, children[i]? = some (some c) → ∃ b, (m b).isSome ∧ slot b = i

def Holds (n : Node48 α) (m : UInt8 → Option α) : Prop :=
  (∃ slot, Layout n.childIndex n.children slot m) ∧ n.count = size m

theorem new_layout (slot : UInt8 → Nat) : Layout (Vector.replicate 256 emptySlot)
    (Vector.replicate 48 (none : Option α)) slot fun _ => none where
  index b := by
    rw [Vector.getElem?_replicate, if_pos b.toNat_lt]
    rfl
  child := by simp
  apart := by simp
  owned := by
    intro i c used
    rw [Vector.getElem?_replicate] at used
    split at used <;> simp at used

namespace Layout

theorem slot_lt (layout : Layout childIndex children slot m) (present : m b = some c) :
    slot b < 48 := by
  obtain ⟨inside, _⟩ := Vector.getElem?_eq_some_iff.mp (layout.child b c present)
  exact inside

/-- The index of a byte of the map is its slot, which is not the sentinel. -/
theorem index_of_some (layout : Layout childIndex children slot m) (present : m b = some c) :
    childIndex[b.toNat]? = some (UInt8.ofNat (slot b)) ∧ UInt8.ofNat (slot b) ≠ emptySlot ∧
      (UInt8.ofNat (slot b)).toNat = slot b := by
  have inside := layout.slot_lt present
  have value : (UInt8.ofNat (slot b)).toNat = slot b :=
    UInt8.toNat_ofNat_of_lt' (inside.trans (by decide))
  refine ⟨by simpa [present] using layout.index b, ?_, value⟩
  intro same
  rw [same] at value
  have sentinel : emptySlot.toNat = 255 := rfl
  omega

theorem index_of_none (layout : Layout childIndex children slot m) (absent : m b = none) :
    childIndex[b.toNat]? = some emptySlot := by
  simpa [absent] using layout.index b

/-- A byte put into a free slot. -/
theorem put (layout : Layout childIndex children slot m) (absent : m b = none) {i : Nat}
    (inside : i < 48) (free : children[i]? = some none) (c : α) :
    ∃ childIndex' children', store childIndex b.toNat (UInt8.ofNat i) = some childIndex' ∧
      store children i (some c) = some children' ∧
      Layout childIndex' children' (update slot b i) (update m b (some c)) := by
  obtain ⟨childIndex', stored, index⟩ := store_byte layout.index b (UInt8.ofNat i)
  obtain ⟨children', stored', child⟩ := store_at inside (some c)
  have unused : ∀ x, (m x).isSome → slot x ≠ i := by
    intro x present same
    obtain ⟨c', held⟩ := isSome_iff_exists.mp present
    have used := layout.child x c' held
    rw [same, free] at used
    cases used
  refine ⟨childIndex', children', stored, stored', ?_, ?_, ?_, ?_⟩
  · intro x
    rw [index]
    by_cases same : x = b
    · subst same
      simp
    · simp [same]
  · intro x c' present
    rw [child]
    by_cases same : x = b
    · subst same
      simpa using present
    · rw [update_of_ne same] at present ⊢
      rw [if_neg (unused x (by simp [present]))]
      exact layout.child x c' present
  · intro x y hx hy same
    by_cases first : x = b <;> by_cases second : y = b
    · rw [first, second]
    · subst first
      simp only [update_self, update_of_ne second] at hy same
      exact absurd same.symm (unused y hy)
    · subst second
      simp only [update_self, update_of_ne first] at hx same
      exact absurd same (unused x hx)
    · simp only [update_of_ne first, update_of_ne second] at hx hy same
      exact layout.apart x y hx hy same
  · intro k c' used
    rw [child] at used
    by_cases here : k = i
    · exact ⟨b, by simp, by simp [here]⟩
    · rw [if_neg here] at used
      obtain ⟨x, present, at_slot⟩ := layout.owned k c' used
      have other : x ≠ b := fun same => by simp [same, absent] at present
      exact ⟨x, by simpa [other] using present, by simpa [other] using at_slot⟩

/-- A byte and its slot cleared. -/
theorem clear (layout : Layout childIndex children slot m) (present : m b = some c) :
    ∃ children' childIndex', store children (slot b) none = some children' ∧
      store childIndex b.toNat emptySlot = some childIndex' ∧
      Layout childIndex' children' slot (update m b none) := by
  obtain ⟨childIndex', stored, index⟩ := store_byte layout.index b emptySlot
  obtain ⟨children', stored', child⟩ := store_at (layout.slot_lt present) none
  have kept : ∀ {x}, (update m b none x).isSome → x ≠ b ∧ (m x).isSome := by
    intro x held
    have other : x ≠ b := fun same => by simp [same] at held
    exact ⟨other, by simpa [other] using held⟩
  refine ⟨children', childIndex', stored', stored, ?_, ?_, ?_, ?_⟩
  · intro x
    rw [index]
    by_cases same : x = b
    · subst same
      simp
    · simp [same]
  · intro x c' held
    obtain ⟨other, before⟩ := kept (x := x) (by simp [held])
    rw [update_of_ne other] at held
    have away : slot x ≠ slot b :=
      fun same => other (layout.apart x b before (by simp [present]) same)
    rw [child, if_neg away]
    exact layout.child x c' held
  · intro x y hx hy same
    exact layout.apart x y (kept hx).2 (kept hy).2 same
  · intro k c' used
    rw [child] at used
    by_cases here : k = slot b
    · rw [if_pos here] at used
      cases used
    · rw [if_neg here] at used
      obtain ⟨x, before, at_slot⟩ := layout.owned k c' used
      have other : x ≠ b := fun same => here (same ▸ at_slot).symm
      exact ⟨x, by simpa [other] using before, at_slot⟩

/-- With fewer bytes than slots the search for a free slot succeeds. -/
theorem exists_free (layout : Layout childIndex children slot m) (room : size m < 48) :
    ∃ i, children.toList.findIdx? Option.isNone = some i ∧ i < 48 ∧ children[i]? = some none := by
  cases found : children.toList.findIdx? Option.isNone with
  | some i =>
    obtain ⟨inside, empty, _⟩ := findIdx?_eq_some_iff_getElem.mp found
    rw [Vector.length_toList] at inside
    refine ⟨i, rfl, inside, ?_⟩
    rw [Vector.getElem?_eq_getElem inside]
    simpa using empty
  | none =>
    have used : ∀ i ∈ List.range 48, ∃ b, (m b).isSome ∧ slot b = i := by
      intro i member
      have inside : i < 48 := mem_range.mp member
      have full := findIdx?_eq_none_iff.mp found children[i] (by simp)
      obtain ⟨c, held⟩ := isSome_iff_exists.mp (by simpa using full)
      exact layout.owned i c (by rw [Vector.getElem?_eq_getElem inside, held])
    choose! byte present at_slot using used
    have distinct : ((List.range 48).map byte).Nodup := by
      refine List.Nodup.map_on ?_ nodup_range
      intro i hi j hj same
      rw [← at_slot i hi, ← at_slot j hj, same]
    have inside : (List.range 48).map byte ⊆ allBytes.filter fun b => (m b).isSome := by
      intro b member
      obtain ⟨i, hi, rfl⟩ := mem_map.mp member
      exact mem_filter.mpr ⟨mem_allBytes _, present i hi⟩
    have many := (List.Nodup.subperm distinct inside).length_le
    rw [length_map, length_range, ← countP_eq_length_filter] at many
    exact absurd room (not_lt.mpr many)

/-- A child taken out of its slot, the slots of the other bytes being left alone. -/
theorem take {rest : List UInt8} {left : Vector (Option α) 48}
    (layout : Layout childIndex children slot m) (once : b ∉ rest) (present : m b = some c)
    (kept : ∀ x ∈ b :: rest, ∀ c, m x = some c → left[slot x]? = some (some c)) :
    left[slot b]? = some (some c) ∧ ∃ taken, store left (slot b) none = some taken ∧
      ∀ x ∈ rest, ∀ c, m x = some c → taken[slot x]? = some (some c) := by
  obtain ⟨taken, stored, after⟩ := store_at (layout.slot_lt present) none
  refine ⟨kept b mem_cons_self c present, taken, stored, ?_⟩
  intro x member c' held
  have away : slot x ≠ slot b := by
    intro same
    have equal := layout.apart x b (by simp [held]) (by simp [present]) same
    exact once (equal ▸ member)
  rw [after, if_neg away]
  exact kept x (mem_cons_of_mem _ member) c' held

end Layout

variable {n : Node48 α}

theorem Holds.findChild (holds : n.Holds m) (b : UInt8) : n.findChild b = some (m b) := by
  obtain ⟨⟨slot, layout⟩, _⟩ := holds
  cases here : m b with
  | none =>
    simp [Node48.findChild, layout.index_of_none here]
  | some c =>
    obtain ⟨index, used, value⟩ := layout.index_of_some here
    simp [Node48.findChild, index, used, value, layout.child b c here]

theorem insertChild_holds (holds : n.Holds m) (absent : m b = none) (room : size m < 48) (c : α) :
    ∃ n', n.insertChild b c = some n' ∧ n'.Holds (update m b (some c)) := by
  obtain ⟨⟨slot, layout⟩, count⟩ := holds
  obtain ⟨i, found, inside, free⟩ := layout.exists_free room
  obtain ⟨childIndex, children, stored, stored', layout'⟩ := layout.put absent inside free c
  have notFull : n.isFull = false := by
    rw [isFull, count]
    simpa using room
  have more : increment 8 n.count = some (n.count + 1) := if_pos (by omega)
  refine ⟨⟨childIndex, children, n.count + 1⟩, ?_, ⟨_, layout'⟩, ?_⟩
  · simp [insertChild, notFull, found, stored, stored', more]
  · rw [size_insert absent, count]

theorem removeChild_holds (holds : n.Holds m) (b : UInt8) :
    ∃ n', n.removeChild b = some n' ∧ n'.Holds (update m b none) := by
  obtain ⟨⟨slot, layout⟩, count⟩ := holds
  cases here : m b with
  | none =>
    refine ⟨n, ?_, ?_⟩
    · simp [removeChild, layout.index_of_none here]
    · rw [← here, update_eq_self]
      exact ⟨⟨slot, layout⟩, count⟩
  | some c =>
    obtain ⟨index, used, value⟩ := layout.index_of_some here
    obtain ⟨children, childIndex, stored, stored', layout'⟩ := layout.clear here
    have total := size_remove here
    have fewer : decrement n.count = some (n.count - 1) := if_neg (by omega)
    refine ⟨⟨childIndex, children, n.count - 1⟩, ?_, ⟨slot, layout'⟩, ?_⟩
    · simp [removeChild, index, used, value, stored, stored', fewer]
    · change n.count - 1 = size (update m b none)
      omega

/-- A node in which the slots are given out in order. -/
def Filled (childIndex : Vector UInt8 256) (children : Vector (Option α) 48)
    (m : UInt8 → Option α) : Prop :=
  ∃ slot, Layout childIndex children slot m ∧ ∀ b, (m b).isSome → slot b < size m

theorem size_empty : size (fun _ => none : UInt8 → Option α) = 0 := by
  simp [size]

theorem new_filled : Filled (Vector.replicate 256 emptySlot)
    (Vector.replicate 48 (none : Option α)) fun _ => none :=
  ⟨fun _ => 0, new_layout _, by simp⟩

theorem Filled.put (filled : Filled childIndex children m) (absent : m b = none)
    (room : size m < 48) (c : α) :
    ∃ childIndex' children', store childIndex b.toNat (UInt8.ofNat (size m)) = some childIndex' ∧
      store children (size m) (some c) = some children' ∧
      Filled childIndex' children' (update m b (some c)) := by
  obtain ⟨slot, layout, below⟩ := filled
  have free : children[size m]? = some none := by
    rw [Vector.getElem?_eq_getElem room]
    cases here : children[size m] with
    | none => rfl
    | some c' =>
      obtain ⟨x, present, at_slot⟩ := layout.owned (size m) c' (by
        rw [Vector.getElem?_eq_getElem room, here])
      exact absurd at_slot (below x present).ne
  obtain ⟨childIndex', children', stored, stored', layout'⟩ := layout.put absent room free c
  refine ⟨childIndex', children', stored, stored', _, layout', ?_⟩
  intro x present
  rw [size_insert absent]
  by_cases same : x = b
  · subst same
    simp
  · rw [update_of_ne same] at present ⊢
    exact Nat.lt_succ_of_lt (below x present)

end Node48

variable {done : List UInt8}

/-- The bytes of the map among the first ones of a loop are not its next one. -/
theorem upTo_next {rest : List UInt8} (whole : done ++ b :: rest = allBytes) (m :
    UInt8 → Option α) :
    upTo m done b = none ∧ b ∉ rest := by
  have distinct := allBytes_nodup
  rw [← whole] at distinct
  obtain ⟨_, right, across⟩ := nodup_append.mp distinct
  refine ⟨?_, (nodup_cons.mp right).1⟩
  have outside : b ∉ done := fun member => across b member b mem_cons_self rfl
  rw [upTo, if_neg outside]

theorem upTo_snoc_of_none (absent : m b = none) (fresh : upTo m done b = none) :
    upTo m (done ++ [b]) = upTo m done := by
  rw [upTo_snoc, absent, ← fresh, update_eq_self]

theorem size_upTo_next (present : m b = some c) (fresh : upTo m done b = none) :
    size (upTo m done) < size m := by
  have more := size_insert fresh c
  have bound := size_upTo_le (m := m) (done ++ [b])
  rw [upTo_snoc, present] at bound
  omega

namespace Node48

variable {n : Node48 α}

theorem intoNode16_holds (holds : n.Holds m) (small : size m ≤ 16) :
    ∃ n', n.intoNode16 = some n' ∧ n'.Holds (listed m allBytes) := by
  obtain ⟨⟨slot, layout⟩, count⟩ := holds
  obtain ⟨s, run, _, _, _, moved⟩ := @Collect.exists_foldlM_split _ _ moveSorted
    (fun s done rest => done ++ rest = allBytes ∧ s.1.childIndex = n.childIndex ∧
      (∀ x ∈ rest, ∀ c, m x = some c → s.1.children[slot x]? = some (some c)) ∧
      (⟨s.2.1.keys, s.2.1.children, s.2.2⟩ : Node16 α).Holds (listed m done))
    (by
      rintro s done b rest ⟨whole, same, kept, moved⟩
      obtain ⟨fresh, once⟩ := upTo_next whole m
      have whole' : done ++ [b] ++ rest = allBytes := by simpa using whole
      cases here : m b with
      | none =>
        refine ⟨s, ?_, whole', same, fun x member => kept x (mem_cons_of_mem _ member), ?_⟩
        · simp [moveSorted, same, layout.index_of_none here]
        · have nothing : listed m [b] = [] := listed_cons_of_none here
          rwa [listed_append, nothing, append_nil]
      | some c =>
        obtain ⟨index, used, value⟩ := layout.index_of_some here
        obtain ⟨child, taken, emptied, kept'⟩ := layout.take once here kept
        have room : (listed m done).length < 16 := by
          have all := congrArg (fun l => (listed m l).length) whole
          simp only [listed_append, listed_cons_of_some here, length_append, length_cons,
            ← size_eq] at all
          omega
        obtain ⟨keys, children, storedKey, storedChild, moved'⟩ := moved.push room (b, c)
        have position : s.2.2 = (listed m done).length := moved.count
        refine ⟨(⟨s.1.childIndex, taken, s.1.count⟩, ⟨keys, children, s.2.1.count⟩, s.2.2 + 1),
          ?_, whole', same, kept', ?_⟩
        · simp [moveSorted, same, index, used, value, child, emptied, position, storedKey,
          storedChild]
        · rwa [position, listed_append, listed_cons_of_some here])
    allBytes [] (n, Node16.new, 0)
    ⟨rfl, rfl, fun x _ c => layout.child x c, SortedNode.new_holds⟩
  have position : s.2.2 = size m := by
    rw [size_eq]
    exact moved.count
  refine ⟨⟨s.2.1.keys, s.2.1.children, s.2.2 % 256⟩, ?_, moved.keys, moved.children, ?_⟩
  · have guard : n.count ≤ 16 := by omega
    simp [intoNode16, guard, run]
  · rw [Nat.mod_eq_of_lt (by omega)]
    exact moved.count

end Node48

namespace Node256

variable {n : Node256 α}

structure Holds (n : Node256 α) (m : UInt8 → Option α) : Prop where
  child : ∀ b : UInt8, n.children[b.toNat]? = some (m b)
  count : n.count = size m

theorem new_child (b : UInt8) : (Vector.replicate 256 (none : Option α))[b.toNat]? = some none := by
  rw [Vector.getElem?_replicate, if_pos b.toNat_lt]

theorem insertChild_holds (holds : n.Holds m) (absent : m b = none) (c : α) :
    ∃ n', n.insertChild b c = some n' ∧ n'.Holds (update m b (some c)) := by
  obtain ⟨children, stored, child⟩ := store_byte holds.child b (some c)
  have total := size_le m
  have more : increment 16 n.count = some (n.count + 1) := if_pos (by rw [holds.count]; omega)
  refine ⟨⟨children, n.count + 1⟩, ?_, child, ?_⟩
  · simp [insertChild, holds.child, absent, stored, more]
  · rw [size_insert absent, ← holds.count]

theorem removeChild_holds (holds : n.Holds m) (b : UInt8) :
    ∃ n', n.removeChild b = some n' ∧ n'.Holds (update m b none) := by
  cases here : m b with
  | none =>
    refine ⟨n, ?_, ?_⟩
    · simp [removeChild, holds.child, here]
    · rwa [← here, update_eq_self]
  | some c =>
    obtain ⟨children, stored, child⟩ := store_byte holds.child b none
    have total := size_remove here
    have count := holds.count
    have fewer : decrement n.count = some (n.count - 1) := if_neg (by omega)
    refine ⟨⟨children, n.count - 1⟩, ?_, child, ?_⟩
    · simp [removeChild, holds.child, here, stored, fewer]
    · change n.count - 1 = size (update m b none)
      omega

end Node256

theorem upTo_nil (m : UInt8 → Option α) : upTo m [] = fun _ => none := by
  funext x
  simp [upTo]

theorem Node48.intoNode256_holds {n : Node48 α} (holds : n.Holds m) :
    ∃ n', n.intoNode256 = some n' ∧ n'.Holds m := by
  obtain ⟨⟨slot, layout⟩, _⟩ := holds
  obtain ⟨s, run, _, _, _, moved⟩ := @Collect.exists_foldlM_split _ _ Node48.moveDirect
    (fun s done rest => done ++ rest = allBytes ∧ s.1.childIndex = n.childIndex ∧
      (∀ x ∈ rest, ∀ c, m x = some c → s.1.children[slot x]? = some (some c)) ∧
      (⟨s.2.1.children, s.2.2⟩ : Node256 α).Holds (upTo m done))
    (by
      rintro s done b rest ⟨whole, same, kept, moved⟩
      obtain ⟨fresh, once⟩ := upTo_next whole m
      have whole' : done ++ [b] ++ rest = allBytes := by simpa using whole
      cases here : m b with
      | none =>
        refine ⟨s, ?_, whole', same, fun x member => kept x (mem_cons_of_mem _ member), ?_⟩
        · simp [Node48.moveDirect, same, layout.index_of_none here]
        · rwa [upTo_snoc_of_none here fresh]
      | some c =>
        obtain ⟨index, used, value⟩ := layout.index_of_some here
        obtain ⟨child, taken, emptied, kept'⟩ := layout.take once here kept
        obtain ⟨children, stored, after⟩ := store_byte moved.child b (some c)
        have total := size_le (upTo m done)
        have count : s.2.2 = size (upTo m done) := moved.count
        have more : increment 16 s.2.2 = some (s.2.2 + 1) := if_pos (by omega)
        refine ⟨(⟨s.1.childIndex, taken, s.1.count⟩, ⟨children, s.2.1.count⟩, s.2.2 + 1), ?_,
          whole', same, kept', ?_⟩
        · simp [Node48.moveDirect, same, index, used, value, child, emptied, stored, more]
        · rw [upTo_snoc, here]
          exact ⟨after, by rw [size_insert fresh, count]⟩)
    allBytes [] (n, Node256.new, 0)
    ⟨rfl, rfl, fun x _ c => layout.child x c, by
      exact ⟨Node256.new_child, Node48.size_empty.symm⟩⟩
  refine ⟨⟨s.2.1.children, s.2.2⟩, ?_, by rwa [nil_append, upTo_allBytes] at moved⟩
  simp [Node48.intoNode256, run]

theorem Node256.intoNode48_holds {n : Node256 α} (holds : n.Holds m) (small : size m ≤ 48) :
    ∃ n', n.intoNode48 = some n' ∧ n'.Holds m := by
  obtain ⟨s, run, _, _, moved, count⟩ := @Collect.exists_foldlM_split _ _ Node256.moveIndexed
    (fun s done rest => done ++ rest = allBytes ∧
      (∀ x ∈ rest, s.1.children[x.toNat]? = some (m x)) ∧
      Node48.Filled s.2.1.childIndex s.2.1.children (upTo m done) ∧ s.2.2 = size (upTo m done))
    (by
      rintro s done b rest ⟨whole, kept, moved, count⟩
      obtain ⟨fresh, once⟩ := upTo_next whole m
      have whole' : done ++ [b] ++ rest = allBytes := by simpa using whole
      have child := kept b mem_cons_self
      cases here : m b with
      | none =>
        rw [here] at child
        refine ⟨s, ?_, whole', fun x member => kept x (mem_cons_of_mem _ member), ?_⟩
        · simp [Node256.moveIndexed, child]
        · rw [upTo_snoc_of_none here fresh]
          exact ⟨moved, count⟩
      | some c =>
        rw [here] at child
        have room := size_upTo_next here fresh
        obtain ⟨childIndex, children, stored, stored', moved'⟩ := moved.put fresh (by omega) c
        obtain ⟨taken, emptied, after⟩ :=
          @store_at _ 256 s.1.children b.toNat b.toNat_lt none
        have more : increment 8 (size (upTo m done)) = some (size (upTo m done) + 1) :=
          if_pos (by omega)
        refine ⟨(⟨taken, s.1.count⟩, ⟨childIndex, children, s.2.1.count⟩, s.2.2 + 1), ?_, whole',
          ?_, ?_⟩
        · simp [Node256.moveIndexed, child, count, stored, emptied, stored', more]
        · intro x member
          have apart : x.toNat ≠ b.toNat := fun same => once (UInt8.toNat_inj.mp same ▸ member)
          rw [after, if_neg apart]
          exact kept x (mem_cons_of_mem _ member)
        · rw [upTo_snoc, here, size_insert fresh]
          exact ⟨moved', by rw [count]⟩)
    allBytes [] (n, Node48.new, 0)
    ⟨rfl, fun x _ => holds.child x, by
      exact ⟨Node48.new_filled, Node48.size_empty.symm⟩⟩
  rw [nil_append, upTo_allBytes] at moved count
  obtain ⟨slot, layout, _⟩ := moved
  refine ⟨⟨s.2.1.childIndex, s.2.1.children, s.2.2⟩, ?_, ⟨slot, layout⟩, count⟩
  have guard : n.count ≤ 48 := by
    rw [holds.count]
    exact small
  simp [Node256.intoNode48, guard, run]

theorem upTo_keysOf_listed (m : UInt8 → Option α) :
    upTo m (SortedNode.keysOf (listed m allBytes)) = m := by
  funext x
  rw [keysOf_listed]
  cases here : m x <;> simp [upTo, here, mem_allBytes]

theorem Node16.intoNode48_holds {n : Node16 α} (holds : SortedNode.Holds n (listed m allBytes)) :
    ∃ n', Node16.intoNode48 n = some n' ∧ n'.Holds m := by
  have distinct : (SortedNode.keysOf (listed m allBytes)).Nodup := by
    rw [keysOf_listed]
    exact allBytes_nodup.filter _
  have few := holds.length_le
  obtain ⟨s, run, _, _, moved, _⟩ := @exists_foldlM_range _ _ Node16.moveIndexed
    (fun s done rest => done ++ rest = listed m allBytes ∧ SortedNode.Moving s.1 done rest ∧
      Node48.Filled s.2.childIndex s.2.children (upTo m (SortedNode.keysOf done)) ∧
      done.length = size (upTo m (SortedNode.keysOf done)))
    (by
      rintro s done ⟨b, c⟩ rest ⟨whole, moving, moved, count⟩
      obtain ⟨key, child, taken, emptied, moving'⟩ := moving.next
      have here : m b = some c := (mem_listed.mp (whole ▸ by simp : (b, c) ∈ listed m allBytes)).2
      have fresh : upTo m (SortedNode.keysOf done) b = none := by
        rw [← whole, SortedNode.keysOf_append] at distinct
        have across := (nodup_append.mp distinct).2.2
        exact if_neg fun member => across b member b mem_cons_self rfl
      have total := congrArg List.length whole
      rw [length_append, length_cons] at total
      obtain ⟨childIndex, children, stored, stored', moved'⟩ := moved.put fresh (by omega) c
      rw [← count] at stored stored'
      refine ⟨(⟨s.1.keys, taken, s.1.count⟩, ⟨childIndex, children, s.2.count⟩), ?_,
        by simpa using whole, moving', ?_⟩
      · simp [Node16.moveIndexed, key, stored, child, emptied, stored']
      · have snoc : SortedNode.keysOf (done ++ [(b, c)]) = SortedNode.keysOf done ++ [b] :=
          SortedNode.keysOf_append done [(b, c)]
        rw [snoc, upTo_snoc, here, size_insert fresh, ← count]
        exact ⟨moved', by simp⟩)
    (listed m allBytes) [] (n, Node48.new)
    ⟨rfl, holds.moving, by
      exact ⟨Node48.new_filled, Node48.size_empty.symm⟩⟩
  rw [length_nil, ← holds.count] at run
  rw [nil_append, upTo_keysOf_listed] at moved
  obtain ⟨slot, layout, _⟩ := moved
  refine ⟨⟨s.2.childIndex, s.2.children, n.count⟩, ?_, ⟨slot, layout⟩, ?_⟩
  · simp [Node16.intoNode48, run]
  · rw [size_eq]
    exact holds.count

namespace SortedNode

variable {capacity : Nat} {n : SortedNode capacity α}

theorem Holds.findChild_listed (holds : n.Holds (listed m allBytes)) (b : UInt8) :
    n.findChild b = some (m b) := by
  rw [holds.findChild, lookup_listed, if_pos (mem_allBytes b)]

theorem insertChild_listed (holds : n.Holds (listed m allBytes)) (absent : m b = none)
    (notFull : n.isFull = false) (small : capacity < 256) (c : α) :
    ∃ n', n.insertChild b c = some n' ∧
      n'.Holds (listed (update m b (some c)) allBytes) := by
  obtain ⟨below, above, lower, upper, around⟩ := listed_around m b
  have before := around (m b)
  rw [update_eq_self, absent, map_none, toList_none, append_nil] at before
  rw [isFull, holds.count, before, decide_eq_false_iff_not, Nat.not_le] at notFull
  rw [before] at holds
  obtain ⟨n', inserted, holds'⟩ := insertChild_holds holds lower upper notFull small c
  refine ⟨n', inserted, ?_⟩
  rwa [around (some c), map_some, toList_some, append_assoc]

theorem removeChild_listed (holds : n.Holds (listed m allBytes)) (b : UInt8) :
    ∃ n', n.removeChild b = some n' ∧ n'.Holds (listed (update m b none) allBytes) := by
  cases here : m b with
  | none =>
    rw [← here, update_eq_self]
    refine ⟨n, removeChild_absent holds ?_, holds⟩
    rintro ⟨x, c⟩ member rfl
    rw [(mem_listed.mp member).2] at here
    cases here
  | some c =>
    obtain ⟨below, above, lower, _, around⟩ := listed_around m b
    have before := around (m b)
    rw [update_eq_self, here, map_some, toList_some, append_assoc] at before
    rw [before] at holds
    obtain ⟨n', removed, holds'⟩ := removeChild_holds holds lower
    refine ⟨n', removed, ?_⟩
    rwa [around none, map_none, toList_none, append_nil]

end SortedNode

namespace NodeType

variable {t : NodeType α}

def Holds (m : UInt8 → Option α) : NodeType α → Prop
  | node4 n => SortedNode.Holds n (listed m allBytes)
  | node16 n => SortedNode.Holds n (listed m allBytes)
  | node48 n => n.Holds m
  | node256 n => n.Holds m

/-- The fewest children with which a layout is kept. -/
def least : NodeType α → Nat
  | node4 _ => 0
  | node16 _ => 5
  | node48 _ => 17
  | node256 _ => 49

theorem Holds.numChildren (holds : t.Holds m) : t.numChildren = size m := by
  cases t with
  | node4 n | node16 n => exact (SortedNode.Holds.count holds).trans (size_eq m).symm
  | node48 n => exact holds.2
  | node256 n => exact holds.count

theorem Holds.findChild (holds : t.Holds m) (b : UInt8) : t.findChild b = some (m b) := by
  cases t with
  | node4 n | node16 n => exact SortedNode.Holds.findChild_listed holds b
  | node48 n => exact Node48.Holds.findChild holds b
  | node256 n => exact Node256.Holds.child holds b

theorem insertChild_holds (holds : t.Holds m) (absent : m b = none) (notFull : t.isFull = false)
    (c : α) : ∃ t', t.insertChild b c = some t' ∧ t'.Holds (update m b (some c)) ∧
      t'.least = t.least := by
  cases t with
  | node4 n =>
    obtain ⟨n', inserted, holds'⟩ :=
      SortedNode.insertChild_listed holds absent notFull (by decide) c
    exact ⟨node4 n', by rw [insertChild, inserted, map_some], holds', rfl⟩
  | node16 n =>
    obtain ⟨n', inserted, holds'⟩ :=
      SortedNode.insertChild_listed holds absent notFull (by decide) c
    exact ⟨node16 n', by rw [insertChild, inserted, map_some], holds', rfl⟩
  | node48 n =>
    have room : size m < 48 := by
      rw [isFull, Node48.isFull, holds.2] at notFull
      simpa using notFull
    obtain ⟨n', inserted, holds'⟩ := Node48.insertChild_holds holds absent room c
    exact ⟨node48 n', by rw [insertChild, inserted, map_some], holds', rfl⟩
  | node256 n =>
    obtain ⟨n', inserted, holds'⟩ := Node256.insertChild_holds holds absent c
    exact ⟨node256 n', by rw [insertChild, inserted, map_some], holds', rfl⟩

theorem removeChild_holds (holds : t.Holds m) (b : UInt8) :
    ∃ t', t.removeChild b = some t' ∧ t'.Holds (update m b none) ∧ t'.least = t.least := by
  cases t with
  | node4 n =>
    obtain ⟨n', removed, holds'⟩ := SortedNode.removeChild_listed holds b
    exact ⟨node4 n', by rw [removeChild, removed, map_some], holds', rfl⟩
  | node16 n =>
    obtain ⟨n', removed, holds'⟩ := SortedNode.removeChild_listed holds b
    exact ⟨node16 n', by rw [removeChild, removed, map_some], holds', rfl⟩
  | node48 n =>
    obtain ⟨n', removed, holds'⟩ := Node48.removeChild_holds holds b
    exact ⟨node48 n', by rw [removeChild, removed, map_some], holds', rfl⟩
  | node256 n =>
    obtain ⟨n', removed, holds'⟩ := Node256.removeChild_holds holds b
    exact ⟨node256 n', by rw [removeChild, removed, map_some], holds', rfl⟩

/-- A full node grows into one that is not full, and that its children and one more need. -/
theorem grow_holds (holds : t.Holds m) (full : t.isFull = true) :
    ∃ t', t.grow = some t' ∧ t'.Holds m ∧ t'.isFull = false ∧ t'.least ≤ size m + 1 := by
  have count := holds.numChildren
  cases t with
  | node4 n =>
    have many : 4 ≤ n.count := of_decide_eq_true full
    have total := SortedNode.Holds.length_le holds
    have fits : (listed m allBytes).length ≤ 16 := by omega
    obtain ⟨n', grown, holds'⟩ := SortedNode.moveChildren_holds holds fits
    have count' : n'.count = size m := holds'.count.trans (size_eq m).symm
    rw [← size_eq] at total
    refine ⟨node16 n', ?_, holds', ?_, ?_⟩
    · rw [grow, Node4.intoNode16, grown, map_some]
    · exact decide_eq_false (by omega)
    · exact Nat.succ_le_succ (count ▸ many)
  | node16 n =>
    have many : 16 ≤ n.count := of_decide_eq_true full
    have total := SortedNode.Holds.length_le holds
    rw [← size_eq] at total
    obtain ⟨n', grown, holds'⟩ := Node16.intoNode48_holds holds
    refine ⟨node48 n', ?_, holds', ?_, ?_⟩
    · rw [grow, grown, map_some]
    · have count' : n'.count = size m := holds'.2
      exact decide_eq_false (by omega)
    · exact Nat.succ_le_succ (count ▸ many)
  | node48 n =>
    have many : 48 ≤ n.count := of_decide_eq_true full
    obtain ⟨n', grown, holds'⟩ := Node48.intoNode256_holds holds
    refine ⟨node256 n', ?_, holds', rfl, ?_⟩
    · rw [grow, grown, map_some]
    · exact Nat.succ_le_succ (count ▸ many)
  | node256 n => cases full

/-- A node that should shrink after a removal has the children for the smaller layout. -/
theorem shrink_holds (holds : t.Holds m) (under : t.shouldShrink = true)
    (needed : t.least ≤ size m + 1) :
    ∃ t', t.shrink = some t' ∧ t'.Holds m ∧ t'.least ≤ size m := by
  have count := holds.numChildren
  cases t with
  | node4 n => cases under
  | node16 n =>
    have few : n.count ≤ 4 := of_decide_eq_true under
    have total : (listed m allBytes).length ≤ 4 := (SortedNode.Holds.count holds) ▸ few
    obtain ⟨n', shrunk, holds'⟩ := SortedNode.moveChildren_holds holds total
    refine ⟨node4 n', ?_, holds', Nat.zero_le _⟩
    rw [shrink, Node16.intoNode4, if_pos few, shrunk, map_some]
  | node48 n =>
    have few : n.count ≤ 16 := of_decide_eq_true under
    obtain ⟨n', shrunk, holds'⟩ := Node48.intoNode16_holds holds (count ▸ few)
    refine ⟨node16 n', by rw [shrink, shrunk, map_some], holds', ?_⟩
    change 5 ≤ size m
    change 17 ≤ size m + 1 at needed
    omega
  | node256 n =>
    have few : n.count ≤ 48 := of_decide_eq_true under
    obtain ⟨n', shrunk, holds'⟩ := Node256.intoNode48_holds holds (count ▸ few)
    refine ⟨node48 n', by rw [shrink, shrunk, map_some], holds', ?_⟩
    change 17 ≤ size m
    change 49 ≤ size m + 1 at needed
    omega

theorem least_le (holds : t.Holds m) (kept : t.shouldShrink = false) : t.least ≤ size m := by
  have count := holds.numChildren
  cases t with
  | node4 n => exact Nat.zero_le _
  | node16 n | node48 n | node256 n => exact count ▸ not_le.mp (of_decide_eq_false kept)

end NodeType

/-- What a call does to the map; a single child is taken out when it is the only one. -/
def Call.apply (m : UInt8 → Option α) : Call α → UInt8 → Option α
  | .add byte child => update m byte (some child)
  | .remove byte => update m byte none
  | .takeSingle => fun _ => none

def Call.Allowed (m : UInt8 → Option α) : Call α → Prop
  | .add byte _ => m byte = none
  | .remove _ => True
  | .takeSingle => size m = 1

/-- Every call of a sequence is allowed where it is made. -/
def Allowed : (UInt8 → Option α) → List (Call α) → Prop
  | _, [] => True
  | m, call :: rest => call.Allowed m ∧ Allowed (call.apply m) rest

/-- The children added and not removed since. -/
def held (calls : List (Call α)) : UInt8 → Option α := calls.foldl Call.apply fun _ => none

namespace InnerNode

variable {node : InnerNode α}

/-- The node holds the map in a layout that its children need. -/
structure Represents (node : InnerNode α) (m : UInt8 → Option α) : Prop where
  holds : node.nodeType.Holds m
  needed : node.nodeType.least ≤ size m

theorem newNode4_represents : (newNode4 : InnerNode α).Represents fun _ => none where
  holds := by
    have nothing : listed (fun _ => none : UInt8 → Option α) allBytes = [] := by simp [listed]
    change SortedNode.Holds _ (listed _ _)
    rw [nothing]
    exact SortedNode.new_holds
  needed := Nat.zero_le _

theorem addChild_represents (rep : node.Represents m) (absent : m b = none) (c : α) :
    ∃ node', node.addChild b c = some node' ∧ node'.Represents (update m b (some c)) := by
  have room : ∃ t, node.nodeType.growIfFull = some t ∧ t.Holds m ∧ t.isFull = false ∧
      t.least ≤ size m + 1 := by
    rw [growIfFull]
    cases full : node.nodeType.isFull with
    | true => exact grow_holds rep.holds full
    | false => exact ⟨node.nodeType, rfl, rep.holds, full, Nat.le_succ_of_le rep.needed⟩
  obtain ⟨t, grown, holds, notFull, needed⟩ := room
  obtain ⟨t', inserted, holds', same⟩ := insertChild_holds holds absent notFull c
  refine ⟨⟨node.pfx, t'⟩, ?_, holds', ?_⟩
  · simp [addChild, grown, inserted]
  · rw [same, size_insert absent]
    exact needed

theorem removeChild_represents (rep : node.Represents m) (b : UInt8) :
    ∃ node', node.removeChild b = some node' ∧ node'.Represents (update m b none) := by
  obtain ⟨t, removed, holds, same⟩ := removeChild_holds rep.holds b
  have needed : t.least ≤ size (update m b none) + 1 := by
    rw [same]
    cases here : m b with
    | none =>
      rw [← here, update_eq_self]
      exact Nat.le_succ_of_le rep.needed
    | some c => exact size_remove here ▸ rep.needed
  have smaller : ∃ t', t.shrinkIfSparse = some t' ∧ t'.Holds (update m b none) ∧
      t'.least ≤ size (update m b none) := by
    rw [shrinkIfSparse]
    cases under : t.shouldShrink with
    | true => exact shrink_holds holds under needed
    | false => exact ⟨t, rfl, holds, least_le holds under⟩
  obtain ⟨t', shrunk, holds', needed'⟩ := smaller
  refine ⟨⟨node.pfx, t'⟩, ?_, holds', needed'⟩
  simp [removeChild, removed, shrunk]

/-- A single child sits in the smallest layout, where it is found first. -/
theorem takeSingleChild_represents (rep : node.Represents m) (present : m b = some c)
    (single : size m = 1) : ∃ node', node.takeSingleChild = some ((b, c), node') ∧
      node'.Represents fun _ => none := by
  obtain ⟨pfx, t⟩ := node
  obtain ⟨holds, needed⟩ := rep
  have one : t.numChildren = 1 := NodeType.Holds.numChildren holds ▸ single
  rw [single] at needed
  cases t with
  | node4 n =>
    have alone : listed m allBytes = [(b, c)] := by
      obtain ⟨e, only⟩ := length_eq_one_iff.mp (size_eq m ▸ single)
      have member : (b, c) ∈ listed m allBytes := mem_listed.mpr ⟨mem_allBytes b, present⟩
      rw [only, mem_singleton] at member
      rw [only, member]
    have holds1 : SortedNode.Holds n [(b, c)] := alone ▸ holds
    obtain ⟨n', taken, holds'⟩ := SortedNode.takeSingle_holds holds1
    refine ⟨⟨pfx, .node4 n'⟩, ?_, ?_, Nat.zero_le _⟩
    · simp [takeSingleChild, numChildren, one, takeSingle, taken, Prod.map, id]
    · have nothing : listed (fun _ => none : UInt8 → Option α) allBytes = [] := by simp [listed]
      change SortedNode.Holds _ (listed _ _)
      rwa [nothing]
  | node16 n => exact absurd needed (by decide : ¬ 5 ≤ 1)
  | node48 n => exact absurd needed (by decide : ¬ 17 ≤ 1)
  | node256 n => exact absurd needed (by decide : ¬ 49 ≤ 1)

theorem exists_single (single : size m = 1) : ∃ b c, m b = some c := by
  obtain ⟨b, _, present⟩ := countP_pos_iff.mp (Nat.lt_of_lt_of_eq zero_lt_one single.symm)
  exact ⟨b, isSome_iff_exists.mp present⟩

theorem call_represents (rep : node.Represents m) {call : Call α} (allowed : call.Allowed m) :
    ∃ node', node.call call = some node' ∧ node'.Represents (call.apply m) := by
  cases call with
  | add b c => exact addChild_represents rep allowed c
  | remove b => exact removeChild_represents rep b
  | takeSingle =>
    obtain ⟨b, c, present⟩ := exists_single allowed
    obtain ⟨node', taken, rep'⟩ := takeSingleChild_represents rep present allowed
    exact ⟨node', by rw [call, taken, map_some], rep'⟩

theorem run_represents {calls : List (Call α)} (rep : node.Represents m)
    (allowed : Allowed m calls) : ∃ node', calls.foldlM call node = some node' ∧
      node'.Represents (calls.foldl Call.apply m) := by
  induction calls generalizing node m with
  | nil => exact ⟨node, rfl, rep⟩
  | cons call rest ih =>
    obtain ⟨here, later⟩ := allowed
    obtain ⟨node1, made, rep1⟩ := call_represents rep here
    obtain ⟨node2, run, rep2⟩ := ih rep1 later
    exact ⟨node2, by rw [foldlM_cons, made]; exact run, rep2⟩

end InnerNode

/-- A sequence of calls runs without a panic and leaves a node that is the map of the
children added and not removed since. -/
theorem innerNode_is_byteMap {calls : List (Call α)} (allowed : Allowed (fun _ => none) calls) :
    ∃ node, calls.foldlM call newNode4 = some node ∧
      (∀ b, node.findChild b = some (held calls b)) ∧ node.numChildren = size (held calls) ∧
      ∀ b c, held calls b = some c → size (held calls) = 1 →
        ∃ node', node.takeSingleChild = some ((b, c), node') := by
  obtain ⟨node, run, rep⟩ := run_represents newNode4_represents allowed
  refine ⟨node, run, NodeType.Holds.findChild rep.holds, NodeType.Holds.numChildren rep.holds, ?_⟩
  intro b c present single
  obtain ⟨node', taken, _⟩ := takeSingleChild_represents rep present single
  exact ⟨node', taken⟩

/-- Five children, one more than the smallest layout has room for, and back to one. -/
theorem five_children_are_byteMap :
    let calls : List (Call Nat) := [.add 9 1, .add 3 2, .add 0 3, .add 255 4, .add 7 5, .remove 3,
      .remove 9, .remove 8, .remove 0, .remove 7, .takeSingle, .add 3 6]
    ∃ node, calls.foldlM call newNode4 = some node ∧
      (∀ b, node.findChild b = some (held calls b)) ∧ node.numChildren = size (held calls) ∧
      ∀ b c, held calls b = some c → size (held calls) = 1 →
        ∃ node', node.takeSingleChild = some ((b, c), node') :=
  innerNode_is_byteMap ⟨rfl, rfl, rfl, rfl, rfl, trivial, trivial, trivial, trivial, trivial,
    (by decide +kernel : size _ = 1), rfl, trivial⟩

end GalaxDb.InnerNodes
