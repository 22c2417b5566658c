import GalaxDb.Lib.Run
import Mathlib.Data.Finset.Basic
import Mathlib.Data.List.AList
import Mathlib.Data.List.Range

/-!
# The clock-sweep cache

A circular buffer of slots, a map from keys to slots and a stack of free slots. A put into a
full cache sweeps the hand over the slots: a referenced entry loses its bit, an unreferenced
one its slot, a protected one nothing. A round takes the bit of every entry that is not
protected, so two rounds find a victim if there is one. An index out of range gives no result.
-/

namespace GalaxDb.BufferPool

open List Option

universe u v

variable {K : Type u} {V : Type v} [DecidableEq K]

structure ClockEntry (K : Type u) (V : Type v) where
  key : K
  value : V
  referenced : Bool

inductive ClockSlot (K : Type u) (V : Type v) where
  | occupied (entry : ClockEntry K V)
  | free

/-- The free list has the slot to take first in front. -/
structure ClockSweep (K : Type u) (V : Type v) where
  capacity : Nat
  slots : List (ClockSlot K V)
  map : AList fun _ : K => Nat
  hand : Nat
  freeList : List Nat

namespace ClockSweep

def new (capacity : Nat) : ClockSweep K V :=
  ⟨capacity, List.replicate capacity .free, ∅, 0, List.range capacity⟩

def len (c : ClockSweep K V) : Nat := c.map.keys.length

def get (c : ClockSweep K V) (key : K) : Option (Option V × ClockSweep K V) :=
  match c.map.lookup key with
  | none => some (none, c)
  | some idx =>
    match c.slots[idx]? with
    | none => none
    | some .free => some (none, c)
    | some (.occupied entry) =>
      some (some entry.value,
        { c with slots := c.slots.set idx (.occupied { entry with referenced := true }) })

/-- The rounds of the sweep that are left. -/
def sweep (protectedKeys : Finset K) : Nat → ClockSweep K V →
    Option (Option (K × V) × ClockSweep K V)
  | 0, c => some (none, c)
  | n + 1, c =>
    let idx := c.hand
    let next := { c with hand := (c.hand + 1) % c.capacity }
    match c.slots[idx]? with
    | none => none
    | some .free => sweep protectedKeys n next
    | some (.occupied entry) =>
      if entry.key ∈ protectedKeys then sweep protectedKeys n next
      else if entry.referenced then
        sweep protectedKeys n
          { next with slots := c.slots.set idx (.occupied { entry with referenced := false }) }
      else
        some (some (entry.key, entry.value), { next with
            map := c.map.erase entry.key
            slots := c.slots.set idx .free
            freeList := idx :: c.freeList })

def clockSweepEvict (protectedKeys : Finset K) (c : ClockSweep K V) :
    Option (Option (K × V) × ClockSweep K V) :=
  sweep protectedKeys (c.capacity * 2) c

/-- A free slot is taken, if there is one. -/
def insertNew (c : ClockSweep K V) (key : K) (value : V) (evicted : Option (K × V)) :
    Option (Option (K × V) × ClockSweep K V) :=
  match c.freeList with
  | [] => some (none, c)
  | idx :: rest =>
    if idx < c.slots.length then
      some (evicted, { c with
        freeList := rest
        slots := c.slots.set idx (.occupied ⟨key, value, true⟩)
        map := c.map.insert key idx })
    else none

def putNew (c : ClockSweep K V) (key : K) (value : V) (protectedKeys : Finset K) :
    Option (Option (K × V) × ClockSweep K V) := do
  let (evicted, c) ← if c.freeList = [] then c.clockSweepEvict protectedKeys else some (none, c)
  c.insertNew key value evicted

def putWithConstraint (c : ClockSweep K V) (key : K) (value : V) (protectedKeys : Finset K) :
    Option (Option (K × V) × ClockSweep K V) :=
  match c.map.lookup key with
  | none => c.putNew key value protectedKeys
  | some idx =>
    match c.slots[idx]? with
    | none => none
    | some .free => c.putNew key value protectedKeys
    | some (.occupied entry) =>
      some (none,
        { c with slots := c.slots.set idx (.occupied { entry with value, referenced := true }) })

def put (c : ClockSweep K V) (key : K) (value : V) : Option (Option (K × V) × ClockSweep K V) :=
  c.putWithConstraint key value ∅

def remove (c : ClockSweep K V) (key : K) : Option (Option V × ClockSweep K V) :=
  match c.map.lookup key with
  | none => some (none, c)
  | some idx =>
    match c.slots[idx]? with
    | none => none
    | some slot =>
      some (match slot with
          | .occupied entry => some entry.value
          | .free => none,
        { c with
          map := c.map.erase key
          slots := c.slots.set idx .free
          freeList := idx :: c.freeList })

end ClockSweep

namespace ClockSweep

variable {c c' : ClockSweep K V} {key : K} {value : V} {idx : Nat}

/-- The key and the value in a slot. -/
def view (c : ClockSweep K V) (idx : Nat) : Option (K × V) :=
  match c.slots[idx]? with
  | some (.occupied entry) => some (entry.key, entry.value)
  | _ => none

/-- The value that a key is mapped to. -/
def contents (c : ClockSweep K V) (key : K) : Option V :=
  (c.map.lookup key).bind fun idx => (c.view idx).map Prod.snd

/-- The map and the occupied slots say the same, the other slots are the free ones, each of
them once, and no slot is missing. -/
structure Consistent (c : ClockSweep K V) : Prop where
  slots : c.slots.length = c.capacity
  hand : c.hand < c.capacity
  mapped : ∀ key idx, c.map.lookup key = some idx ↔ ∃ value, c.view idx = some (key, value)
  free : ∀ idx, idx ∈ c.freeList ↔ idx < c.capacity ∧ c.view idx = none
  nodup : c.freeList.Nodup
  count : c.len + c.freeList.length = c.capacity

omit [DecidableEq K] in
theorem lt_of_view (found : c.view idx = some (key, value)) : idx < c.slots.length := by
  by_contra outside
  rw [view, getElem?_eq_none (not_lt.mp outside)] at found
  cases found

theorem Consistent.contents_iff (consistent : Consistent c) :
    c.contents key = some value ↔ ∃ idx, c.view idx = some (key, value) := by
  rw [contents, bind_eq_some_iff]
  constructor
  · rintro ⟨idx, mapped, shown⟩
    obtain ⟨value', found⟩ := (consistent.mapped key idx).mp mapped
    rw [found] at shown
    obtain rfl := some.inj shown
    exact ⟨idx, found⟩
  · rintro ⟨idx, found⟩
    exact ⟨idx, (consistent.mapped key idx).mpr ⟨value, found⟩, by rw [found]; rfl⟩

theorem Consistent.slot_of (consistent : Consistent c) (held : c.contents key = some value) :
    ∃ idx entry, c.map.lookup key = some idx ∧ c.slots[idx]? = some (.occupied entry) ∧
      entry.key = key ∧ entry.value = value := by
  obtain ⟨idx, shown⟩ := consistent.contents_iff.mp held
  have mapped := (consistent.mapped key idx).mpr ⟨value, shown⟩
  rw [view] at shown
  split at shown
  · rename_i entry found
    obtain ⟨rfl, rfl⟩ := Prod.mk.inj (some.inj shown)
    exact ⟨idx, entry, mapped, found, rfl, rfl⟩
  · cases shown

theorem Consistent.lookup_eq_none (consistent : Consistent c) (absent : c.contents key = none) :
    c.map.lookup key = none := by
  cases mapped : c.map.lookup key with
  | none => rfl
  | some idx =>
    obtain ⟨v, shown⟩ := (consistent.mapped key idx).mp mapped
    rw [consistent.contents_iff.mpr ⟨idx, shown⟩] at absent
    cases absent

/-- A change of reference bits and of the hand. -/
structure Same (c c' : ClockSweep K V) : Prop where
  capacity : c'.capacity = c.capacity
  length : c'.slots.length = c.slots.length
  map : c'.map = c.map
  freeList : c'.freeList = c.freeList
  view : ∀ idx, c'.view idx = c.view idx

theorem Same.consistent (same : Same c c') (consistent : Consistent c)
    (hand : c'.hand < c'.capacity) : Consistent c' := by
  refine ⟨?_, hand, fun key idx => ?_, fun idx => ?_, ?_, ?_⟩
  · rw [same.length, same.capacity, consistent.slots]
  · rw [same.map, same.view, consistent.mapped]
  · rw [same.freeList, same.capacity, same.view, consistent.free]
  · rw [same.freeList]
    exact consistent.nodup
  · rw [len, same.map, same.freeList, same.capacity]
    exact consistent.count

theorem Same.contents (same : Same c c') : c'.contents = c.contents := by
  funext key
  rw [ClockSweep.contents, ClockSweep.contents, same.map]
  congr 1
  funext idx
  rw [same.view]

omit [DecidableEq K] in
theorem view_set {slot : ClockSlot K V} (inside : idx < c.slots.length) (j : Nat) :
    view { c with slots := c.slots.set idx slot } j = if j = idx then
        match slot with
        | .occupied entry => some (entry.key, entry.value)
        | .free => none
      else c.view j := by
  rw [view]
  by_cases here : j = idx
  · subst here
    simp only [getElem?_set_self inside, if_true]
    cases slot <;> rfl
  · simp only [getElem?_set_ne (Ne.symm here), if_neg here]
    rfl

/-- The slot of a key becomes free. -/
theorem Consistent.vacate (consistent : Consistent c) (found : c.view idx = some (key, value))
    {hand : Nat} (inside : hand < c.capacity) :
    Consistent { c with
      hand := hand
      map := c.map.erase key
      slots := c.slots.set idx .free
      freeList := idx :: c.freeList } := by
  have lt := lt_of_view found
  have mapped := (consistent.mapped key idx).mpr ⟨value, found⟩
  have view (j : Nat) : ClockSweep.view { c with
      hand := hand
      map := c.map.erase key
      slots := c.slots.set idx .free
      freeList := idx :: c.freeList } j = if j = idx then none else c.view j :=
    view_set lt j
  refine ⟨by rw [length_set, consistent.slots], inside, fun k j => ?_, fun j => ?_, ?_, ?_⟩
  · rw [view]
    by_cases same : k = key
    · subst same
      refine iff_of_false (by simp) ?_
      rintro ⟨v, shown⟩
      split at shown
      · cases shown
      · rename_i other
        have at_j := (consistent.mapped k j).mpr ⟨v, shown⟩
        exact other (some.inj (at_j.symm.trans mapped))
    · rw [AList.lookup_erase_ne same, consistent.mapped]
      split
      · rename_i here
        subst here
        rw [found]
        simp [Ne.symm same]
      · rfl
  · rw [view, mem_cons, consistent.free]
    split
    · rename_i here
      subst here
      simpa using consistent.slots ▸ lt
    · rename_i other
      simp [other]
  · refine nodup_cons.mpr ⟨fun mem => ?_, consistent.nodup⟩
    have empty := ((consistent.free idx).mp mem).2
    rw [found] at empty
    cases empty
  · have there : key ∈ c.map.keys :=
      AList.mem_keys.mpr (AList.lookup_isSome.mp (by rw [mapped]; rfl))
    have count := consistent.count
    have positive := length_pos_of_mem there
    change (c.map.erase key).keys.length + (idx :: c.freeList).length = c.capacity
    rw [len] at count
    rw [AList.keys_erase, length_erase_of_mem there, length_cons]
    omega

/-- The first free slot gets a new key. -/
theorem Consistent.place (consistent : Consistent c) (new : c.map.lookup key = none)
    {rest : List Nat} (free : c.freeList = idx :: rest) (value : V) (referenced : Bool) :
    Consistent { c with
      freeList := rest
      slots := c.slots.set idx (.occupied ⟨key, value, referenced⟩)
      map := c.map.insert key idx } := by
  obtain ⟨inside, empty⟩ := (consistent.free idx).mp (free ▸ mem_cons_self)
  have lt : idx < c.slots.length := consistent.slots ▸ inside
  have view (j : Nat) : ClockSweep.view { c with
      freeList := rest
      slots := c.slots.set idx (.occupied ⟨key, value, referenced⟩)
      map := c.map.insert key idx } j = if j = idx then some (key, value) else c.view j :=
    view_set lt j
  obtain ⟨fresh, nodup⟩ := nodup_cons.mp (free ▸ consistent.nodup)
  refine ⟨by rw [length_set, consistent.slots], consistent.hand, fun k j => ?_, fun j => ?_,
    nodup, ?_⟩
  · rw [view]
    by_cases same : k = key
    · subst same
      rw [AList.lookup_insert]
      constructor
      · intro here
        obtain rfl := some.inj here
        exact ⟨value, if_pos rfl⟩
      · rintro ⟨v, shown⟩
        split at shown
        · rename_i here
          rw [here]
        · have mapped := (consistent.mapped k j).mpr ⟨v, shown⟩
          rw [new] at mapped
          cases mapped
    · rw [AList.lookup_insert_ne same, consistent.mapped]
      split
      · rename_i here
        subst here
        rw [empty]
        simp [Ne.symm same]
      · rfl
  · rw [view]
    have before := consistent.free j
    rw [free, mem_cons] at before
    split
    · rename_i here
      subst here
      simpa using fresh
    · rename_i other
      rw [← before]
      simp [other]
  · have absent : key ∉ c.map.keys := fun there =>
      AList.lookup_eq_none.mp new (AList.mem_keys.mpr there)
    have count := consistent.count
    rw [free, length_cons] at count
    change (c.map.insert key idx).keys.length + rest.length = c.capacity
    rw [len] at count
    rw [AList.keys_insert, erase_of_not_mem absent, length_cons]
    omega

/-- A key gets another value in its slot. -/
theorem Consistent.update (consistent : Consistent c) (found : c.view idx = some (key, value))
    (entry : ClockEntry K V) (same : entry.key = key) :
    Consistent { c with slots := c.slots.set idx (.occupied entry) } := by
  have lt := lt_of_view found
  have view (j : Nat) : ClockSweep.view { c with slots := c.slots.set idx (.occupied entry) } j =
      if j = idx then some (key, entry.value) else c.view j := by
    subst same
    exact view_set lt j
  refine ⟨by rw [length_set, consistent.slots], consistent.hand, fun k j => ?_, fun j => ?_,
    consistent.nodup, consistent.count⟩
  · rw [view, consistent.mapped]
    split
    · rename_i here
      subst here
      rw [found]
      simp
    · rfl
  · rw [view, consistent.free]
    split
    · rename_i here
      subst here
      rw [found]
      simp
    · rfl

/-- A change of one slot leaves the keys alone that are not in it. -/
theorem contents_of_view (consistent : Consistent c) (consistent' : Consistent c') (idx : Nat)
    (before : ∀ k v, c.view idx = some (k, v) → k = key)
    (after : ∀ k v, c'.view idx = some (k, v) → k = key)
    (others : ∀ j, j ≠ idx → c'.view j = c.view j) {k : K} (other : k ≠ key) :
    c'.contents k = c.contents k := by
  ext v
  rw [consistent.contents_iff, consistent'.contents_iff]
  refine exists_congr fun j => ?_
  by_cases here : j = idx
  · subst here
    exact iff_of_false (fun shown => other (after k v shown)) fun shown => other (before k v shown)
  · rw [others j here]

end ClockSweep

namespace ClockSweep

variable {c c' : ClockSweep K V} {protectedKeys : Finset K}

/-- What a sweep leaves: the same entries, or all but one that was not protected. -/
structure Swept (protectedKeys : Finset K) (c : ClockSweep K V) (evicted : Option (K × V))
    (c' : ClockSweep K V) : Prop where
  consistent : Consistent c'
  nothing : evicted = none → Same c c'
  victim : ∀ k v, evicted = some (k, v) → k ∉ protectedKeys ∧ c.contents k = some v ∧
    c'.contents k = none ∧ (∀ other, other ≠ k → c'.contents other = c.contents other) ∧
    ∃ idx, c'.freeList = idx :: c.freeList

omit [DecidableEq K] in
theorem Same.trans {c'' : ClockSweep K V} (first : Same c c') (second : Same c' c'') :
    Same c c'' where
  capacity := second.capacity.trans first.capacity
  length := second.length.trans first.length
  map := second.map.trans first.map
  freeList := second.freeList.trans first.freeList
  view idx := (second.view idx).trans (first.view idx)

theorem Swept.of_same {c0 : ClockSweep K V} {evicted : Option (K × V)} (same : Same c0 c)
    (swept : Swept protectedKeys c evicted c') : Swept protectedKeys c0 evicted c' := by
  refine ⟨swept.consistent, fun none => same.trans (swept.nothing none), fun k v some => ?_⟩
  have victim := swept.victim k v some
  rwa [same.contents, same.freeList] at victim

/-- The hand moves on. -/
def advance (c : ClockSweep K V) : ClockSweep K V :=
  { c with hand := (c.hand + 1) % c.capacity }

omit [DecidableEq K] in
theorem same_advance (c : ClockSweep K V) : Same c c.advance :=
  ⟨rfl, rfl, rfl, rfl, fun _ => rfl⟩

theorem Consistent.advance (consistent : Consistent c) : Consistent c.advance :=
  (same_advance c).consistent consistent
    (Nat.mod_lt _ ((Nat.zero_le _).trans_lt consistent.hand))

/-- The reference bit of a slot is cleared behind the hand. -/
def clearAt (c : ClockSweep K V) (idx : Nat) (entry : ClockEntry K V) : ClockSweep K V :=
  { c.advance with slots := c.slots.set idx (.occupied { entry with referenced := false }) }

variable {entry : ClockEntry K V} {idx j : Nat}

omit [DecidableEq K] in
theorem same_clearAt (found : c.slots[idx]? = some (.occupied entry)) :
    Same c (c.clearAt idx entry) := by
  refine ⟨rfl, length_set, rfl, rfl, fun j => ?_⟩
  obtain ⟨inside, -⟩ := List.getElem?_eq_some_iff.mp found
  have view := @view_set K V c.advance idx (.occupied { entry with referenced := false }) inside j
  refine view.trans ?_
  split
  · rename_i here
    rw [here, ClockSweep.view, found]
  · rfl

theorem Consistent.clearAt (consistent : Consistent c)
    (found : c.slots[idx]? = some (.occupied entry)) : Consistent (c.clearAt idx entry) :=
  (same_clearAt found).consistent consistent consistent.advance.hand

/-- One round of a sweep. -/
theorem sweep_step (consistent : Consistent c) (n : Nat) :
    (sweep protectedKeys (n + 1) c = sweep protectedKeys n c.advance ∧
        ∀ entry, c.slots[c.hand]? = some (.occupied entry) → entry.key ∈ protectedKeys) ∨
      ∃ entry, c.slots[c.hand]? = some (.occupied entry) ∧ entry.key ∉ protectedKeys ∧
        (entry.referenced = true ∧
            sweep protectedKeys (n + 1) c = sweep protectedKeys n (c.clearAt c.hand entry) ∨
          entry.referenced = false ∧
            sweep protectedKeys (n + 1) c = some (some (entry.key, entry.value), { c.advance with
              map := c.map.erase entry.key
              slots := c.slots.set c.hand .free
              freeList := c.hand :: c.freeList })) := by
  obtain ⟨slot, found⟩ : ∃ slot, c.slots[c.hand]? = some slot :=
    ⟨_, getElem?_eq_getElem (consistent.slots ▸ consistent.hand)⟩
  cases slot with
  | free => exact Or.inl ⟨by simp only [sweep, found, advance], by simp [found]⟩
  | occupied entry =>
    by_cases kept : entry.key ∈ protectedKeys
    · refine Or.inl ⟨by simp only [sweep, found, kept, advance, if_true], fun other same => ?_⟩
      rw [found] at same
      cases same
      exact kept
    · refine Or.inr ⟨entry, found, kept, ?_⟩
      cases referenced : entry.referenced with
      | true =>
        left
        simp only [sweep, found, kept, referenced, clearAt, advance, if_true, if_false, true_and]
      | false =>
        simp [sweep, found, kept, referenced, advance]

theorem sweep_spec (n : Nat) (consistent : Consistent c) :
    ∃ evicted c', sweep protectedKeys n c = some (evicted, c') ∧
      Swept protectedKeys c evicted c' := by
  induction n generalizing c with
  | zero =>
    exact ⟨none, c, rfl, consistent, fun _ => ⟨rfl, rfl, rfl, rfl, fun _ => rfl⟩, by simp⟩
  | succ n ih =>
    rcases @sweep_step K V _ c protectedKeys consistent n with
      ⟨skipped, -⟩ | ⟨entry, found, open_, ⟨-, cleared⟩ | ⟨-, taken⟩⟩
    · obtain ⟨evicted, c', swept, spec⟩ := ih consistent.advance
      exact ⟨evicted, c', skipped.trans swept, spec.of_same (same_advance c)⟩
    · obtain ⟨evicted, c', swept, spec⟩ := ih (consistent.clearAt found)
      exact ⟨evicted, c', cleared.trans swept, spec.of_same (same_clearAt found)⟩
    · have shown : c.view c.hand = some (entry.key, entry.value) := by rw [view, found]
      have left := consistent.vacate shown consistent.advance.hand
      refine ⟨_, _, taken, left, by simp, fun k v same => ?_⟩
      obtain ⟨rfl, rfl⟩ := Prod.mk.inj (some.inj same)
      have empty (j : Nat) := @view_set K V c c.hand .free (lt_of_view shown) j
      refine ⟨open_, consistent.contents_iff.mpr ⟨_, shown⟩, ?_, fun other ne => ?_, _, rfl⟩
      · rw [contents, AList.lookup_erase]
        rfl
      · refine contents_of_view consistent left c.hand (fun k v same => ?_) (fun k v same => ?_)
          (fun j away => (empty j).trans (if_neg away)) ne
        · rw [shown] at same
          exact (Prod.mk.inj (some.inj same)).1.symm
        · cases same.symm.trans ((empty c.hand).trans (if_pos rfl))

/-- The slots that the hand passes before it comes to a slot. -/
def gap (c : ClockSweep K V) (j : Nat) : Nat :=
  if c.hand ≤ j then j - c.hand else j + c.capacity - c.hand

omit [DecidableEq K] in
theorem hand_advance (inside : c.hand < c.capacity) :
    c.advance.hand = if c.hand + 1 = c.capacity then 0 else c.hand + 1 := by
  rw [advance]
  split
  · rename_i last
    simp [last]
  · exact Nat.mod_eq_of_lt (by omega)

omit [DecidableEq K] in
theorem gap_advance (hand : c.hand < c.capacity) (inside : j < c.capacity) :
    c.advance.gap j + 1 = if j = c.hand then c.capacity else c.gap j := by
  have moved := hand_advance hand
  have same : c.advance.capacity = c.capacity := rfl
  rw [gap, gap, same, moved]
  split_ifs <;> omega

/-- The rounds until an entry that is not protected is evicted, if nothing is before. -/
def roundsTo (c : ClockSweep K V) (j : Nat) (entry : ClockEntry K V) : Nat :=
  c.gap j + if entry.referenced then c.capacity else 0

/-- Enough rounds evict an entry, if one is not protected. -/
theorem sweep_evicts {n : Nat} (consistent : Consistent c)
    (found : c.slots[j]? = some (.occupied entry)) (open_ : entry.key ∉ protectedKeys)
    (enough : c.roundsTo j entry < n) :
    ∃ victim c', sweep protectedKeys n c = some (some victim, c') := by
  induction n generalizing c entry with
  | zero => exact absurd enough (Nat.not_lt_zero _)
  | succ n ih =>
    have inside : j < c.capacity :=
      consistent.slots ▸ (List.getElem?_eq_some_iff.mp found).1
    have nearer := gap_advance consistent.hand inside
    rcases @sweep_step K V _ c protectedKeys consistent n with
      ⟨skipped, closed⟩ | ⟨entry', at_hand, -, ⟨referenced, cleared⟩ | ⟨-, taken⟩⟩
    · have elsewhere : j ≠ c.hand := by
        rintro rfl
        exact open_ (closed entry found)
      rw [if_neg elsewhere] at nearer
      rw [skipped]
      refine ih consistent.advance found open_ ?_
      have same : c.advance.capacity = c.capacity := rfl
      rw [roundsTo, same]
      rw [roundsTo] at enough
      omega
    · rw [cleared]
      have kept := consistent.clearAt at_hand
      have gap_eq : (c.clearAt c.hand entry').gap j = c.advance.gap j := rfl
      have same : (c.clearAt c.hand entry').capacity = c.capacity := rfl
      rw [roundsTo] at enough
      by_cases here : j = c.hand
      · -- its own bit is cleared, and the hand is a round away
        subst here
        obtain rfl : entry = entry' := by
          rw [found] at at_hand
          cases at_hand
          rfl
        rw [if_pos rfl] at nearer
        rw [referenced, if_pos rfl] at enough
        refine ih kept (getElem?_set_self (List.getElem?_eq_some_iff.mp found).1) open_ ?_
        simp only [roundsTo, gap_eq, Bool.false_eq_true, if_false]
        omega
      · rw [if_neg here] at nearer
        refine ih kept ((getElem?_set_ne (Ne.symm here)).trans found) open_ ?_
        rw [roundsTo, gap_eq, same]
        omega
    · exact ⟨_, _, taken⟩

theorem clockSweepEvict_evicts {k : K} (consistent : Consistent c) (resident : c.contents k ≠ none)
    (open_ : k ∉ protectedKeys) :
    ∃ victim c', c.clockSweepEvict protectedKeys = some (some victim, c') := by
  obtain ⟨v, held⟩ := ne_none_iff_exists'.mp resident
  obtain ⟨j, entry, -, found, rfl, -⟩ := consistent.slot_of held
  have inside : j < c.capacity := consistent.slots ▸ (List.getElem?_eq_some_iff.mp found).1
  refine sweep_evicts consistent found open_ ?_
  rw [roundsTo, gap]
  split_ifs <;> omega

end ClockSweep

namespace ClockSweep

variable {c c' : ClockSweep K V} {protectedKeys : Finset K} {key : K} {value : V}

/-- What a put does: it evicts at most one entry, none that is protected, and leaves the others;
a new key gets into a full cache if and only if an entry is not protected. -/
structure PutOutcome (c : ClockSweep K V) (key : K) (value : V) (protectedKeys : Finset K)
    (evicted : Option (K × V)) (c' : ClockSweep K V) : Prop where
  consistent : Consistent c'
  victim : ∀ k v, evicted = some (k, v) →
    k ∉ protectedKeys ∧ k ≠ key ∧ c.contents k = some v ∧ c'.contents k = none
  others : ∀ k, k ≠ key → (∀ v, evicted ≠ some (k, v)) → c'.contents k = c.contents k
  resident : c.contents key ≠ none → evicted = none ∧ c'.contents key = some value
  room : c.contents key = none → c.len < c.capacity → evicted = none ∧ c'.contents key = some value
  full : c.contents key = none → c.len = c.capacity →
    (c'.contents key = some value ↔ ∃ k, c.contents k ≠ none ∧ k ∉ protectedKeys)
  refused : c'.contents key ≠ some value → evicted = none ∧ c'.contents = c.contents

/-- A new key in a free slot. -/
theorem insertNew_spec (consistent : Consistent c) (absent : c.contents key = none) {idx : Nat}
    {rest : List Nat} (free : c.freeList = idx :: rest) (evicted : Option (K × V)) :
    ∃ c', c.insertNew key value evicted = some (evicted, c') ∧ Consistent c' ∧
      c'.contents key = some value ∧ ∀ k, k ≠ key → c'.contents k = c.contents k := by
  obtain ⟨inside, empty⟩ := (consistent.free idx).mp (free ▸ mem_cons_self)
  have lt : idx < c.slots.length := consistent.slots ▸ inside
  have placed := consistent.place (consistent.lookup_eq_none absent) free value true
  have shown (j : Nat) := @view_set K V c idx (.occupied ⟨key, value, true⟩) lt j
  have here := (shown idx).trans (if_pos rfl)
  refine ⟨_, by simp only [insertNew, free, lt, if_true], placed,
    placed.contents_iff.mpr ⟨idx, here⟩, fun k other => ?_⟩
  refine contents_of_view consistent placed idx (fun k v same => ?_) (fun k v same => ?_)
    (fun j away => (shown j).trans (if_neg away)) other
  · rw [empty] at same
    cases same
  · exact (Prod.mk.inj (some.inj (here.symm.trans same))).1.symm

theorem put_existing (consistent : Consistent c) (resident : c.contents key ≠ none) :
    ∃ c', c.putWithConstraint key value protectedKeys = some (none, c') ∧ Consistent c' ∧
      c'.contents key = some value ∧ ∀ k, k ≠ key → c'.contents k = c.contents k := by
  obtain ⟨old, held⟩ := ne_none_iff_exists'.mp resident
  obtain ⟨idx, entry, mapped, found, same, rfl⟩ := consistent.slot_of held
  have shown : c.view idx = some (key, entry.value) := by simp only [view, found, same]
  have updated := consistent.update shown { entry with value, referenced := true } same
  have after (j : Nat) :=
    @view_set K V c idx (.occupied { entry with value, referenced := true }) (lt_of_view shown) j
  have here := (after idx).trans (if_pos rfl)
  refine ⟨_, by simp only [putWithConstraint, mapped, found], updated,
    updated.contents_iff.mpr ⟨idx, same ▸ here⟩, fun k other => ?_⟩
  refine contents_of_view consistent updated idx (fun k v at_idx => ?_) (fun k v at_idx => ?_)
    (fun j away => (after j).trans (if_neg away)) other
  · rw [shown] at at_idx
    exact (Prod.mk.inj (some.inj at_idx)).1.symm
  · exact (Prod.mk.inj (some.inj (at_idx.symm.trans here))).1.trans same

/-- A put succeeds and does what its outcome says. -/
theorem put_outcome (consistent : Consistent c) (key : K) (value : V) (protectedKeys : Finset K) :
    ∃ evicted c', c.putWithConstraint key value protectedKeys = some (evicted, c') ∧
      PutOutcome c key value protectedKeys evicted c' := by
  have count := consistent.count
  by_cases absent : c.contents key = none
  · have new : c.putWithConstraint key value protectedKeys = c.putNew key value protectedKeys := by
      rw [putWithConstraint, consistent.lookup_eq_none absent]
    rw [new, putNew]
    cases free : c.freeList with
    | cons idx rest =>
      obtain ⟨c', inserted, kept, stored, others⟩ :=
        @insertNew_spec K V _ c key value consistent absent idx rest free none
      refine ⟨none, c', by simpa [free] using inserted, kept, by simp,
        fun k other _ => others k other, fun resident => absurd absent resident,
        fun _ _ => ⟨rfl, stored⟩, fun _ full => ?_, fun refused => absurd stored refused⟩
      rw [free, length_cons] at count
      omega
    | nil =>
      have full : c.len = c.capacity := by simpa [free] using count
      simp only [if_true, bind_eq_bind]
      obtain ⟨evicted, swept, ran, spec⟩ :=
        @sweep_spec K V _ c protectedKeys (c.capacity * 2) consistent
      rw [clockSweepEvict, ran, bind_some]
      cases evicted with
      | none =>
        have same := spec.nothing rfl
        have contents := same.contents
        have closed (k : K) (resident : c.contents k ≠ none) : k ∈ protectedKeys := by
          by_contra open_
          obtain ⟨victim, c', evicts⟩ := clockSweepEvict_evicts consistent resident open_
          rw [clockSweepEvict, ran] at evicts
          cases evicts
        have out : swept.insertNew key value none = some (none, swept) := by
          simp only [insertNew, same.freeList, free]
        refine ⟨none, swept, out, spec.consistent, by simp, fun k _ _ => by rw [contents],
          fun resident => absurd absent resident, fun _ less => absurd full less.ne,
          fun _ _ => ?_, fun _ => ⟨rfl, contents⟩⟩
        rw [contents, absent]
        refine iff_of_false (by simp) ?_
        rintro ⟨k, resident, open_⟩
        exact open_ (closed k resident)
      | some victim =>
        obtain ⟨k, v⟩ := victim
        obtain ⟨open_, held, gone, rest, idx, freed⟩ := spec.victim k v rfl
        have other : key ≠ k := by
          rintro rfl
          rw [absent] at held
          cases held
        obtain ⟨c', inserted, kept, stored, others⟩ :=
          @insertNew_spec K V _ swept key value spec.consistent
            ((rest key other).trans absent) idx _ freed (some (k, v))
        refine ⟨some (k, v), c', inserted, kept, fun k' v' same => ?_, fun k' ne spared => ?_,
          fun resident => absurd absent resident, fun _ less => absurd full less.ne,
          fun _ _ => ?_, fun refused => absurd stored refused⟩
        · obtain ⟨rfl, rfl⟩ := Prod.mk.inj (some.inj same)
          exact ⟨open_, other.symm, held, (others k other.symm).trans gone⟩
        · have away : k' ≠ k := by
            rintro rfl
            exact spared v rfl
          exact (others k' ne).trans (rest k' away)
        · refine iff_of_true stored ⟨k, ?_, open_⟩
          rw [held]
          simp
  · obtain ⟨c', put, kept, stored, others⟩ :=
      @put_existing K V _ c protectedKeys key value consistent absent
    exact ⟨none, c', put, kept, by simp, fun k other _ => others k other, fun _ => ⟨rfl, stored⟩,
      fun none => absurd none absent, fun none => absurd none absent,
      fun refused => absurd stored refused⟩

end ClockSweep

namespace ClockSweep

inductive Call (K : Type u) (V : Type v) where
  | get (key : K)
  | put (key : K) (value : V)
  | putWithConstraint (key : K) (value : V) (protectedKeys : Finset K)
  | remove (key : K)

def step (c : ClockSweep K V) : Call K V → Option (ClockSweep K V)
  | .get key => (c.get key).map Prod.snd
  | .put key value => (c.put key value).map Prod.snd
  | .putWithConstraint key value protectedKeys =>
    (c.putWithConstraint key value protectedKeys).map Prod.snd
  | .remove key => (c.remove key).map Prod.snd

variable {c : ClockSweep K V}

theorem consistent_new {capacity : Nat} (some_slot : 1 ≤ capacity) :
    Consistent (new capacity : ClockSweep K V) := by
  have view (idx : Nat) : (new capacity : ClockSweep K V).view idx = none := by
    rw [ClockSweep.view, new]
    rw [getElem?_replicate]
    split_ifs <;> rfl
  refine ⟨length_replicate, some_slot, fun key idx => ?_, fun idx => ?_, nodup_range, ?_⟩
  · rw [view]
    simp [new]
  · rw [view]
    simp [new]
  · simp [new, len]

theorem get_spec (consistent : Consistent c) (key : K) :
    ∃ c', c.get key = some (c.contents key, c') ∧ Consistent c' ∧ c'.contents = c.contents := by
  cases held : c.contents key with
  | none =>
    exact ⟨c, by rw [get, consistent.lookup_eq_none held], consistent, rfl⟩
  | some value =>
    obtain ⟨idx, entry, mapped, found, rfl, rfl⟩ := consistent.slot_of held
    have same : Same c { c with
        slots := c.slots.set idx (.occupied { entry with referenced := true }) } := by
      refine ⟨rfl, length_set, rfl, rfl, fun j => ?_⟩
      rw [view_set (List.getElem?_eq_some_iff.mp found).1]
      split
      · rename_i here
        rw [here, view, found]
      · rfl
    exact ⟨_, by rw [get, mapped]; simp only [found],
      same.consistent consistent consistent.hand, same.contents⟩

theorem remove_spec (consistent : Consistent c) (key : K) :
    ∃ c', c.remove key = some (c.contents key, c') ∧ Consistent c' := by
  cases held : c.contents key with
  | none => exact ⟨c, by rw [remove, consistent.lookup_eq_none held], consistent⟩
  | some value =>
    obtain ⟨idx, entry, mapped, found, rfl, rfl⟩ := consistent.slot_of held
    have shown : c.view idx = some (entry.key, entry.value) := by rw [view, found]
    exact ⟨_, by rw [remove, mapped]; simp only [found], consistent.vacate shown consistent.hand⟩

theorem step_spec (consistent : Consistent c) (call : Call K V) :
    ∃ c', step c call = some c' ∧ Consistent c' := by
  cases call with
  | get key =>
    obtain ⟨c', got, kept, -⟩ := get_spec consistent key
    exact ⟨c', by rw [step, got]; rfl, kept⟩
  | put key value =>
    obtain ⟨evicted, c', put, outcome⟩ := put_outcome consistent key value ∅
    exact ⟨c', by rw [step, ClockSweep.put, put]; rfl, outcome.consistent⟩
  | putWithConstraint key value protectedKeys =>
    obtain ⟨evicted, c', put, outcome⟩ := put_outcome consistent key value protectedKeys
    exact ⟨c', by rw [step, put]; rfl, outcome.consistent⟩
  | remove key =>
    obtain ⟨c', removed, kept⟩ := remove_spec consistent key
    exact ⟨c', by rw [step, removed]; rfl, kept⟩

/-- Every run keeps the cache consistent, and every put after it finds a victim if there is one. -/
theorem sweeps_find_victims {capacity : Nat} (some_slot : 1 ≤ capacity) (calls : List (Call K V)) :
    ∃ c, Run.run step (new capacity) calls = some c ∧ Consistent c ∧
      ∀ key value protectedKeys, ∃ evicted c',
        c.putWithConstraint key value protectedKeys = some (evicted, c') ∧
          PutOutcome c key value protectedKeys evicted c' := by
  have always : Run.Along step (fun _ _ => True) (new capacity : ClockSweep K V) calls :=
    Run.along_of_forall _ fun _ _ => trivial
  obtain ⟨c, ran, consistent⟩ := Run.invariant (fun c call kept _ => step_spec kept call)
    (consistent_new some_slot) always
  exact ⟨c, ran, consistent, put_outcome consistent⟩

theorem two_slots_find_victims :
    ∃ c, Run.run step (new 2) [.put 1 'a', .put 2 'b', .get 1, .putWithConstraint 3 'c' {1}] =
        some c ∧ Consistent c ∧
      ∀ (key : Nat) (value : Char) protectedKeys, ∃ evicted c',
        c.putWithConstraint key value protectedKeys = some (evicted, c') ∧
          PutOutcome c key value protectedKeys evicted c' :=
  sweeps_find_victims (by decide) _

end ClockSweep

end GalaxDb.BufferPool
