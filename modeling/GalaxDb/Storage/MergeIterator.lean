import GalaxDb.Lib.PriorityQueue
import GalaxDb.Storage.LevelShape

/-!
# The k-way merge

The iterator of the compactor: a heap has the next entry of each unfinished run, and a pop
advances the run that its entry came from. Whatever order the heap keeps equal entries in, the
entries come out sorted and each of them once, so the merge of the compactor's runs agrees with
`collectAll` up to the order of equal keys and timestamps.
-/

namespace GalaxDb.LazyLeveling

open List

section Iterator

structure HeapEntry where
  entry : VersionedEntry
  runIndex : Nat
  position : Nat
  deriving DecidableEq

/-- Smaller keys are greater, and of one key later timestamps are. -/
def HeapEntry.cmp (self other : HeapEntry) : Ordering :=
  match compare other.entry.key self.entry.key with
  | .eq => compare self.entry.timestamp other.entry.timestamp
  | order => order

def HeapEntry.le (a b : HeapEntry) : Prop := (a.cmp b).isLE

instance :
    DecidableRel HeapEntry.le := fun a b => inferInstanceAs (Decidable ((a.cmp b).isLE = true))

abbrev BinaryHeap := PriorityQueue HeapEntry HeapEntry.le

structure MergeIterator where
  runs : List (List VersionedEntry)
  heap : List HeapEntry

inductive Next where
  | exhausted
  | outOfBounds
  | entry (entry : VersionedEntry) (it : MergeIterator)

variable (queue : BinaryHeap)

/-- The first entries of the runs, from an index on. -/
def seed (heap : List HeapEntry) : Nat → List (List VersionedEntry) → List HeapEntry
  | _, [] => heap
  | runIndex, run :: runs =>
    match run.head? with
    | some entry => seed (queue.push ⟨entry, runIndex, 0⟩ heap) (runIndex + 1) runs
    | none => seed heap (runIndex + 1) runs

def MergeIterator.new (runs : List (List VersionedEntry)) : MergeIterator :=
  ⟨runs, seed queue [] 0 runs⟩

def MergeIterator.nextEntry (it : MergeIterator) : Next :=
  match queue.pop it.heap with
  | none => .exhausted
  | some (top, rest) =>
    match it.runs[top.runIndex]? with
    | none => .outOfBounds
    | some run =>
      let nextPos := top.position + 1
      match run[nextPos]? with
      | some entry =>
        .entry top.entry { it with heap := queue.push ⟨entry, top.runIndex, nextPos⟩ rest }
      | none => .entry top.entry { it with heap := rest }

/-- The loop of `collect_all`, for a number of rounds; nothing if it does not end in them. -/
def MergeIterator.collectUpTo : Nat → MergeIterator → Option (List VersionedEntry)
  | 0, _ => none
  | fuel + 1, it =>
    match it.nextEntry queue with
    | .exhausted => some []
    | .outOfBounds => none
    | .entry entry it => (MergeIterator.collectUpTo fuel it).map (entry :: ·)

end Iterator

/-- An entry is the greater one in the heap if it precedes the other. -/
theorem le_iff_precedes {a b : HeapEntry} : a.le b ↔ Precedes b.entry a.entry := by
  rw [HeapEntry.le, HeapEntry.cmp, Precedes]
  cases order : compare b.entry.key a.entry.key with
  | lt => simp
  | eq =>
    rw [Std.LawfulEqOrd.eq_of_compare order]
    simp [Nat.isLE_compare]
  | gt =>
    have other : b.entry.key ≠ a.entry.key := by
      intro same
      simp [same] at order
    simp [other]

theorem precedes_total (a b : VersionedEntry) : Precedes a b ∨ Precedes b a := by
  by_cases before : a.before b
  · exact Or.inl (precedes_of_before before)
  · exact Or.inr (precedes_of_not_before before)

/-- A heap that keeps the runs' order among equal entries. -/
def firstOfEqual : BinaryHeap :=
  PriorityQueue.first (fun a b => by
      rw [le_iff_precedes, le_iff_precedes]
      exact precedes_total b.entry a.entry)
    (fun a b c ab bc => by
      rw [le_iff_precedes] at ab bc ⊢
      exact bc.trans ab)

section Merge

variable {queue : BinaryHeap} {runs : List (List VersionedEntry)} {it : MergeIterator}

/-- The entries of a run from a heap entry on. -/
def HeapEntry.rest (runs : List (List VersionedEntry)) (h : HeapEntry) : List VersionedEntry :=
  (runs[h.runIndex]?.getD []).drop h.position

/-- The heap entry is where it says. -/
def HeapEntry.Placed (runs : List (List VersionedEntry)) (h : HeapEntry) : Prop :=
  ∃ run, runs[h.runIndex]? = some run ∧ run[h.position]? = some h.entry

/-- What has not come out yet. -/
def MergeIterator.remaining (it : MergeIterator) : List VersionedEntry :=
  it.heap.flatMap (HeapEntry.rest it.runs)

variable {h : HeapEntry}

theorem HeapEntry.Placed.rest_eq (placed : h.Placed runs) :
    ∃ run, runs[h.runIndex]? = some run ∧ h.rest runs = h.entry :: run.drop (h.position + 1) := by
  obtain ⟨run, at_run, at_position⟩ := placed
  obtain ⟨inside, found⟩ := List.getElem?_eq_some_iff.mp at_position
  refine ⟨run, at_run, ?_⟩
  rw [HeapEntry.rest, at_run, Option.getD_some, drop_eq_getElem_cons inside, found]

theorem Placed.push {heap : List HeapEntry} (placed : h.Placed runs)
    (others : ∀ x ∈ heap, x.Placed runs) : ∀ x ∈ queue.push h heap, x.Placed runs := by
  intro x mem
  rcases mem_cons.mp ((queue.push_perm h heap).subset mem) with rfl | mem
  · exact placed
  · exact others x mem

theorem remaining_push (h : HeapEntry) (heap : List HeapEntry) :
    ((queue.push h heap).flatMap (HeapEntry.rest runs)).Perm
      (h.rest runs ++ heap.flatMap (HeapEntry.rest runs)) := by
  have perm := (queue.push_perm h heap).flatMap_right (HeapEntry.rest runs)
  rwa [flatMap_cons] at perm

/-- The seeds are placed, and all entries remain. -/
theorem seed_spec (done todo : List (List VersionedEntry)) (split : runs = done ++ todo)
    (heap : List HeapEntry) (placed : ∀ h ∈ heap, h.Placed runs) :
    (∀ h ∈ seed queue heap done.length todo, h.Placed runs) ∧
      ((seed queue heap done.length todo).flatMap (HeapEntry.rest runs)).Perm
        (heap.flatMap (HeapEntry.rest runs) ++ todo.flatten) := by
  induction todo generalizing done heap with
  | nil => exact ⟨placed, by simp [seed]⟩
  | cons run todo ih =>
    have split' : runs = (done ++ [run]) ++ todo := by rw [split, append_assoc]; rfl
    have length : (done ++ [run]).length = done.length + 1 := by simp
    have here : runs[done.length]? = some run := by simp [split]
    rw [seed]
    cases run with
    | nil =>
      have later := ih (done ++ [[]]) split' heap placed
      simpa using later
    | cons entry run =>
      have first : HeapEntry.Placed runs ⟨entry, done.length, 0⟩ := ⟨_, here, rfl⟩
      have later := ih (done ++ [entry :: run]) split'
        (queue.push ⟨entry, done.length, 0⟩ heap) (Placed.push first placed)
      rw [length] at later
      refine ⟨later.1, later.2.trans ?_⟩
      have whole : HeapEntry.rest runs ⟨entry, done.length, 0⟩ = entry :: run := by
        rw [HeapEntry.rest, here]
        rfl
      have perm := (@remaining_push queue runs ⟨entry, done.length, 0⟩ heap).append_right
        todo.flatten
      rw [whole] at perm
      refine perm.trans ?_
      rw [flatten_cons, ← append_assoc]
      exact perm_append_comm.append_right _

theorem HeapEntry.Placed.precedes (placed : h.Placed runs) (ordered : ∀ run ∈ runs, Ordered run) :
    ∀ x ∈ h.rest runs, Precedes h.entry x := by
  obtain ⟨run, at_run, rest⟩ := placed.rest_eq
  have behind : Ordered (h.entry :: run.drop (h.position + 1)) := by
    rw [← rest, HeapEntry.rest, at_run]
    exact (ordered run (mem_of_getElem? at_run)).sublist (drop_sublist _ _)
  intro x mem
  rw [rest] at mem
  rcases mem_cons.mp mem with rfl | mem
  · exact Precedes.refl _
  · exact (pairwise_cons.mp behind).1 x mem

/-- A round ends the merge, or takes an entry that precedes what remains. -/
theorem nextEntry_placed (placed : ∀ h ∈ it.heap, h.Placed it.runs) :
    it.nextEntry queue = .exhausted ∧ it.remaining = [] ∨
      ∃ entry next, it.nextEntry queue = .entry entry next ∧ next.runs = it.runs ∧
        (∀ h ∈ next.heap, h.Placed it.runs) ∧ it.remaining.Perm (entry :: next.remaining) ∧
        ((∀ run ∈ it.runs, Ordered run) → ∀ x ∈ it.remaining, Precedes entry x) := by
  cases popped : queue.pop it.heap with
  | none =>
    have empty := queue.pop_eq_none.mp popped
    exact Or.inl ⟨by rw [MergeIterator.nextEntry, popped], by simp [MergeIterator.remaining, empty]⟩
  | some found =>
    obtain ⟨top, rest⟩ := found
    have perm := queue.pop_perm popped
    have top_placed := placed top (perm.symm.subset mem_cons_self)
    have rest_placed : ∀ h ∈ rest, h.Placed it.runs :=
      fun h mem => placed h (perm.symm.subset (mem_cons_of_mem _ mem))
    obtain ⟨run, at_run, top_rest⟩ := top_placed.rest_eq
    have taken : it.remaining.Perm (top.entry :: (run.drop (top.position + 1) ++
        rest.flatMap (HeapEntry.rest it.runs))) := by
      have all := perm.flatMap_right (HeapEntry.rest it.runs)
      rwa [flatMap_cons, top_rest, cons_append] at all
    have first (ordered : ∀ run ∈ it.runs, Ordered run) :
        ∀ x ∈ it.remaining, Precedes top.entry x := by
      intro x mem
      obtain ⟨h, in_heap, mem⟩ := mem_flatMap.mp mem
      rcases mem_cons.mp (perm.subset in_heap) with rfl | in_rest
      · exact top_placed.precedes ordered x mem
      · have above := le_iff_precedes.mp (queue.pop_greatest popped h in_rest)
        exact above.trans ((rest_placed h in_rest).precedes ordered x mem)
    right
    cases next : run[top.position + 1]? with
    | some entry =>
      have entry_placed : HeapEntry.Placed it.runs ⟨entry, top.runIndex, top.position + 1⟩ :=
        ⟨run, at_run, next⟩
      have entry_rest : HeapEntry.rest it.runs ⟨entry, top.runIndex, top.position + 1⟩ =
          run.drop (top.position + 1) := by
        rw [HeapEntry.rest, at_run, Option.getD_some]
      refine ⟨top.entry, { it with
        heap := queue.push ⟨entry, top.runIndex, top.position + 1⟩ rest }, ?_, rfl,
        Placed.push entry_placed rest_placed, ?_, first⟩
      · simp only [MergeIterator.nextEntry, popped, at_run, next]
      · refine taken.trans (List.Perm.cons _ ?_)
        rw [← entry_rest]
        exact (remaining_push _ rest).symm
    | none =>
      have finished : run.drop (top.position + 1) = [] :=
        drop_eq_nil_of_le (List.getElem?_eq_none_iff.mp next)
      rw [finished, nil_append] at taken
      refine ⟨top.entry, { it with heap := rest }, ?_, rfl, rest_placed, taken, first⟩
      simp only [MergeIterator.nextEntry, popped, at_run, next]

/-- The rounds take what remains, in order. -/
theorem collectUpTo_placed {fuel : Nat} (enough : it.remaining.length < fuel)
    (placed : ∀ h ∈ it.heap, h.Placed it.runs) :
    ∃ merged, it.collectUpTo queue fuel = some merged ∧ merged.Perm it.remaining ∧
      ((∀ run ∈ it.runs, Ordered run) → Ordered merged) := by
  induction fuel generalizing it with
  | zero => exact absurd enough (Nat.not_lt_zero _)
  | succ fuel ih =>
    rcases @nextEntry_placed queue it placed with ⟨ended, nothing⟩ | ⟨entry, next, taken, runs,
      next_placed, perm, first⟩
    · refine ⟨[], by rw [MergeIterator.collectUpTo, ended], by rw [nothing], ?_⟩
      exact fun _ => List.Pairwise.nil
    · have length := perm.length_eq
      rw [length_cons] at length
      obtain ⟨merged, collected, merged_perm, ordered⟩ :=
        @ih next (by omega) (by rwa [runs])
      refine ⟨entry :: merged, ?_, (merged_perm.cons entry).trans perm.symm, fun sorted => ?_⟩
      · rw [MergeIterator.collectUpTo, taken]
        simp only [collected, Option.map_some]
      · refine pairwise_cons.mpr ⟨fun x mem => ?_, ordered (by rwa [runs])⟩
        refine first sorted x (perm.symm.subset (mem_cons_of_mem _ ?_))
        exact merged_perm.subset mem

/-- More rounds change nothing. -/
theorem collectUpTo_mono {fuel more : Nat} (le : fuel ≤ more) {merged : List VersionedEntry}
    (collected : it.collectUpTo queue fuel = some merged) :
    it.collectUpTo queue more = some merged := by
  induction fuel generalizing more it merged with
  | zero => cases collected
  | succ fuel ih =>
    obtain ⟨more, rfl⟩ : ∃ m, more = m + 1 := ⟨more - 1, by omega⟩
    rw [MergeIterator.collectUpTo] at collected ⊢
    cases next : it.nextEntry queue with
    | exhausted => simpa only [next] using collected
    | outOfBounds => simp only [next, reduceCtorEq] at collected
    | entry entry it' =>
      simp only [next, Option.map_eq_some_iff] at collected ⊢
      obtain ⟨rest, collected, rfl⟩ := collected
      exact ⟨rest, ih (Nat.le_of_succ_le_succ le) collected, rfl⟩

/-- The merge ends with all entries of the runs. -/
theorem collectUpTo_new (queue : BinaryHeap) (runs : List (List VersionedEntry)) :
    ∃ merged, (∀ fuel, runs.flatten.length < fuel →
        (MergeIterator.new queue runs).collectUpTo queue fuel = some merged) ∧
      merged.Perm runs.flatten ∧ ((∀ run ∈ runs, Ordered run) → Ordered merged) := by
  obtain ⟨placed, remaining⟩ := @seed_spec queue runs [] runs rfl [] (by simp)
  have all : (MergeIterator.new queue runs).remaining.Perm runs.flatten := by
    exact remaining
  have enough : (MergeIterator.new queue runs).remaining.length < runs.flatten.length + 1 := by
    rw [all.length_eq]
    exact Nat.lt_succ_self _
  obtain ⟨merged, collected, perm, sorted⟩ := @collectUpTo_placed queue _ _ enough placed
  exact ⟨merged, fun fuel more => collectUpTo_mono more collected, perm.trans all, sorted⟩

/-- The merge of ordered runs ends with all their entries, sorted. -/
theorem merge_complete (queue : BinaryHeap) (runs : List (List VersionedEntry))
    (ordered : ∀ run ∈ runs, Ordered run) :
    ∃ merged, (∀ fuel, runs.flatten.length < fuel →
        (MergeIterator.new queue runs).collectUpTo queue fuel = some merged) ∧
      merged.Perm runs.flatten ∧ Ordered merged := by
  obtain ⟨merged, collected, perm, sorted⟩ := collectUpTo_new queue runs
  exact ⟨merged, collected, perm, sorted ordered⟩

instance (a b : VersionedEntry) : Decidable (Precedes a b) :=
  inferInstanceAs (Decidable (_ ∨ _ ∧ _))

instance (entries : List VersionedEntry) : Decidable (Ordered entries) :=
  inferInstanceAs (Decidable (entries.Pairwise Precedes))

theorem three_runs_merge : ∃ merged, (∀ fuel, 4 < fuel → (MergeIterator.new firstOfEqual
        [[⟨[1], 9, none⟩, ⟨[2], 5, some [0]⟩], [],
          [⟨[1], 9, some [7]⟩, ⟨[1], 3, none⟩]]).collectUpTo
          firstOfEqual fuel = some merged) ∧
      merged.Perm [⟨[1], 9, none⟩, ⟨[2], 5, some [0]⟩, ⟨[1], 9, some [7]⟩, ⟨[1], 3, none⟩] ∧
      Ordered merged :=
  merge_complete firstOfEqual
    [[⟨[1], 9, none⟩, ⟨[2], 5, some [0]⟩], [], [⟨[1], 9, some [7]⟩, ⟨[1], 3, none⟩]] (by decide)

end Merge

end GalaxDb.LazyLeveling
