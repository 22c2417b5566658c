import GalaxDb.Lib.Run
import GalaxDb.Storage.Memtable
import Mathlib.Algebra.Order.BigOperators.Group.List

/-!
# Back-pressure of the memtables

A semaphore counts the bytes that may still be sealed before something is flushed. A seal takes
the size of its memtable, if that many permits are left, and otherwise takes none, while the
completed flush returns the size in any case; a put that has to wait holds the permits that are
free until it is served. So the permits match the sealed bytes as long as every seal finds what
it takes and no put waits for a flush.
-/

namespace GalaxDb

open Bytes List

/-- What the memtables use of a counting semaphore. -/
structure Semaphore (S : Type) where
  new : Nat → S
  availablePermits : S → Nat
  /-- How many calls wait in line. -/
  waiting : S → Nat
  /-- Whether the permits are there at once; the caller waits in line otherwise. -/
  acquireMany : Nat → S → S × Bool
  tryAcquireMany : Nat → S → Option S
  /-- How many calls at the front of the line are served by the new permits. -/
  addPermits : Nat → S → S × Nat
  maxPermits : Nat

/-- The semaphore counts while nobody waits in line, and none is free for one who starts to
wait when none is. -/
structure Semaphore.Counts {S : Type} (sem : Semaphore S) : Prop where
  new : ∀ n ≤ sem.maxPermits, sem.availablePermits (sem.new n) = n ∧ sem.waiting (sem.new n) = 0
  acquire : ∀ s n, sem.waiting s = 0 → n ≤ sem.availablePermits s →
    (sem.acquireMany n s).2 = true ∧ sem.waiting (sem.acquireMany n s).1 = 0 ∧
      sem.availablePermits (sem.acquireMany n s).1 = sem.availablePermits s - n
  wait : ∀ s n, sem.availablePermits s = 0 → 0 < n →
    (sem.acquireMany n s).2 = false ∧ sem.availablePermits (sem.acquireMany n s).1 = 0
  tryAcquire : ∀ s n, n ≤ sem.availablePermits s → ∃ s', sem.tryAcquireMany n s = some s' ∧
    sem.availablePermits s' = sem.availablePermits s - n ∧ sem.waiting s' = sem.waiting s
  add : ∀ s n, sem.waiting s = 0 → sem.availablePermits s + n ≤ sem.maxPermits →
    (sem.addPermits n s).2 = 0 ∧ sem.waiting (sem.addPermits n s).1 = 0 ∧
      sem.availablePermits (sem.addPermits n s).1 = sem.availablePermits s + n

/-- What a put writes once it has its permits. -/
structure PutArgs where
  key : Bytes
  timestamp : Timestamp
  value : Option Bytes

namespace PutArgs

def entrySize (a : PutArgs) : Nat := a.key.length + (a.value.map List.length).getD 0 + 16

/-- The size is cut to 32 bits. -/
def permits (a : PutArgs) : Nat := a.entrySize % 2 ^ 32

end PutArgs

/-- The manager with its semaphore, the puts that wait for it, and those that it has served but
that have not gone on yet. -/
structure PressedManager (S : Type) extends MemtableManager where
  backPressure : S
  waiting : List PutArgs
  served : List PutArgs

namespace PressedManager

variable {S : Type} (sem : Semaphore S) {limit sealThreshold : Nat} {m m' : PressedManager S}

def u32Max : Nat := 2 ^ 32 - 1

def new (sealThreshold backPressureBytes : Nat) : PressedManager S :=
  ⟨.new sealThreshold, sem.new backPressureBytes, [], []⟩

def addPermits (n : Nat) (m : PressedManager S) : PressedManager S :=
  let added := sem.addPermits n m.backPressure
  { m with
    backPressure := added.1
    waiting := m.waiting.drop added.2
    served := m.served ++ m.waiting.take added.2 }

/-- Permits that cannot be had are left alone. -/
def sealActive (m : PressedManager S) : PressedManager S :=
  if m.active.isSealed then m
  else
    { m with
      toMemtableManager := m.toMemtableManager.sealActive
      backPressure := (sem.tryAcquireMany (min m.active.size u32Max) m.backPressure).getD
        m.backPressure }

def onFlushComplete (flushedSize : Nat) (m : PressedManager S) : PressedManager S :=
  addPermits sem (min flushedSize u32Max)
    { m with toMemtableManager := m.toMemtableManager.onFlushComplete flushedSize }

/-- A put that has its permits returns them before it writes. -/
def finishPut (a : PutArgs) (m : PressedManager S) : PressedManager S :=
  let released := addPermits sem a.permits m
  let written := released.active.put a.key a.timestamp a.value
  let next := { released with active := written.1 }
  if written.2 then sealActive sem next else next

def put (a : PutArgs) (m : PressedManager S) : PressedManager S :=
  let acquired := sem.acquireMany a.permits m.backPressure
  if acquired.2 then finishPut sem a { m with backPressure := acquired.1 }
  else { m with backPressure := acquired.1, waiting := m.waiting ++ [a] }

inductive Call where
  | put (a : PutArgs)
  | resume (i : Nat)
  | sealActive
  | onFlushComplete

/-- Any of the served puts goes on; a flush reports the size of the oldest sealed memtable. -/
def step (m : PressedManager S) : Call → Option (PressedManager S)
  | .put a => some (put sem a m)
  | .resume i => m.served[i]?.map fun a => finishPut sem a { m with served := m.served.eraseIdx i }
  | .sealActive => some (sealActive sem m)
  | .onFlushComplete => m.sealedQueue.head?.map fun oldest => onFlushComplete sem oldest.size m

def queuedBytes (m : PressedManager S) : Nat := (m.sealedQueue.map Memtable.size).sum

def available (m : PressedManager S) : Nat := sem.availablePermits m.backPressure

/-- The permits and the sealed bytes make up the limit. -/
structure Balanced (limit : Nat) (m : PressedManager S) : Prop where
  sum : m.queuedBytes ≤ limit → available sem m + m.queuedBytes = limit
  bound : available sem m ≤ limit
  admits : m.sealedQueue = [] → ∀ a : PutArgs, a.entrySize ≤ limit →
    (sem.acquireMany a.permits m.backPressure).2 = true

/-- The memtable finds the permits that it takes, and takes its size unless that is over the
limit. -/
def SealFits (limit : Nat) (m : PressedManager S) (sealing : Memtable) : Prop :=
  min sealing.size u32Max ≤ available sem m ∧ (sealing.size ≤ u32Max ∨ limit < sealing.size)

/-- A put finds its permits, and so does the memtable that it may fill, or it starts to wait when
none is free; a memtable finds the permits that it takes; and no flush completes while a put
waits. -/
def Fits (limit : Nat) (m : PressedManager S) : Call → Prop
  | .put a =>
    let written := m.active.put a.key a.timestamp a.value
    (sem.waiting m.backPressure = 0 ∧ a.permits ≤ available sem m ∧
      (written.2 = true → written.1.isSealed = false → SealFits sem limit m written.1)) ∨
    available sem m = 0 ∧ 0 < a.permits
  | .resume _ => True
  | .sealActive => m.active.isSealed = false → SealFits sem limit m m.active
  | .onFlushComplete => sem.waiting m.backPressure = 0

instance (limit : Nat) (m : PressedManager S) (call : Call) :
    Decidable (Fits sem limit m call) := by
  unfold Fits SealFits
  rcases call <;> infer_instance

section Permits

/-- The permits that the completions of the queue will return. -/
def owed (m : PressedManager S) : Nat := (m.sealedQueue.map fun t => min t.size u32Max).sum

/-- The permits and those to be returned make up the limit, a memtable that took less than its
size is over the limit by itself, and none is free while a put waits. -/
structure Inv (limit : Nat) (m : PressedManager S) : Prop where
  even : available sem m + m.owed = limit
  sizes : ∀ t ∈ m.sealedQueue, t.size ≤ u32Max ∨ limit < t.size
  line : sem.waiting m.backPressure = 0 ∨ available sem m = 0
  served : m.served = []

variable {sem}

theorem owed_eq_queuedBytes (narrow : ∀ t ∈ m.sealedQueue, t.size ≤ u32Max) :
    m.owed = m.queuedBytes := by
  exact congrArg List.sum (map_congr_left fun t mem => Nat.min_eq_left (narrow t mem))

theorem Inv.balanced (inv : Inv sem limit m) (counts : sem.Counts) : Balanced sem limit m := by
  have even := inv.even
  refine ⟨fun fit => ?_, by omega, fun empty a small => ?_⟩
  · have narrow : ∀ t ∈ m.sealedQueue, t.size ≤ u32Max := by
      intro t mem
      have inside : t.size ≤ m.queuedBytes := le_sum_of_mem (mem_map_of_mem mem)
      rcases inv.sizes t mem with narrow | wide
      · exact narrow
      · omega
    rw [← owed_eq_queuedBytes narrow]
    exact even
  · have cut : a.permits ≤ a.entrySize := Nat.mod_le _ _
    have large : 16 ≤ a.entrySize := Nat.le_add_left _ _
    simp only [owed, empty, map_nil, sum_nil, available] at even
    have idle : sem.waiting m.backPressure = 0 := by
      rcases inv.line with idle | none
      · exact idle
      · simp only [available] at none
        omega
    exact (counts.acquire _ _ idle (by omega)).1

theorem Inv.sealActive (inv : Inv sem limit m) (counts : sem.Counts)
    (fits : m.active.isSealed = false → SealFits sem limit m m.active) :
    Inv sem limit (sealActive sem m) := by
  cases open_ : m.active.isSealed with
  | true =>
    rw [PressedManager.sealActive, if_pos open_]
    exact inv
  | false =>
    obtain ⟨room, size⟩ := fits open_
    obtain ⟨s, taken, left, line⟩ := counts.tryAcquire _ _ room
    have after : PressedManager.sealActive sem m =
        { m with toMemtableManager := m.toMemtableManager.sealActive, backPressure := s } := by
      simp [PressedManager.sealActive, open_, taken]
    have queue : m.toMemtableManager.sealActive.sealedQueue =
        m.sealedQueue ++ [m.active.sealTable] := by
      simp [MemtableManager.sealActive, open_]
    have even := inv.even
    rw [after]
    refine ⟨?_, ?_, ?_, inv.served⟩
    · simp only [available, owed, queue, map_append, sum_append, map_singleton,
        sum_singleton, Memtable.sealTable, left] at even room ⊢
      omega
    · intro t mem
      simp only [queue, mem_append, mem_singleton] at mem
      rcases mem with old | rfl
      · exact inv.sizes t old
      · exact size
    · rcases inv.line with idle | none
      · exact Or.inl (line.trans idle)
      · simp only [available] at none ⊢
        omega

/-- A put that finds its permits has returned them when it writes. -/
theorem Inv.put (inv : Inv sem limit m) (counts : sem.Counts) (room : limit ≤ sem.maxPermits)
    {a : PutArgs} (fits : Fits sem limit m (.put a)) : Inv sem limit (put sem a m) := by
  have even := inv.even
  rcases fits with ⟨idle, found, sealing⟩ | ⟨none, some⟩
  · obtain ⟨granted, idle', left⟩ := counts.acquire _ _ idle found
    simp only [available] at even found
    obtain ⟨nobody, idle'', back⟩ := counts.add _ a.permits idle' (by omega)
    let returned := (sem.addPermits a.permits (sem.acquireMany a.permits m.backPressure).1).1
    have same : sem.availablePermits returned = available sem m := by
      simp only [returned, available]
      omega
    have written (active : Memtable) :
        Inv sem limit { m with active := active, backPressure := returned } :=
      ⟨by simpa only [available, same, owed] using even, inv.sizes, Or.inl idle'', inv.served⟩
    simp only [PressedManager.put, granted, if_true, finishPut, addPermits, nobody, drop_zero,
      take_zero, append_nil]
    split
    · rename_i full
      refine (written _).sealActive counts fun open_ => ?_
      simpa only [SealFits, available, same] using sealing full open_
    · exact written _
  · obtain ⟨refused, still⟩ := counts.wait _ _ none some
    simp only [PressedManager.put, refused, Bool.false_eq_true, if_false]
    refine ⟨?_, inv.sizes, Or.inr still, inv.served⟩
    simp only [available] at none even still ⊢
    rw [none] at even
    rw [still]
    exact even

/-- A completion returns what the oldest memtable owes. -/
theorem Inv.onFlushComplete (inv : Inv sem limit m) (counts : sem.Counts)
    (room : limit ≤ sem.maxPermits) (idle : sem.waiting m.backPressure = 0) {oldest : Memtable}
    (head : m.sealedQueue.head? = some oldest) :
    Inv sem limit (onFlushComplete sem oldest.size m) := by
  obtain ⟨rest, queue⟩ := head?_eq_some_iff.mp head
  have even := inv.even
  simp only [owed, queue, map_cons, sum_cons, available] at even
  obtain ⟨nobody, idle', more⟩ := counts.add _ (min oldest.size u32Max) idle (by omega)
  refine ⟨?_, fun t mem => inv.sizes t (mem_of_mem_tail mem), Or.inl idle', ?_⟩
  · simp only [PressedManager.onFlushComplete, addPermits, MemtableManager.onFlushComplete,
      available, owed, queue, tail_cons, more]
    omega
  · simp [PressedManager.onFlushComplete, addPermits, nobody, inv.served]

theorem Inv.step (inv : Inv sem limit m) (counts : sem.Counts) (room : limit ≤ sem.maxPermits)
    {call : Call} (fits : Fits sem limit m call) (taken : step sem m call = some m') :
    Inv sem limit m' := by
  cases call with
  | put a =>
    obtain rfl := Option.some.inj taken
    exact inv.put counts room fits
  | resume i => simp [PressedManager.step, inv.served] at taken
  | sealActive =>
    obtain rfl := Option.some.inj taken
    exact inv.sealActive counts fits
  | onFlushComplete =>
    obtain ⟨oldest, head, rfl⟩ := Option.map_eq_some_iff.mp taken
    exact inv.onFlushComplete counts room fits head

theorem inv_new (counts : sem.Counts) (room : limit ≤ sem.maxPermits) :
    Inv sem limit (new sem sealThreshold limit) :=
  ⟨(counts.new limit room).1, fun _ mem => absurd mem not_mem_nil,
    Or.inl (counts.new limit room).2, rfl⟩

/-- The permits match the sealed bytes in every run whose calls fit. -/
theorem permits_match_sealed_bytes (counts : sem.Counts) (room : limit ≤ sem.maxPermits)
    {calls : List Call}
    (fits : Run.Along (step sem) (Fits sem limit) (new sem sealThreshold limit) calls) :
    Run.Throughout (step sem) (Balanced sem limit) (new sem sealThreshold limit) calls := by
  have start : Inv sem limit (new sem sealThreshold limit) := inv_new counts room
  refine Run.throughout_iff_along.mpr ⟨start.balanced counts, ?_⟩
  refine fits.of_invariant (fun s call s' (inv : Inv sem limit s) fits taken => ?_)
    (fun s call inv fits s' taken => ?_) start
  · exact inv.step counts room fits taken
  · exact (inv.step counts room fits taken).balanced counts

end Permits

end PressedManager

/-- A semaphore with what each call in its line still needs: who waits holds what was free. -/
structure FairSemaphore where
  permits : Nat
  line : List Nat

namespace FairSemaphore

/-- The permits that are left, the line, and how many calls were served. -/
def serve : Nat → List Nat → Nat × List Nat × Nat
  | k, [] => (k, [], 0)
  | k, need :: rest =>
    if need ≤ k then
      let later := serve (k - need) rest
      (later.1, later.2.1, later.2.2 + 1)
    else (0, (need - k) :: rest, 0)

def take (n : Nat) (s : FairSemaphore) : FairSemaphore := { s with permits := s.permits - n }

def semaphore : Semaphore FairSemaphore where
  new n := ⟨n, []⟩
  availablePermits := permits
  waiting s := s.line.length
  acquireMany n s :=
    if n ≤ s.permits then (s.take n, true) else (⟨0, s.line ++ [n - s.permits]⟩, false)
  tryAcquireMany n s := if n ≤ s.permits then some (s.take n) else none
  addPermits n s :=
    let served := serve n s.line
    (⟨s.permits + served.1, served.2.1⟩, served.2.2)
  maxPermits := 2 ^ 61 - 1

theorem counts : semaphore.Counts where
  new n _ := ⟨rfl, rfl⟩
  acquire s n idle found := by
    simp only [semaphore] at idle found ⊢
    simp [found, take, idle]
  wait s n none some := by
    simp only [semaphore] at none ⊢
    simp [none, Nat.not_le.mpr some]
  tryAcquire s n found := ⟨s.take n, if_pos found, rfl, rfl⟩
  add s n idle _ := by
    simp only [semaphore, length_eq_zero_iff] at idle ⊢
    simp [idle, serve]

end FairSemaphore

namespace PressedManager

open FairSemaphore

def putOf (key : String) : Call := .put ⟨ascii key, 1, none⟩

/-- Two entries are sealed by the second put and flushed, two more are sealed, and a fifth one
waits. -/
def fittingCalls : List Call :=
  [putOf "a", putOf "b", .onFlushComplete, putOf "c", putOf "d", putOf "e"]

theorem permits_match_after_flush :
    Run.Throughout (step semaphore) (Balanced semaphore 34) (new semaphore 34 34) fittingCalls :=
  permits_match_sealed_bytes counts (by decide) (by decide +kernel)

/-- Two entries of a limit that has room for one are sealed together and flushed. -/
def overfullCalls : List Call := [putOf "a", putOf "b", .sealActive, .onFlushComplete]

/-- The flush returns more than the seal took, and a put over the limit waits with all that is
free. -/
theorem overfull_calls_unbalance :
    ¬ Run.Throughout (step semaphore) (Balanced semaphore 20) (new semaphore 100 20) overfullCalls ∧
      ¬ Run.Throughout (step semaphore) (Balanced semaphore 20) (new semaphore 100 20)
        [putOf "fourteen bytes"] := by
  constructor
  · intro balanced
    have permits : (Run.run (step semaphore) (new semaphore 100 20) overfullCalls).map
        (available semaphore) = some 54 := by
      decide +kernel
    obtain ⟨last, ran, left⟩ := Option.map_eq_some_iff.mp permits
    have bound := (balanced overfullCalls [] last (append_nil _) ran).bound
    rw [left] at bound
    exact absurd bound (by decide)
  · intro balanced
    have sum := (balanced [putOf "fourteen bytes"] [] _ rfl rfl).sum (by decide)
    exact absurd sum (by decide +kernel)

end PressedManager

end GalaxDb
