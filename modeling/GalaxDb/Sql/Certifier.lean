import GalaxDb.Lib.Run
import GalaxDb.Sql.Transaction

/-!
# What the certifier knows

Transactions begin, commit and abort in any order of their steps. A commit is certified
against a ring of recent write sets, which forgets those that no registered snapshot is older
than. A transaction draws its id before it registers: in between the ring may forget what it
will be certified against.
-/

namespace GalaxDb.Sql

open Bytes TransactionManager Std.ExtTreeSet Option

namespace TransactionManager

theorem certify_eq_error {m : TransactionManager} {beginTs : Timestamp}
    {readKeys writeKeys : List Bytes} {serializable : Bool} {e : SqlError} :
    m.certify beginTs readKeys writeKeys serializable = .error e ↔
      e = .writeConflict ∧ serializable ∧ m.conflicting beginTs readKeys := by
  by_cases refused : serializable && m.conflicting beginTs readKeys
  · simp only [certify, refused, ↓reduceIte, Except.error.injEq]
    simp only [Bool.and_eq_true] at refused
    simp [refused, eq_comm]
  · simp only [certify, refused, Bool.false_eq_true, ↓reduceIte, reduceCtorEq, false_iff]
    rintro ⟨-, on, conflict⟩
    simp [on, conflict] at refused

variable {m : TransactionManager} {readKeys : List Bytes} {beginTs : Timestamp}

variable {writeKeys : List Bytes} {serializable : Bool}

theorem commitSerializable_eq_error {e : SqlError} :
    m.commitSerializable beginTs readKeys writeKeys serializable = .error e ↔
      e = .writeConflict ∧ serializable ∧ m.conflicting beginTs readKeys := by
  rw [← @certify_eq_error m beginTs readKeys writeKeys, commitSerializable]
  cases m.certify beginTs readKeys writeKeys serializable <;> simp [Except.map]

theorem conflicting_iff : m.conflicting beginTs readKeys ↔
      ∃ c ∈ m.committedWrites, beginTs < c.1 ∧ ∃ k ∈ c.2, k ∈ readKeys := by
  simp [conflicting]

/-- What a certified commit leaves behind. -/
theorem certify_eq_ok {m' : TransactionManager} {commitTs : Timestamp}
    (certified : m.certify beginTs readKeys writeKeys serializable = .ok (m', commitTs)) :
    commitTs = m.nextTimestamp ∧ m'.nextTimestamp = m.nextTimestamp + 1 ∧
      m'.activeSnapshots = m.activeSnapshots ∧
      ∀ oldest, m.activeSnapshots.min? = some oldest → ∀ c, c ∈ m'.committedWrites ↔
        oldest < c.1 ∧ (c ∈ m.committedWrites ∨ writeKeys ≠ [] ∧ c = (commitTs, writeKeys)) := by
  rw [certify] at certified
  split at certified
  · cases certified
  · obtain ⟨rfl, rfl⟩ := Prod.mk.inj (Except.ok.inj certified)
    refine ⟨rfl, rfl, rfl, ?_⟩
    intro oldest least c
    simp only [prune, least, List.mem_filter, decide_eq_true_eq]
    by_cases empty : writeKeys = []
    · simp [empty, and_comm]
    · simp [empty, and_comm]

end TransactionManager

namespace Certifier

/-- How far a transaction has come: it has drawn its id, is registered, has been certified, has
released its locks, and is gone. -/
inductive Phase where
  | drawn
  | active
  | certified
  | released
  | finished
  deriving DecidableEq

/-- The manager, the phase of every transaction by its id, and all commits so far, which the
manager itself does not keep. -/
structure State where
  manager : TransactionManager
  phases : Std.ExtTreeMap Timestamp Phase compare
  history : List (Timestamp × List Bytes)

open State

/-- `with_start_timestamp`. -/
def State.initial (start : Timestamp) : State :=
  ⟨{ new with nextTimestamp := start }, ∅, []⟩

inductive Action where
  | draw
  | register (txn : Timestamp)
  | lock (txn : Timestamp) (key : Bytes)
  | commit (txn : Timestamp) (readKeys writeKeys : List Bytes) (serializable : Bool)
  | release (txn : Timestamp)
  | abort (txn : Timestamp)
  | deregister (txn : Timestamp)

def State.moved (s : State) (manager : TransactionManager) (txn : Timestamp) (phase : Phase) :
    State :=
  { s with manager := manager, phases := s.phases.insert txn phase }

/-- One step of one transaction. A refused commit and a refused lock change nothing. -/
def step (s : State) : Action → Option State
  | .draw => some (s.moved s.manager.drawId.1 s.manager.drawId.2 .drawn)
  | .register txn =>
    if s.phases[txn]? = some .drawn then some (s.moved (s.manager.register txn) txn .active)
    else none
  | .lock txn key =>
    if s.phases[txn]? = some .active then
      match s.manager.acquireWriteLock key txn with
      | .ok manager => some { s with manager := manager }
      | .error _ => some s
    else none
  | .commit txn readKeys writeKeys serializable =>
    if s.phases[txn]? = some .active then
      match s.manager.certify txn readKeys writeKeys serializable with
      | .ok (manager, commitTs) =>
        some { s.moved manager txn .certified with
          history := s.history ++ [(commitTs, writeKeys)] }
      | .error _ => some s
    else none
  | .release txn =>
    if s.phases[txn]? = some .certified then
      some (s.moved (s.manager.releaseWriteLocks txn) txn .released)
    else none
  | .abort txn =>
    if s.phases[txn]? = some .active then
      some (s.moved (s.manager.releaseWriteLocks txn) txn .released)
    else none
  | .deregister txn =>
    if s.phases[txn]? = some .released then
      some (s.moved (s.manager.removeSnapshot txn) txn .finished)
    else none

/-- A transaction that may still be certified. -/
def State.Open (s : State) (txn : Timestamp) : Prop :=
  s.phases[txn]? = some .drawn ∨ s.phases[txn]? = some .active

/-- A commit after the begin has written one of the keys. -/
def State.Overwritten (s : State) (txn : Timestamp) (keys : List Bytes) : Prop :=
  ∃ c ∈ s.history, txn < c.1 ∧ ∃ k ∈ c.2, k ∈ keys

/-- The certifier refuses exactly the transactions that read what a later commit wrote, and the
ring has every key that is needed to refuse one that may still be certified. -/
structure State.Exact (s : State) : Prop where
  answers : ∀ txn, s.phases[txn]? = some .active → ∀ readKeys writeKeys,
    s.manager.commitSerializable txn readKeys writeKeys true = .error .writeConflict ↔
      s.Overwritten txn readKeys
  needed : ∀ txn, s.Open txn → ∀ c ∈ s.history, txn < c.1 → ∀ k ∈ c.2,
    ∃ c' ∈ s.manager.committedWrites, txn < c'.1 ∧ k ∈ c'.2

/-- A commit that is not refused lets go only of keys that stay in the ring for a transaction
which has drawn its id and is not registered. -/
def Spares (s : State) : Action → Prop
  | .commit txn readKeys writeKeys serializable =>
    s.phases[txn]? = some .active → ¬ (serializable ∧ s.manager.conflicting txn readKeys) →
      ∀ drawn, s.phases[drawn]? = some .drawn →
        ∀ oldest, s.manager.activeSnapshots.min? = some oldest →
          ∀ c ∈ s.manager.committedWrites, drawn < c.1 → c.1 ≤ oldest → ∀ k ∈ c.2,
            k ∈ writeKeys ∨ ∃ c' ∈ s.manager.committedWrites, oldest < c'.1 ∧ k ∈ c'.2
  | _ => True

section Invariant

/-- The ids are below the counter, the registered ones are those between registration and the
end, and the ring has only commits. -/
structure State.Sound (s : State) : Prop where
  ids : ∀ txn : Timestamp, s.phases[txn]? ≠ none → txn < s.manager.nextTimestamp
  registered : ∀ txn : Timestamp, txn ∈ s.manager.activeSnapshots ↔
    s.phases[txn]? = some .active ∨ s.phases[txn]? = some .certified ∨
      s.phases[txn]? = some .released
  past : ∀ c ∈ s.history, c.1 < s.manager.nextTimestamp
  recorded : ∀ c ∈ s.manager.committedWrites, c ∈ s.history

variable {s s' : State}

theorem State.sound_initial (start : Timestamp) : (initial start).Sound where
  ids := by simp [initial]
  registered := by simp [initial, new]
  past := by simp [initial]
  recorded := by simp [initial, new]

/-- The answers are right where nothing needed is missing. -/
theorem State.Sound.exact (sound : s.Sound)
    (needed : ∀ txn, s.Open txn → ∀ c ∈ s.history, txn < c.1 → ∀ k ∈ c.2,
      ∃ c' ∈ s.manager.committedWrites, txn < c'.1 ∧ k ∈ c'.2) : s.Exact := by
  refine ⟨?_, needed⟩
  intro txn active readKeys writeKeys
  simp only [commitSerializable_eq_error, conflicting_iff, true_and]
  constructor
  · rintro ⟨c, mem, later, k, at_k, read⟩
    exact ⟨c, sound.recorded c mem, later, k, at_k, read⟩
  · rintro ⟨c, mem, later, k, at_k, read⟩
    obtain ⟨c', mem', later', at_k'⟩ := needed txn (.inr active) c mem later k at_k
    exact ⟨c', mem', later', k, at_k', read⟩

section Steps

@[simp] theorem State.getElem?_moved {manager : TransactionManager} {txn txn' : Timestamp}
    {phase : Phase} : (s.moved manager txn phase).phases[txn']? =
      if txn = txn' then some phase else s.phases[txn']? := by
  simp [moved, Std.ExtTreeMap.getElem?_insert]

variable {txn : Timestamp} {a : Action}

variable {manager : TransactionManager} {readKeys writeKeys : List Bytes} {phase : Phase}
  {serializable : Bool}

@[simp] theorem State.manager_moved : (s.moved manager txn phase).manager = manager := rfl

@[simp] theorem State.history_moved : (s.moved manager txn phase).history = s.history := rfl

/-- A step that commits nothing: the ring and the history stay, and no transaction is open
that was not, other than one that has just drawn its id. -/
structure Quiet (s s' : State) : Prop where
  history : s'.history = s.history
  ring : s'.manager.committedWrites = s.manager.committedWrites
  opened : ∀ txn, s'.Open txn → s.Open txn ∨ txn = s.manager.nextTimestamp

/-- A commit that was certified. -/
structure Commits (s s' : State) (txn : Timestamp) (readKeys writeKeys : List Bytes)
    (serializable : Bool) : Prop where
  active : s.phases[txn]? = some .active
  free : ¬ (serializable ∧ s.manager.conflicting txn readKeys)
  phases : ∀ txn', s'.phases[txn']? = if txn = txn' then some .certified else s.phases[txn']?
  clock : s'.manager.nextTimestamp = s.manager.nextTimestamp + 1
  snapshots : s'.manager.activeSnapshots = s.manager.activeSnapshots
  history : s'.history = s.history ++ [(s.manager.nextTimestamp, writeKeys)]
  ring : ∀ oldest, s.manager.activeSnapshots.min? = some oldest →
    ∀ c, c ∈ s'.manager.committedWrites ↔ oldest < c.1 ∧ (c ∈ s.manager.committedWrites ∨
      writeKeys ≠ [] ∧ c = (s.manager.nextTimestamp, writeKeys))

theorem step_commit (next : step s (.commit txn readKeys writeKeys serializable) = some s') :
    s' = s ∧ (serializable ∧ s.manager.conflicting txn readKeys) ∨
      Commits s s' txn readKeys writeKeys serializable := by
  simp only [step] at next
  split at next
  · rename_i active
    cases answer : s.manager.certify txn readKeys writeKeys serializable with
    | error e =>
      simp only [answer, some.injEq] at next
      exact .inl ⟨next.symm, (certify_eq_error.mp answer).2⟩
    | ok done =>
      obtain ⟨manager, commitTs⟩ := done
      simp only [answer, some.injEq] at next
      obtain ⟨rfl, clock, snapshots, ring⟩ := certify_eq_ok answer
      have free : ¬ (serializable ∧ s.manager.conflicting txn readKeys) := by
        intro refused
        have error : s.manager.certify txn readKeys writeKeys serializable =
            .error .writeConflict :=
          certify_eq_error.mpr ⟨rfl, refused⟩
        rw [answer] at error
        cases error
      subst next
      exact .inr ⟨active, free, fun txn' => @getElem?_moved s manager txn txn' .certified, clock,
        snapshots, rfl, ring⟩
  · cases next

theorem acquireWriteLock_eq {m m' : TransactionManager} {key : Bytes}
    (taken : m.acquireWriteLock key txn = .ok m') :
    m' = { m with writeLocks := m.writeLocks.insert key txn } := by
  rw [acquireWriteLock] at taken
  split at taken
  · split at taken
    · cases taken
    · exact (Except.ok.inj taken).symm
  · exact (Except.ok.inj taken).symm

/-- What a step that is no commit does to the manager and to the phase of one transaction. -/
theorem step_other (next : step s a = some s')
    (other : ∀ txn readKeys writeKeys serializable,
      a ≠ .commit txn readKeys writeKeys serializable) :
    (s'.phases = s.phases ∧ s'.history = s.history ∧ ∃ locks,
        s'.manager = { s.manager with writeLocks := locks }) ∨
      s' = s.moved s.manager.drawId.1 s.manager.nextTimestamp .drawn ∨
      (∃ txn, s.phases[txn]? = some .drawn ∧ s' = s.moved (s.manager.register txn) txn .active) ∨
      (∃ txn, (s.phases[txn]? = some .certified ∨ s.phases[txn]? = some .active) ∧
        s' = s.moved (s.manager.releaseWriteLocks txn) txn .released) ∨
      ∃ txn, s.phases[txn]? = some .released ∧
        s' = s.moved (s.manager.removeSnapshot txn) txn .finished := by
  cases a with
  | draw => exact .inr (.inl (some.inj next).symm)
  | register txn =>
    simp only [step, ite_none_right_eq_some, some.injEq] at next
    exact .inr (.inr (.inl ⟨txn, next.1, next.2.symm⟩))
  | lock txn key =>
    simp only [step, ite_none_right_eq_some] at next
    obtain ⟨-, next⟩ := next
    cases taken : s.manager.acquireWriteLock key txn with
    | ok manager =>
      simp only [taken, some.injEq] at next
      subst next
      exact .inl ⟨rfl, rfl, _, acquireWriteLock_eq taken⟩
    | error e =>
      simp only [taken, some.injEq] at next
      subst next
      exact .inl ⟨rfl, rfl, _, rfl⟩
  | commit txn readKeys writeKeys serializable => exact absurd rfl (other _ _ _ _)
  | release txn =>
    simp only [step, ite_none_right_eq_some, some.injEq] at next
    exact .inr (.inr (.inr (.inl ⟨txn, .inl next.1, next.2.symm⟩)))
  | abort txn =>
    simp only [step, ite_none_right_eq_some, some.injEq] at next
    exact .inr (.inr (.inr (.inl ⟨txn, .inr next.1, next.2.symm⟩)))
  | deregister txn =>
    simp only [step, ite_none_right_eq_some, some.injEq] at next
    exact .inr (.inr (.inr (.inr ⟨txn, next.1, next.2.symm⟩)))

theorem quiet_of_step (next : step s a = some s')
    (other : ∀ txn readKeys writeKeys serializable,
      a ≠ .commit txn readKeys writeKeys serializable) :
    Quiet s s' := by
  obtain ⟨phases, history, locks, manager⟩ | rfl | ⟨txn, drawn, rfl⟩ | ⟨txn, -, rfl⟩ |
    ⟨txn, -, rfl⟩ := step_other next other
  · refine ⟨history, by rw [manager], ?_⟩
    intro txn opened
    rw [State.Open, phases] at opened
    exact .inl opened
  all_goals
    refine ⟨rfl, rfl, ?_⟩
    intro txn' opened
    simp only [State.Open, getElem?_moved] at opened
    split at opened
  · rename_i same
    exact .inr same.symm
  · exact .inl opened
  · rename_i same
    exact .inl (.inl (same ▸ drawn))
  · exact .inl opened
  · simp at opened
  · exact .inl opened
  · simp at opened
  · exact .inl opened

/-- A step that commits nothing keeps the certifier sound. -/
theorem State.Sound.quiet_step (sound : s.Sound) (next : step s a = some s')
    (other : ∀ txn readKeys writeKeys serializable,
      a ≠ .commit txn readKeys writeKeys serializable) :
    s'.Sound := by
  have quiet := quiet_of_step next other
  have recorded : ∀ c ∈ s'.manager.committedWrites, c ∈ s'.history := by
    rw [quiet.ring, quiet.history]
    exact sound.recorded
  obtain ⟨phases, history, locks, manager⟩ | rfl | ⟨txn, before, rfl⟩ | ⟨txn, before, rfl⟩ |
    ⟨txn, before, rfl⟩ := step_other next other
  · refine ⟨?_, ?_, ?_, recorded⟩
    · rw [phases, manager]
      exact sound.ids
    · rw [phases, manager]
      exact sound.registered
    · rw [history, manager]
      exact sound.past
  · refine ⟨?_, ?_, ?_, recorded⟩
    · intro txn' known
      simp only [getElem?_moved] at known
      split at known
      · rename_i same
        exact same ▸ Nat.lt_succ_self _
      · exact Nat.lt_succ_of_lt (sound.ids txn' known)
    · intro txn'
      simp only [manager_moved, drawId, getElem?_moved, sound.registered]
      split
      · rename_i same
        subst same
        have unknown : s.phases[s.manager.nextTimestamp]? = none := by
          by_contra known
          exact absurd (sound.ids _ known) (lt_irrefl _)
        simp [unknown]
      · rfl
    · intro c mem
      exact Nat.lt_succ_of_lt (sound.past c mem)
  all_goals
    have known : s.phases[txn]? ≠ none := by
      intro unknown
      simp [unknown] at before
    refine ⟨?_, ?_, sound.past, recorded⟩
    · intro txn' known'
      simp only [getElem?_moved] at known'
      split at known'
      · rename_i same
        exact same ▸ sound.ids txn known
      · exact sound.ids txn' known'
    · intro txn'
      simp only [manager_moved, getElem?_moved, register, releaseWriteLocks, removeSnapshot,
        mem_insert, mem_erase, Std.compare_eq_iff_eq,
        sound.registered, ne_eq]
      by_cases same : txn = txn'
      · subst same
        simp
        try tauto
      · simp [same]

/-- The transaction that commits is registered itself, so the oldest snapshot is no younger. -/
theorem Commits.exists_oldest (done : Commits s s' txn readKeys writeKeys serializable)
    (sound : s.Sound) :
    ∃ oldest, s.manager.activeSnapshots.min? = some oldest ∧ oldest < s.manager.nextTimestamp := by
  have mem := (sound.registered txn).mpr (.inl done.active)
  cases least : s.manager.activeSnapshots.min? with
  | none =>
    rw [min?_eq_none_iff] at least
    simp [least] at mem
  | some oldest =>
    have below := (min?_eq_some_iff_mem_and_forall.mp least).2 txn mem
    rw [Nat.isLE_compare] at below
    exact ⟨oldest, rfl, below.trans_lt (sound.ids txn (by simp [done.active]))⟩

theorem State.Sound.step (sound : s.Sound) {a : Action} (next : step s a = some s') : s'.Sound := by
  by_cases commits : ∃ txn readKeys writeKeys serializable,
      a = .commit txn readKeys writeKeys serializable
  · obtain ⟨txn, readKeys, writeKeys, serializable, rfl⟩ := commits
    obtain ⟨rfl, -⟩ | done := step_commit next
    · exact sound
    · obtain ⟨oldest, least, -⟩ := done.exists_oldest sound
      constructor
      · intro txn' known
        rw [done.phases] at known
        rw [done.clock]
        split at known
        · rename_i same
          exact same ▸ Nat.lt_succ_of_lt (sound.ids txn (by simp [done.active]))
        · exact Nat.lt_succ_of_lt (sound.ids txn' known)
      · intro txn'
        rw [done.snapshots, sound.registered, done.phases]
        by_cases same : txn = txn'
        · subst same
          simp [done.active]
        · simp [same]
      · intro c mem
        rw [done.history, List.mem_append, List.mem_singleton] at mem
        rw [done.clock]
        obtain mem | rfl := mem
        · exact Nat.lt_succ_of_lt (sound.past c mem)
        · exact Nat.lt_succ_self _
      · intro c mem
        rw [done.history, List.mem_append, List.mem_singleton]
        obtain ⟨-, mem | ⟨-, rfl⟩⟩ := (done.ring oldest least c).mp mem
        · exact .inl (sound.recorded c mem)
        · exact .inr rfl
  · exact sound.quiet_step next fun _ _ _ _ same => commits ⟨_, _, _, _, same⟩

end Steps

end Invariant

section Runs

variable {s s' : State}

/-- A certified commit keeps the certifier exact if and only if it spares those that are drawn. -/
theorem Commits.exact_iff {txn : Timestamp} {readKeys writeKeys : List Bytes}
    {serializable : Bool} (done : Commits s s' txn readKeys writeKeys serializable)
    (sound : s.Sound) (sound' : s'.Sound) (exact' : s.Exact) :
    s'.Exact ↔ Spares s (.commit txn readKeys writeKeys serializable) := by
  obtain ⟨oldest, least, drawn_below⟩ := done.exists_oldest sound
  have kept := done.ring oldest least
  constructor
  · intro exact'' _ _ drawn waiting oldest' least' c mem later low k at_k
    obtain rfl : oldest' = oldest := some.inj (least'.symm.trans least)
    have other : txn ≠ drawn := by
      rintro rfl
      rw [done.active] at waiting
      cases waiting
    have waiting' : s'.phases[drawn]? = some .drawn := by rw [done.phases, if_neg other, waiting]
    have old : c ∈ s'.history := by
      rw [done.history]
      exact List.mem_append_left _ (sound.recorded c mem)
    obtain ⟨c', mem', -, at_k'⟩ := exact''.needed drawn (.inl waiting') c old later k at_k
    obtain ⟨young, mem' | ⟨-, rfl⟩⟩ := (kept c').mp mem'
    · exact .inr ⟨c', mem', young, at_k'⟩
    · exact .inl at_k'
  · intro spares
    refine sound'.exact ?_
    intro txn' opened c mem later k at_k
    have open_before : s.Open txn' := by
      simp only [State.Open, done.phases] at opened
      split at opened
      · simp at opened
      · exact opened
    have before_now : txn' < s.manager.nextTimestamp := by
      refine sound.ids txn' ?_
      obtain phase | phase := open_before <;> simp [phase]
    have written (at_k : k ∈ writeKeys) :
        ∃ c' ∈ s'.manager.committedWrites, txn' < c'.1 ∧ k ∈ c'.2 := by
      refine ⟨(s.manager.nextTimestamp, writeKeys), (kept _).mpr ⟨drawn_below, .inr ⟨?_, rfl⟩⟩,
        before_now, at_k⟩
      exact List.ne_nil_of_mem at_k
    rw [done.history, List.mem_append, List.mem_singleton] at mem
    obtain mem | rfl := mem
    · obtain ⟨c', mem', later', at_k'⟩ := exact'.needed txn' open_before c mem later k at_k
      by_cases young : oldest < c'.1
      · exact ⟨c', (kept c').mpr ⟨young, .inl mem'⟩, later', at_k'⟩
      · have low : c'.1 ≤ oldest := not_lt.mp young
        obtain waiting | active := open_before
        · obtain at_k'' | ⟨c'', mem'', young'', at_k''⟩ := spares done.active done.free txn' waiting
            oldest least c' mem' later' low k at_k'
          · exact written at_k''
          · refine ⟨c'', (kept c'').mpr ⟨young'', .inl mem''⟩, ?_, at_k''⟩
            exact (Nat.lt_of_lt_of_le later' low).trans young''
        · have registered := (sound.registered txn').mpr (.inl active)
          have below := (min?_eq_some_iff_mem_and_forall.mp least).2 txn' registered
          rw [Nat.isLE_compare] at below
          exact absurd (later'.trans_le low) below.not_gt
    · exact written at_k

/-- Nothing else changes what the certifier knows. -/
theorem Quiet.exact (quiet : Quiet s s') (sound : s.Sound) (sound' : s'.Sound)
    (exact' : s.Exact) : s'.Exact := by
  refine sound'.exact ?_
  rw [quiet.history, quiet.ring]
  intro txn opened c mem later k at_k
  obtain before | rfl := quiet.opened txn opened
  · exact exact'.needed txn before c mem later k at_k
  · exact absurd (sound.past c mem) (Nat.le_of_lt later).not_gt

theorem exact_step_iff (sound : s.Sound) (exact' : s.Exact) (a : Action) :
    (∀ s', step s a = some s' → s'.Exact) ↔ Spares s a := by
  by_cases commits : ∃ txn readKeys writeKeys serializable,
      a = .commit txn readKeys writeKeys serializable
  · obtain ⟨txn, readKeys, writeKeys, serializable, rfl⟩ := commits
    constructor
    · intro exact'' active free
      cases answer : s.manager.certify txn readKeys writeKeys serializable with
      | error e => exact absurd (certify_eq_error.mp answer).2 free
      | ok done =>
        have next : ∃ s', step s (.commit txn readKeys writeKeys serializable) = some s' := by
          simp [step, active, answer]
        obtain ⟨s', next⟩ := next
        obtain ⟨-, refused⟩ | done := step_commit next
        · exact absurd refused free
        · exact (done.exact_iff sound (sound.step next) exact').mp (exact'' s' next) active free
    · intro spares s' next
      obtain ⟨rfl, -⟩ | done := step_commit next
      · exact exact'
      · exact (done.exact_iff sound (sound.step next) exact').mpr spares
  · have other : ∀ txn readKeys writeKeys serializable,
        a ≠ .commit txn readKeys writeKeys serializable :=
      fun _ _ _ _ same => commits ⟨_, _, _, _, same⟩
    refine iff_of_true ?_ ?_
    · intro s' next
      exact (quiet_of_step next other).exact sound (sound.step next) exact'
    · cases a with
      | commit txn readKeys writeKeys serializable => exact absurd rfl (other _ _ _ _)
      | _ => trivial

/-- The certifier is exact throughout a run if and only if every commit of it spares those that
have drawn their ids and are not registered. -/
theorem certifier_exact_iff (start : Timestamp) (acts : List Action) :
    Run.Throughout step State.Exact (initial start) acts ↔
      Run.Along step Spares (initial start) acts := by
  have sound := sound_initial start
  have exact' : (initial start).Exact := sound.exact (by simp [initial])
  rw [Run.throughout_iff_along, and_iff_right exact']
  refine @Run.along_iff _ _ _ _ _ (fun s : State => s.Sound ∧ s.Exact) ?_ ?_ _ _ ⟨sound, exact'⟩
  · rintro s a ⟨sound, exact'⟩
    exact exact_step_iff sound exact' a
  · rintro s a s' ⟨sound, -⟩ stays next
    exact ⟨sound.step next, stays s' next⟩

/-- One transaction draws its id and waits; two others come and go before it registers. -/
def lateRegistration : List Action :=
  [.draw, .draw, .register 2, .commit 2 [] [[107]] true, .release 2, .deregister 2,
    .draw, .register 4, .commit 4 [] [[108]] true, .register 1]

/-- The one that waited is not refused, although it may have read what was overwritten. -/
theorem certifier_misses_conflict :
    ¬ Run.Throughout step State.Exact (initial 1) lateRegistration := by
  have ends : (Run.run step (initial 1) lateRegistration).map (fun s =>
      ((s.phases[1]?, s.manager.conflicting 1 [[107]]), s.history)) =
        some ((some .active, false), [(3, [[107]]), (5, [[108]])]) := by
    simp only [lateRegistration, Run.run, List.foldlM_cons, List.foldlM_nil, step, certify, prune,
      min?_eq_head?_toList]
    decide +kernel
  intro exact'
  obtain ⟨s, ran, shown⟩ := map_eq_some_iff.mp ends
  obtain ⟨⟨active, free⟩, history⟩ : (s.phases[1]? = some .active ∧
      s.manager.conflicting 1 [[107]] = false) ∧ s.history = [(3, [[107]]), (5, [[108]])] := by
    simpa only [Prod.mk.injEq] using shown
  have answers := (exact' lateRegistration [] s (by simp) ran).answers 1 active [[107]] []
  rw [commitSerializable_eq_error, free] at answers
  have overwritten : s.Overwritten 1 [[107]] :=
    ⟨(3, [[107]]), by simp [history], by decide, by simp⟩
  simp [overwritten] at answers

end Runs

end Certifier

end GalaxDb.Sql
