import GalaxDb.Sql.SessionRun

/-!
# What clients write, and when

Open transactions hold the locks of the keys they have buffered. Commits and autocommit
statements write what their clients have planned, after the state that the client saw when
it came. If no client takes a key that another has written since then, writers of one key
follow each other.
-/

namespace GalaxDb.Sql

open Std Executor WriteLog List Option

variable {cfg : Settings} {s : Db}

section Locks

/-- The id of a transaction, from the moment it is drawn until the manager forgets it. -/
def Client.txnId (c : Client) : Option Timestamp :=
  match c.pc with
  | .drawn _ _ txnId => some txnId
  | .idle t => some t.txnId
  | .buffering t _ _ _ => some t.txnId
  | _ => none

variable {m : TransactionManager} {c : Client} {e : Engine} {t : TxnHandle} {id : Timestamp}
  {a : Act} {i : Nat}

theorem Client.txnId_of_handle (h : c.handle = some t) : c.txnId = some t.txnId := by
  simp only [Client.handle] at h
  simp only [Client.txnId]
  split at h
  · rename_i pc
    cases h
    rw [pc]
  · rename_i pc
    cases h
    rw [pc]
  · cases h

/-- What the history of a client has to do with the rest of it: a buffer holds the last
writes, and what is still to be applied or has been is part of the history. -/
def Client.Traced (c : Client) : Prop :=
  (∀ x ∈ c.wrote, (x.key, x.val) ∈ c.history) ∧
  match c.pc with
  | .starting _ _ => c.history = []
  | .drawn _ _ _ => c.history = []
  | .idle t => ∀ k, t.writes[k]? = lastWrite c.history k
  | .buffering t _ _ _ => ∀ k, t.writes[k]? = lastWrite c.history k
  | .applying pending => (∀ w ∈ pending, w ∈ c.history) ∧ ∀ k v, lastWrite c.history k = some v →
      (k, v) ∈ pending ∨ ∀ b, v = some b → ∃ x ∈ c.wrote, x.key = k ∧ x.val = some b
  | .committed => ∀ k b, lastWrite c.history k = some (some b) →
      ∃ x ∈ c.wrote, x.key = k ∧ x.val = some b
  | .aborted => True

theorem Client.Traced.handle (traced : c.Traced) (h : c.handle = some t) (k : Bytes) :
    t.writes[k]? = lastWrite c.history k := by
  have second := traced.2
  simp only [Client.handle] at h
  split at h
  · rename_i pc
    cases h
    simp only [pc] at second
    exact second k
  · rename_i pc
    cases h
    simp only [pc] at second
    exact second k
  · cases h

theorem Client.traced_applyRest {clock : Nat} {pending : List (Bytes × Option Bytes)}
    (wrote : ∀ x ∈ c.wrote, (x.key, x.val) ∈ c.history) (planned : ∀ w ∈ pending, w ∈ c.history)
    (last : ∀ k v, lastWrite c.history k = some v →
      (k, v) ∈ pending ∨ ∀ b, v = some b → ∃ x ∈ c.wrote, x.key = k ∧ x.val = some b) :
    (c.applyRest clock pending).Traced := by
  simp only [Client.applyRest]
  split
  · rename_i empty
    subst empty
    refine ⟨wrote, ?_⟩
    intro k b final
    rcases last k (some b) final with h | h
    · simp at h
    · exact h b rfl
  · exact ⟨wrote, planned, last⟩

/-- After the first pending write, with the row that it left if it was no tombstone. -/
theorem Client.traced_applied {clock : Nat} {key : Bytes} {value : Option Bytes}
    {pending : List (Bytes × Option Bytes)} {new : List (Row Bytes Bytes)}
    (pc : c.pc = .applying ((key, value) :: pending)) (traced : c.Traced)
    (own : ∀ x ∈ new, (x.key, x.val) = (key, value))
    (left : ∀ b, value = some b → ∃ x ∈ new, x.key = key ∧ x.val = some b) :
    ((c.record new).applyRest clock pending).Traced := by
  simp only [Client.Traced, pc] at traced
  obtain ⟨wrote, planned, last⟩ := traced
  apply Client.traced_applyRest
  · intro x hx
    rcases mem_append.mp hx with hx | hx
    · exact wrote x hx
    · rw [own x hx]
      exact planned _ mem_cons_self
  · exact fun w hw => planned w (mem_cons_of_mem _ hw)
  · intro k v final
    rcases last k v final with h | h
    · rcases mem_cons.mp h with h | h
      · right
        rintro b rfl
        obtain ⟨rfl, same⟩ := Prod.mk.inj h
        obtain ⟨x, hx, at_x⟩ := left b same.symm
        exact ⟨x, mem_append_right _ hx, at_x⟩
      · exact .inl h
    · right
      intro b eq
      obtain ⟨x, hx, rest⟩ := h b eq
      exact ⟨x, mem_append_left _ hx, rest⟩

theorem Move.traced (move : Move cfg s a i e m c)
    (traced : ∀ c0, s.clients[i]? = some c0 → c0.Traced) : c.Traced := by
  cases move with
  | begin serializable => exact ⟨by simp [Db.newClient], rfl⟩
  | autoFailed failed => exact ⟨by simp [Db.newClient], trivial⟩
  | autoPlanned planned =>
    apply Client.traced_applyRest
    · simp [Db.newClient]
    · exact fun w hw => hw
    · exact fun k v last => .inl (mem_of_lastWrite last)
  | register here pc =>
    have old := traced _ here
    simp only [Client.Traced, pc] at old
    refine ⟨old.1, ?_⟩
    rw [old.2]
    simp [TxnHandle.new, lastWrite]
  | execPlanned here pc planned =>
    rename_i c0 t r effect
    have old := traced _ here
    simp only [Client.Traced, pc] at old
    obtain ⟨-, -, writes, -⟩ := recordRead_foldl t effect.reads
    simp only [Client.bufferRest]
    split
    · simpa only [Client.Traced, writes] using old
    · simpa only [Client.Traced, writes] using old
  | refused here pc failed => exact traced _ here
  | certified here pc certified =>
    have old := traced _ here
    simp only [Client.Traced, pc] at old
    apply Client.traced_applyRest old.1
    · rintro ⟨k, v⟩ hw
      rw [ExtTreeMap.mem_toList_iff_getElem?_eq_some, old.2 k] at hw
      exact mem_of_lastWrite hw
    · intro k v last
      left
      rw [ExtTreeMap.mem_toList_iff_getElem?_eq_some, old.2 k]
      exact last
  | rolledBack here pc => exact ⟨(traced _ here).1, trivial⟩
  | draw here pc | execFailed here pc failed | conflict here pc failed =>
    have old := traced _ here
    simp only [Client.Traced, pc] at old
    exact old
  | buffered here pc buffered =>
    rename_i c0 t t' r effect key value rest
    have old := traced _ here
    simp only [Client.Traced, pc] at old
    obtain ⟨-, rfl⟩ := bufferWrite_ok buffered
    have grown : ∀ k, (t.writes.insert key value)[k]? =
        lastWrite (c0.history ++ [(key, value)]) k := by
      intro k
      rw [lastWrite_snoc, ExtTreeMap.getElem?_insert, old.2 k]
      simp
    have wrote : ∀ x ∈ c0.wrote, (x.key, x.val) ∈ c0.history ++ [(key, value)] :=
      fun x hx => mem_append_left _ (old.1 x hx)
    simp only [Client.bufferRest]
    split
    · exact ⟨wrote, grown⟩
    · exact ⟨wrote, grown⟩
  | put here pc put => exact Client.traced_applied pc (traced _ here) (by simp) (by simp)
  | delete here pc deleted =>
    rename_i found
    refine Client.traced_applied pc (traced _ here) ?_ (by simp)
    cases found <;> simp

/-- Ids are drawn once, and an open transaction holds the locks of the keys it has buffered. -/
structure Locking (s : Db) : Prop where
  drawn : ∀ (j : Nat) (c : Client) (id : Timestamp), s.clients[j]? = some c → c.txnId = some id →
    id < s.manager.nextTimestamp
  distinct : ∀ (i j : Nat) (c c' : Client) (id : Timestamp), s.clients[i]? = some c →
    s.clients[j]? = some c' → c.txnId = some id → c'.txnId = some id → i = j
  held : ∀ (j : Nat) (c : Client) (t : TxnHandle) (k : Bytes), s.clients[j]? = some c →
    c.handle = some t → k ∈ c.history.map Prod.fst → s.manager.writeLocks[k]? = some t.txnId

theorem commitSerializable_ok {m' : TransactionManager} {ts : Timestamp} {reads writes : List Bytes}
    {serializable : Bool} (ok : m.commitSerializable id reads writes serializable = .ok (m', ts)) :
    m'.nextTimestamp = m.nextTimestamp + 1 ∧
      m'.writeLocks = m.writeLocks.filter (fun _ holder => holder ≠ id) := by
  simp only [TransactionManager.commitSerializable, TransactionManager.certify] at ok
  split at ok
  · simp [Except.map] at ok
  · obtain ⟨rfl, -⟩ := ok
    exact ⟨rfl, rfl⟩

theorem getElem?_release {holder : Timestamp} {k : Bytes} (other : holder ≠ id)
    (held : m.writeLocks[k]? = some holder) :
    (m.writeLocks.filter fun _ holder => holder ≠ id)[k]? = some holder := by
  rw [ExtTreeMap.getElem?_filter, held]
  simp [other]

/-- What a step makes of the manager: a client's own locks may go, those of others stay. -/
theorem Move.manager (move : Move cfg s a i e m c) : s.manager.nextTimestamp ≤ m.nextTimestamp ∧
      ∀ (k : Bytes) (id : Timestamp), s.manager.writeLocks[k]? = some id →
        (∀ c0, s.clients[i]? = some c0 → c0.txnId ≠ some id) → m.writeLocks[k]? = some id := by
  cases move with
  | draw here pc => exact ⟨Nat.le_succ _, fun k id held _ => held⟩
  | certified here pc certified =>
    obtain ⟨clock, locks⟩ := commitSerializable_ok certified
    refine ⟨clock ▸ Nat.le_succ _, ?_⟩
    intro k id held other
    have apart := other _ here
    simp only [Client.txnId, pc, ne_eq, some.injEq] at apart
    rw [locks]
    exact getElem?_release (Ne.symm apart) held
  | rolledBack here pc =>
    refine ⟨le_rfl, ?_⟩
    intro k id held other
    have apart := other _ here
    simp only [Client.txnId, pc, ne_eq, some.injEq] at apart
    exact getElem?_release (Ne.symm apart) held
  | buffered here pc buffered =>
    rename_i c0 t t' r effect key value rest
    obtain ⟨locked, -⟩ := bufferWrite_ok buffered
    obtain ⟨able, rfl⟩ := acquireWriteLock_ok locked
    refine ⟨le_rfl, ?_⟩
    intro k id held other
    have apart := other _ here
    simp only [Client.txnId, pc, ne_eq, some.injEq] at apart
    rw [ExtTreeMap.getElem?_insert]
    by_cases same : key = k
    · subst same
      simp only [lockFree, held, decide_eq_true_eq] at able
      exact absurd able.symm apart
    · simpa [same] using held
  | _ => exact ⟨le_rfl, fun k id held _ => held⟩

/-- A client keeps its id, or draws the next one. -/
theorem Move.txnId (move : Move cfg s a i e m c) (h : c.txnId = some id) :
    (∃ c0, s.clients[i]? = some c0 ∧ c0.txnId = some id) ∨
      id = s.manager.nextTimestamp ∧ m.nextTimestamp = s.manager.nextTimestamp + 1 := by
  cases move with
  | begin serializable => simp [Client.txnId, Db.newClient] at h
  | autoFailed failed => simp [Client.txnId, Db.newClient] at h
  | draw here pc =>
    simp only [Client.txnId, some.injEq] at h
    exact .inr ⟨h.symm, rfl⟩
  | register here pc =>
    simp only [Client.txnId, TxnHandle.new, some.injEq] at h
    exact .inl ⟨_, here, by simp [Client.txnId, pc, h]⟩
  | execPlanned here pc planned =>
    rename_i c0 t r effect
    have same : (effect.reads.foldl TxnHandle.recordRead t).txnId = t.txnId :=
      (recordRead_foldl t effect.reads).2.1
    simp only [Client.bufferRest] at h
    left
    refine ⟨c0, here, ?_⟩
    split at h <;> simpa [Client.txnId, pc, same] using h
  | refused here pc failed => exact .inl ⟨_, here, h⟩
  | rolledBack here pc => simp [Client.txnId] at h
  | execFailed here pc failed | conflict here pc failed =>
    simp only [Client.txnId, Client.fails, some.injEq] at h
    exact .inl ⟨_, here, by simp [Client.txnId, pc, h]⟩
  | buffered here pc buffered =>
    rename_i c0 t t' r effect key value rest
    obtain ⟨-, rfl⟩ := bufferWrite_ok buffered
    simp only [Client.bufferRest] at h
    left
    refine ⟨c0, here, ?_⟩
    split at h <;> simpa [Client.txnId, pc] using h
  | autoPlanned planned | certified here pc certified | put here pc put | delete here pc deleted =>
    simp only [Client.applyRest] at h
    split at h <;> simp [Client.txnId] at h

/-- A client holds the lock of every key that it wrote. -/
theorem Move.held (move : Move cfg s a i e m c) (locking : Locking s)
    (traced : ∀ c0, s.clients[i]? = some c0 → c0.Traced) (h : c.handle = some t) {k : Bytes}
    (written : k ∈ c.history.map Prod.fst) : m.writeLocks[k]? = some t.txnId := by
  cases move with
  | begin serializable => simp [Client.handle, Db.newClient] at h
  | autoFailed failed => simp [Client.handle, Db.newClient] at h
  | draw here pc => simp [Client.handle] at h
  | register here pc =>
    have old := traced _ here
    simp only [Client.Traced, pc] at old
    simp [old.2] at written
  | execPlanned here pc planned =>
    rename_i c0 t0 r effect
    have same : (effect.reads.foldl TxnHandle.recordRead t0).txnId = t0.txnId :=
      (recordRead_foldl t0 effect.reads).2.1
    have own : t.txnId = t0.txnId ∧ k ∈ c0.history.map Prod.fst := by
      simp only [Client.bufferRest] at h written
      split at h
      · cases h
        exact ⟨same, by simpa [*] using written⟩
      · cases h
        exact ⟨same, by simpa [*] using written⟩
    rw [own.1]
    exact locking.held _ _ _ _ here (by simp [Client.handle, pc]) own.2
  | refused here pc failed => exact locking.held _ _ _ _ here h written
  | rolledBack here pc => simp [Client.handle] at h
  | execFailed here pc failed | conflict here pc failed =>
    cases h
    exact locking.held _ _ _ _ here (by simp [Client.handle, pc]) written
  | buffered here pc buffered =>
    rename_i c0 t0 t' r effect key value rest
    obtain ⟨locked, rfl⟩ := bufferWrite_ok buffered
    obtain ⟨able, rfl⟩ := acquireWriteLock_ok locked
    have own : t.txnId = t0.txnId ∧ k ∈ (c0.history ++ [(key, value)]).map Prod.fst := by
      simp only [Client.bufferRest] at h written
      split at h
      · cases h
        exact ⟨rfl, by simpa [*, Client.claim] using written⟩
      · cases h
        exact ⟨rfl, by simpa [*, Client.claim] using written⟩
    rw [own.1, ExtTreeMap.getElem?_insert]
    by_cases same : key = k
    · simp [same]
    · have before : k ∈ c0.history.map Prod.fst := by simpa [Ne.symm same] using own.2
      simpa [same] using locking.held _ _ _ _ here (by simp [Client.handle, pc]) before
  | autoPlanned planned | certified here pc certified | put here pc put | delete here pc deleted =>
    simp only [Client.applyRest] at h
    split at h <;> simp [Client.handle] at h

/-- Ids stay apart, and the locks with the transactions that hold them. -/
theorem Locking.moved (locking : Locking s)
    (traced : ∀ (j : Nat) (c : Client), s.clients[j]? = some c → c.Traced)
    (move : Move cfg s a i e m c) : Locking (s.moved i e m c) where
  drawn j c' id here h := by
    rw [moved_clients move.place] at here
    split at here
    · cases here
      rcases move.txnId h with ⟨c0, old, same⟩ | ⟨rfl, clock⟩
      · exact (locking.drawn i c0 id old same).trans_le move.manager.1
      · rw [moved_manager, clock]
        exact Nat.lt_succ_self _
    · exact (locking.drawn j c' id here h).trans_le move.manager.1
  distinct j j' cj cj' id here here' h h' := by
    rw [moved_clients move.place] at here here'
    have fresh : ∀ (l : Nat) (cl : Client), s.clients[l]? = some cl → cl.txnId = some id →
        c.txnId = some id → l = i := by
      intro l cl there drawn own
      rcases move.txnId own with ⟨c0, old, same⟩ | ⟨rfl, -⟩
      · exact locking.distinct l i cl c0 id there old drawn same
      · exact absurd (locking.drawn l cl _ there drawn) (lt_irrefl _)
    split at here <;> split at here'
    · simp_all
    · cases here
      rename_i same _
      exact same.trans (fresh j' cj' here' h' h).symm
    · cases here'
      rename_i same
      exact (fresh j cj here h h').trans same.symm
    · exact locking.distinct j j' cj cj' id here here' h h'
  held j c' t k here h written := by
    rw [moved_clients move.place] at here
    split at here
    · cases here
      exact move.held locking (traced i) h written
    · rename_i other
      apply move.manager.2 k t.txnId (locking.held j c' t k here h written)
      intro c0 old same
      exact other (locking.distinct j i c' c0 _ here old (Client.txnId_of_handle h) same)

end Locks

section Times

@[simp] theorem Client.applyRest_history (c : Client) (clock : Nat)
    (pending : List (Bytes × Option Bytes)) : (c.applyRest clock pending).history = c.history := by
  simp only [Client.applyRest]
  split <;> rfl

@[simp] theorem Client.applyRest_seenTs (c : Client) (clock : Nat)
    (pending : List (Bytes × Option Bytes)) : (c.applyRest clock pending).seenTs = c.seenTs := by
  simp only [Client.applyRest]
  split <;> rfl

@[simp] theorem Client.bufferRest_history (c : Client) (t : TxnHandle) (r : Request)
    (effect : Effect) (pending : List (Bytes × Option Bytes)) :
    (c.bufferRest t r effect pending).history = c.history := by
  simp only [Client.bufferRest]
  split <;> rfl

@[simp] theorem Client.bufferRest_seenTs (c : Client) (t : TxnHandle) (r : Request)
    (effect : Effect) (pending : List (Bytes × Option Bytes)) :
    (c.bufferRest t r effect pending).seenTs = c.seenTs := by
  simp only [Client.bufferRest]
  split <;> rfl

variable {m : TransactionManager} {e : Engine} {c : Client} {a : Act} {i : Nat}

/-- A client has seen the latest write when it comes; a transaction reads as of then. -/
theorem Move.seenTs (move : Move cfg s a i e m c) :
    (∀ c0, s.clients[i]? = some c0 → c.seenTs = c0.seenTs) ∧
      (s.clients[i]? = none → c.seenTs = s.engine.latestCommitTs) := by
  have either : (∃ c0, s.clients[i]? = some c0 ∧ c.seenTs = c0.seenTs) ∨
      s.clients[i]? = none ∧ c.seenTs = s.engine.latestCommitTs := by
    cases move
    case begin => exact .inr ⟨by simp, rfl⟩
    case autoFailed => exact .inr ⟨by simp, rfl⟩
    case autoPlanned => exact .inr ⟨by simp, by simp [Db.newClient]⟩
    all_goals exact .inl ⟨_, ‹_›, by simp [Client.fails, Client.claim, Client.record]⟩
  rcases either with ⟨c0, old, same⟩ | ⟨absent, seen⟩
  · refine ⟨fun c1 there => ?_, fun absent => by simp [absent] at old⟩
    obtain rfl := some.inj (old.symm.trans there)
    exact same
  · exact ⟨fun c0 old => by simp [absent] at old, fun _ => seen⟩

/-- A step adds the write that it buffers to the history, and nothing else; an autocommit
statement comes with its history. -/
theorem Move.history (move : Move cfg s a i e m c) :
    (∃ c0, s.clients[i]? = some c0 ∧ c.history = c0.history) ∨
    (∃ c0 t t' r effect key value rest, s.clients[i]? = some c0 ∧ a = .advance i ∧
      c0.pc = .buffering t r effect ((key, value) :: rest) ∧
      t.bufferWrite s.manager key value = .ok (m, t') ∧ c.handle = some t' ∧
      c.history = c0.history ++ [(key, value)]) ∨
    s.clients[i]? = none ∧ (c.history = [] ∨ ∃ p effect, a = .autocommit p ∧
      planEffect (s.autoContext cfg) p = .ok effect ∧ c.history = effect.writes) := by
  cases move
  case begin => exact .inr (.inr ⟨by simp, .inl rfl⟩)
  case autoFailed => exact .inr (.inr ⟨by simp, .inl rfl⟩)
  case autoPlanned p effect planned =>
    exact .inr (.inr ⟨by simp, .inr ⟨p, effect, rfl, planned, by simp⟩⟩)
  case buffered c0 t t' r effect key value rest pc here ok =>
    refine .inr (.inl ⟨c0, t, t', r, effect, key, value, rest, here, rfl, pc, ok, ?_, ?_⟩)
    · simp only [Client.bufferRest]
      split <;> rfl
    · simp [Client.claim]
  all_goals exact .inl ⟨_, ‹_›, by simp [Client.fails, Client.record]⟩

/-- The other client was through before this one came. -/
def Client.Before (c' c : Client) : Prop := ∃ f ∈ c'.finishedAt, f < c.startedAt

instance (c' c : Client) : Decidable (c'.Before c) := inferInstanceAs (Decidable (∃ f ∈ _, _))

/-- What a client writes comes after what it has seen, and it has seen the rows of all that
were through before it came. -/
structure Timed (s : Db) : Prop where
  seen : ∀ (j : Nat) (c : Client), s.clients[j]? = some c → c.seenTs < s.engine.nextTimestamp
  snapshot : ∀ (j : Nat) (c : Client) (t : Timestamp), s.clients[j]? = some c →
    c.readTs = some t → t = c.seenTs
  after : ∀ (j : Nat) (c : Client), s.clients[j]? = some c → ∀ x ∈ c.wrote, c.seenTs < x.ts
  before : ∀ (i j : Nat) (c c' : Client), s.clients[i]? = some c → s.clients[j]? = some c' →
    c'.Before c → ∀ x ∈ c'.wrote, x.ts ≤ c.seenTs

theorem Timed.mover {rows : List (Row Bytes Bytes)} (base : Base s rows) (timed : Timed s)
    (move : Move cfg s a i e m c) : c.seenTs < s.engine.nextTimestamp := by
  cases old : s.clients[i]? with
  | none =>
    rw [move.seenTs.2 old]
    exact Nat.sub_lt base.recorded.started one_pos
  | some c0 =>
    rw [move.seenTs.1 c0 old]
    exact timed.seen i c0 old

/-- What a client writes still comes after what it has seen. -/
theorem Timed.moved {rows new : List (Row Bytes Bytes)} (base : Base s rows) (timed : Timed s)
    (move : Move cfg s a i e m c) (frame : Frame s i e c rows new) : Timed (s.moved i e m c) where
  seen j cj here := by
    rw [moved_clients move.place] at here
    apply Nat.lt_of_lt_of_le _ frame.clock
    split at here
    · cases here
      exact timed.mover base move
    · exact timed.seen j cj here
  snapshot j cj t here readTs := by
    rw [moved_clients move.place] at here
    split at here
    · cases here
      cases old : s.clients[i]? with
      | none =>
        rw [move.seenTs.2 old]
        rcases (frame.fresh old).2.2.2.1 with h | h
        · rw [h] at readTs
          cases readTs
        · exact some.inj (readTs.symm.trans h)
      | some c0 =>
        rw [move.seenTs.1 c0 old]
        exact timed.snapshot i c0 t old ((frame.old c0 old).2.1 ▸ readTs)
    · exact timed.snapshot j cj t here readTs
  after j cj here x hx := by
    rw [moved_clients move.place] at here
    split at here
    · cases here
      cases old : s.clients[i]? with
      | none => simp [(frame.fresh old).1] at hx
      | some c0 =>
        rw [move.seenTs.1 c0 old]
        rw [(frame.old c0 old).1] at hx
        rcases mem_append.mp hx with hx | hx
        · exact timed.after i c0 old x hx
        · exact (timed.seen i c0 old).trans_le (frame.later x hx)
    · exact timed.after j cj here x hx
  before k j ck cj reader writer before x hx := by
    rw [moved_clients move.place] at reader writer
    have done : ∃ c0, s.clients[j]? = some c0 ∧ x ∈ c0.wrote ∧ c0.finishedAt = cj.finishedAt := by
      split at writer
      · rename_i same
        cases writer
        subst same
        obtain ⟨f, finished, started⟩ := before
        cases old : s.clients[j]? with
        | none => simp [(frame.fresh old).1] at hx
        | some c0 =>
          obtain ⟨wrote, -, startedAt, times, ended⟩ := frame.old c0 old
          have through : c.finishedAt = c0.finishedAt := by
            rcases times with same | ⟨-, now⟩
            · exact same
            · obtain rfl := some.inj (finished.symm.trans now)
              split at reader
              · cases reader
                rw [startedAt] at started
                exact absurd started (Nat.not_lt_of_gt (base.started j c0 old))
              · exact absurd started (Nat.not_lt_of_gt (base.started k ck reader))
          have nothing : new = [] := ended (by rw [← through, finished]; simp)
          rw [wrote, nothing, append_nil] at hx
          exact ⟨c0, rfl, hx, through.symm⟩
      · exact ⟨cj, writer, hx, rfl⟩
    obtain ⟨c0, writer0, hx0, finished0⟩ := done
    split at reader
    · cases reader
      cases old : s.clients[i]? with
      | none =>
        rw [move.seenTs.2 old]
        exact Nat.le_sub_one_of_lt (base.recorded.past x ((base.wrote x).mpr ⟨j, c0, writer0, hx0⟩))
      | some c1 =>
        rw [move.seenTs.1 c1 old]
        apply timed.before i j c1 c0 old writer0 _ x hx0
        rw [Client.Before, finished0, ← (frame.old c1 old).2.2.1]
        exact before
    · apply timed.before k j ck c0 reader writer0 _ x hx0
      rw [Client.Before, finished0]
      exact before

end Times

section Separation

-- the writes that count, such as all of them or those of rows
variable {P : Bytes × Option Bytes → Prop}

/-- The client is over without having written. -/
def Client.gone (c : Client) : Bool :=
  match c.pc with
  | .aborted => true
  | _ => false

/-- The manager has let the client commit, or the client is an autocommit statement. -/
def Client.settled (c : Client) : Bool :=
  match c.pc with
  | .applying _ => true
  | .committed => true
  | _ => false

variable {m : TransactionManager} {c : Client} {e : Engine} {a : Act} {i : Nat}

theorem Client.Fine.committed (fine : c.Fine) (finished : c.finishedAt ≠ none) :
    c.pc = .committed := by
  simp only [Client.Fine] at fine
  cases pc : c.pc <;> simp_all

theorem Client.Fine.settled {c : Client} (fine : c.Fine) (wrote : c.wrote ≠ []) :
    c.settled = true := by
  simp only [Client.Fine] at fine
  simp only [Client.settled]
  cases pc : c.pc <;> simp_all

def Client.Claims (P : Bytes × Option Bytes → Prop) (c : Client) (k : Bytes) : Prop :=
  c.gone = false ∧ ∃ w ∈ c.history, w.1 = k ∧ P w

instance [DecidablePred P] (c : Client) (k : Bytes) : Decidable (c.Claims P k) :=
  inferInstanceAs (Decidable (_ ∧ _))

/-- The write that the client is about to buffer. -/
def Client.nextBuffer (c : Client) : Option (Bytes × Option Bytes) :=
  match c.pc with
  | .buffering _ _ _ (w :: _) => some w
  | _ => none

/-- No transaction buffers a key that has been written since it began, and no autocommit
statement writes a key that some unfinished client writes. -/
def Clear (P : Bytes × Option Bytes → Prop) (cfg : Settings) (s : Db) : Act → Prop
  | .advance i => ∀ c ∈ s.clients[i]?, ∀ w ∈ c.nextBuffer, P w →
      ∀ c' ∈ s.clients, c'.settled = true → c'.Claims P w.1 → c'.Before c
  | .autocommit p => ∀ effect, planEffect (s.autoContext cfg) p = .ok effect →
      ∀ w ∈ effect.writes, P w → ∀ c' ∈ s.clients, c'.Claims P w.1 → c'.finishedAt ≠ none
  | _ => True

instance [DecidablePred P] (cfg : Settings) (s : Db) (a : Act) : Decidable (Clear P cfg s a) := by
  unfold Clear
  rcases a <;> infer_instance

/-- Of two clients that write a key, one was through before the other came. -/
def Separated (P : Bytes × Option Bytes → Prop) (s : Db) : Prop :=
  ∀ (i j : Nat) (c c' : Client) (k : Bytes), i ≠ j → s.clients[i]? = some c →
    s.clients[j]? = some c' → c.Claims P k → c'.Claims P k → c.Before c' ∨ c'.Before c

theorem Client.Claims.cases {k : Bytes} (claims : c.Claims P k) (traced : c.Traced) :
    c.settled = true ∨ ∃ t, c.handle = some t := by
  obtain ⟨alive, w, hw, -⟩ := claims
  have second := traced.2
  simp only [Client.settled, Client.handle, Client.gone] at alive ⊢
  cases pc : c.pc with
  | starting serializable readTs | drawn serializable readTs txnId =>
    simp only [pc] at second
    simp [second] at hw
  | idle t => exact .inr ⟨t, rfl⟩
  | buffering t r effect pending => exact .inr ⟨t, rfl⟩
  | applying pending => exact .inl rfl
  | committed => exact .inl rfl
  | aborted => simp [pc] at alive

/-- A key that another client writes can be taken only after that client was through. -/
theorem Separated.new_claim {rows : List (Row Bytes Bytes)} (base : Base s rows)
    (traced : ∀ (j : Nat) (c : Client), s.clients[j]? = some c → c.Traced) (locking : Locking s)
    (move : Move cfg s a i e m c)
    (started : ∀ c0, s.clients[i]? = some c0 → c.startedAt = c0.startedAt)
    (fresh : s.clients[i]? = none → c.startedAt = s.clock) (clear : Clear P cfg s a)
    {w : Bytes × Option Bytes} (counts : P w) (taken : w ∈ c.history)
    (before : ∀ c0, s.clients[i]? = some c0 → w ∉ c0.history) {j : Nat} {c' : Client}
    (other : j ≠ i) (there : s.clients[j]? = some c') (claims : c'.Claims P w.1) : c'.Before c := by
  rcases move.history with ⟨c0, old, same⟩ |
    ⟨c0, t, t', r, effect, key, value, rest, old, rfl, pc, ok, -, grown⟩ |
    ⟨absent, empty | ⟨p, effect, rfl, planned, written⟩⟩
  · exact absurd (same ▸ taken) (before c0 old)
  · have new : w = (key, value) := by
      rw [grown] at taken
      rcases mem_append.mp taken with h | h
      · exact absurd h (before c0 old)
      · exact mem_singleton.mp h
    subst new
    rcases claims.cases (traced j c' there) with settled | ⟨t1, handle⟩
    · have through := clear c0 old (key, value) (by simp [Client.nextBuffer, pc]) counts c'
        (mem_of_getElem? there) settled claims
      rw [Client.Before, started c0 old]
      exact through
    · -- an open transaction that has buffered the key holds its lock
      obtain ⟨-, w', hw', key', -⟩ := claims
      have held := locking.held j c' t1 key there handle (mem_map.mpr ⟨w', hw', key'⟩)
      obtain ⟨able, -⟩ := acquireWriteLock_ok (bufferWrite_ok ok).1
      simp only [lockFree, held, decide_eq_true_eq] at able
      have own : c0.txnId = some t1.txnId := by simp [Client.txnId, pc, able]
      exact absurd
        (locking.distinct j i c' c0 _ there old (Client.txnId_of_handle handle) own) other
  · simp [empty] at taken
  · have through := clear effect planned w (written ▸ taken) counts c' (mem_of_getElem? there)
      claims
    obtain ⟨f, finished⟩ := ne_none_iff_exists'.mp through
    refine ⟨f, finished, ?_⟩
    rw [fresh absent]
    exact base.finished j c' there f finished

/-- A client that is over without having written stays so. -/
theorem Move.alive {c0 : Client} (move : Move cfg s a i e m c) (old : s.clients[i]? = some c0)
    (alive : c.gone = false) : c0.gone = false := by
  have either : s.clients[i]? = none ∨ ∃ c1, s.clients[i]? = some c1 ∧ c1.gone = false := by
    cases move with
    | begin serializable => exact .inl (getElem?_length s)
    | autoFailed failed => exact .inl (getElem?_length s)
    | autoPlanned planned => exact .inl (getElem?_length s)
    | refused here pc failed => exact .inr ⟨_, here, alive⟩
    | draw here pc | register here pc | rolledBack here pc | execFailed here pc _
    | execPlanned here pc _ | certified here pc _ | conflict here pc _ | buffered here pc _
    | put here pc _ | delete here pc _ => exact .inr ⟨_, here, by simp [Client.gone, pc]⟩
  rcases either with absent | ⟨c1, there, alive⟩
  · simp [absent] at old
  · obtain rfl := some.inj (old.symm.trans there)
    exact alive

/-- Of two writers of a key, one is still through before the other comes. -/
theorem Separated.moved {rows new : List (Row Bytes Bytes)} (base : Base s rows)
    (traced : ∀ (j : Nat) (c : Client), s.clients[j]? = some c → c.Traced) (locking : Locking s)
    (separated : Separated P s) (move : Move cfg s a i e m c) (frame : Frame s i e c rows new)
    (clear : Clear P cfg s a) : Separated P (s.moved i e m c) := by
  have started : ∀ c0, s.clients[i]? = some c0 → c.startedAt = c0.startedAt :=
    fun c0 old => (frame.old c0 old).2.2.1
  have mover : ∀ (j : Nat) (c' : Client) (k : Bytes), j ≠ i → s.clients[j]? = some c' →
      c.Claims P k → c'.Claims P k → c.Before c' ∨ c'.Before c := by
    intro j c' k other there claims claims'
    obtain ⟨alive, w, taken, rfl, counts⟩ := claims
    by_cases before : ∃ c0, s.clients[i]? = some c0 ∧ w ∈ c0.history
    · obtain ⟨c0, old, had⟩ := before
      have apart := separated i j c0 c' w.1 (Ne.symm other) old there
        ⟨move.alive old alive, w, had, rfl, counts⟩ claims'
      rcases apart with ⟨f, finished, lt⟩ | through
      · left
        rcases (frame.old c0 old).2.2.2.1 with same | ⟨open_, -⟩
        · exact ⟨f, by rw [same]; exact finished, lt⟩
        · simp [open_] at finished
      · right
        rw [Client.Before, started c0 old]
        exact through
    · right
      apply Separated.new_claim base traced locking move started (fun h => (frame.fresh h).2.2.1)
        clear counts taken _ other there claims'
      exact fun c0 old had => before ⟨c0, old, had⟩
  intro k j ck cj key apart here here' claims claims'
  rw [moved_clients move.place] at here here'
  split at here <;> split at here'
  · simp_all
  · cases here
    exact mover j cj key ‹_› here' claims claims'
  · cases here'
    exact (mover k ck key ‹_› here claims' claims).symm
  · exact separated k j ck cj key apart here here' claims claims'

end Separation

section Runs

/-- All that is known of the clients of a run. -/
structure Kept (P : Bytes × Option Bytes → Prop) (s : Db) (rows : List (Row Bytes Bytes)) : Prop
    extends Base s rows where
  traced : ∀ (j : Nat) (c : Client), s.clients[j]? = some c → c.Traced
  locking : Locking s
  timed : Timed s
  separated : Separated P s

theorem kept_init (P : Bytes × Option Bytes → Prop) (cfg : Settings) (config : EngineConfig) :
    Kept P (Db.init cfg config) [] where
  toBase := base_init cfg config
  traced := by simp [Db.init]
  locking := by constructor <;> simp [Db.init]
  timed := by constructor <;> simp [Db.init]
  separated := by simp [Separated, Db.init]

variable {P : Bytes × Option Bytes → Prop} {rows : List (Row Bytes Bytes)} {m : TransactionManager}
  {e : Engine} {c : Client} {a : Act} {i : Nat}

theorem Kept.moved (kept : Kept P s rows) (move : Move cfg s a i e m c) (orderly : Orderly s a)
    (clear : Clear P cfg s a) :
    ∃ new, Frame s i e c rows new ∧ Kept P (s.moved i e m c) (rows ++ new) := by
  obtain ⟨new, frame⟩ := move.frame kept.toBase orderly
  refine ⟨new, frame, kept.toBase.moved move.place m frame, ?_,
    kept.locking.moved kept.traced move, kept.timed.moved kept.toBase move frame,
    kept.separated.moved kept.toBase kept.traced kept.locking move frame clear⟩
  intro j cj here
  rw [moved_clients move.place] at here
  split at here
  · cases here
    exact move.traced (kept.traced i)
  · exact kept.traced j cj here

/-- A fact about a client and what it has seen, which every step of the client keeps, is not
lost when rows are added. -/
theorem Kept.forall_moved {new : List (Row Bytes Bytes)} (kept : Kept P s rows)
    (Q : List (Row Bytes Bytes) → Client → Prop) (move : Move cfg s a i e m c)
    (frame : Frame s i e c rows new)
    (stable : ∀ c : Client, (∀ x ∈ new, c.seenTs < x.ts) → Q rows c → Q (rows ++ new) c)
    (others : ∀ (j : Nat) (c : Client), s.clients[j]? = some c → Q rows c) (mover : Q rows c) :
    ∀ (j : Nat) (c' : Client), (s.moved i e m c).clients[j]? = some c' → Q (rows ++ new) c' := by
  intro j c' here
  rw [moved_clients move.place] at here
  split at here
  · cases here
    apply stable c _ mover
    intro x hx
    exact (kept.timed.mover kept.toBase move).trans_le (frame.later x hx)
  · apply stable c' _ (others j c' here)
    intro x hx
    exact (kept.timed.seen j c' here).trans_le (frame.later x hx)

end Runs

end GalaxDb.Sql
