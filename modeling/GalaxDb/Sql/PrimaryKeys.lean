import GalaxDb.Sql.StoredKeys
import GalaxDb.Sql.Writers

/-!
# Inserts of one key

An INSERT looks its key up and writes it later. Between the two another client may write
the key, and a BULK INSERT does not look at all. Where neither happens, a key is inserted
again only after its row has been deleted.
-/

namespace GalaxDb.Sql

open Bytes Executor WriteLog Db List

variable {cfg : Settings} {s : Db}

/-- Rows go into tables with a primary key, and no row is updated. -/
def QueryPlan.Keyed (catalog : List TableEntry) : QueryPlan → Prop
  | .insert table _ _ => ∃ entry ∈ (getTable catalog table).toOption,
      entry.columns.find? CatalogColumn.primaryKey ≠ none
  | .bulkInsert table _ _ => ∃ entry ∈ (getTable catalog table).toOption,
      entry.columns.find? CatalogColumn.primaryKey ≠ none
  | .update _ _ _ => False
  | _ => True

def Act.Keyed (cfg : Settings) : Act → Prop
  | .autocommit p => p.Keyed cfg.catalog
  | .exec _ (.plan p) => p.Keyed cfg.catalog
  | _ => True

instance (catalog : List TableEntry) (p : QueryPlan) : Decidable (p.Keyed catalog) := by
  unfold QueryPlan.Keyed
  rcases p <;> infer_instance

instance (cfg : Settings) (a : Act) : Decidable (a.Keyed cfg) := by
  unfold Act.Keyed
  rcases a with _ | _ | ⟨_, _ | _⟩ | _ | _ | _ <;> infer_instance

/-- The write is one that the statement asks for. -/
def Request.Asks (w : Bytes × Option Bytes) : Request → Prop
  | .plan (.insert table _ _) => w.2 ≠ none ∧ (tablePrefix table).isPrefixOf w.1 = true
  | .plan (.bulkInsert table _ _) => w.2 ≠ none ∧ (tablePrefix table).isPrefixOf w.1 = true
  | .plan (.delete table _) => w.2 = none ∧ (tablePrefix table).isPrefixOf w.1 = true
  | _ => False

theorem planEffect_asks {ctx : ExecutorContext} {m : Bytes → Option Bytes}
    (shows : Shows ctx.reader m) {p : QueryPlan} {effect : Effect} (keyed : p.Keyed ctx.catalog)
    (ok : planEffect ctx p = .ok effect) :
    effect.failure = none ∧ ∀ w ∈ effect.writes, (Request.plan p).Asks w := by
  cases p with
  | insert table columns values =>
    obtain ⟨entry, ordered, key, -, -, built, rfl⟩ := planInsert_ok ok
    refine ⟨rfl, ?_⟩
    intro w hw
    rw [mem_singleton.mp hw]
    exact ⟨by simp, prefix_of_buildPrimaryKey built⟩
  | bulkInsert table columns rows =>
    obtain ⟨entry, pairs, -, encoded, rfl⟩ := planBulkInsert_ok ok
    refine ⟨rfl, ?_⟩
    intro w hw
    obtain ⟨pair, there, rfl⟩ := mem_map.mp hw
    obtain ⟨tokens, -, one⟩ := encoded pair there
    obtain ⟨ordered, -, built, -⟩ := bulkPair_ok one
    exact ⟨by simp, prefix_of_buildPrimaryKey built⟩
  | update table assignments filter => exact absurd keyed id
  | delete table filter =>
    rw [planDelete_ok ok]
    refine ⟨rfl, ?_⟩
    intro w hw
    obtain ⟨r, matched, rfl⟩ := mem_map.mp hw
    obtain ⟨row, there, rfl⟩ := mem_map.mp (mem_filter.mp matched).1
    exact ⟨rfl, ((shows.rows table row.1 row.2).mp there).1⟩
  | fullScan table filter columns =>
    obtain ⟨entry, -, rfl⟩ := planFullScan_ok ok
    exact ⟨rfl, by simp⟩
  | pointLookup table key =>
    obtain ⟨entry, -, rfl⟩ := planPointLookup_ok ok
    exact ⟨rfl, by simp⟩

/-- The rows of a BULK INSERT have distinct keys, and there is no row under them yet. -/
def BulkFresh (cfg : Settings) (s : Db) : Act → Prop
  | .autocommit (.bulkInsert table columns rows) => ∀ effect,
      planBulkInsert (s.autoContext cfg) table columns rows = .ok effect →
        (effect.writes.map Prod.fst).Nodup ∧
        ∀ w ∈ effect.writes, (s.autoContext cfg).reader.get w.1 = none
  | _ => True

instance (cfg : Settings) (s : Db) (a : Act) : Decidable (BulkFresh cfg s a) := by
  unfold BulkFresh
  rcases a with _ | (_ | _ | _ | _ | _ | _) | _ | _ | _ | _ <;> infer_instance

/-- A statement that writes a row has found its key free. -/
theorem planEffect_inserts {ctx : ExecutorContext} {m : Bytes → Option Bytes}
    (shows : Shows ctx.reader m) {p : QueryPlan} {effect : Effect} (keyed : p.Keyed ctx.catalog)
    (ok : planEffect ctx p = .ok effect)
    (bulk : ∀ table columns rows, p = .bulkInsert table columns rows →
      (effect.writes.map Prod.fst).Nodup ∧ ∀ w ∈ effect.writes, ctx.reader.get w.1 = none) :
    Inserts m effect.writes := by
  cases p with
  | insert table columns values =>
    obtain ⟨entry, found, declared⟩ := keyed
    have found : getTable ctx.catalog table = .ok entry := by
      cases known : getTable ctx.catalog table with
      | error e => simp [known, Except.toOption] at found
      | ok entry' => simpa [known, Except.toOption] using found
    obtain ⟨key, bytes, rfl, free⟩ := planInsert_fresh found declared ok
    rw [shows.get] at free
    exact ⟨fun _ => free, trivial⟩
  | bulkInsert table columns rows =>
    obtain ⟨distinct, free⟩ := bulk table columns rows rfl
    apply inserts_of_nodup distinct
    intro w hw
    rw [← shows.get]
    exact free w hw
  | update table assignments filter => exact absurd keyed id
  | delete table filter =>
    apply inserts_of_deletes
    exact fun w hw => ((planEffect_asks shows keyed ok).2 w hw).1
  | fullScan table filter columns =>
    obtain ⟨entry, -, rfl⟩ := planFullScan_ok ok
    trivial
  | pointLookup table key =>
    obtain ⟨entry, -, rfl⟩ := planPointLookup_ok ok
    trivial

section Clients

/-- What a statement has planned but not buffered yet. -/
def Client.pending (c : Client) : List (Bytes × Option Bytes) :=
  match c.pc with
  | .buffering _ _ _ pending => pending
  | _ => []

theorem Client.pending_applyRest (c : Client) (clock : Nat) (pending :
    List (Bytes × Option Bytes)) :
    (c.applyRest clock pending).pending = [] := by
  simp only [Client.applyRest]
  split <;> rfl

theorem Client.pending_bufferRest (c : Client) (t : TxnHandle) (r : Request) (effect : Effect)
    (pending : List (Bytes × Option Bytes)) : (c.bufferRest t r effect pending).pending =
      pending := by
  simp only [Client.bufferRest]
  split
  · rename_i empty
    rw [empty]
    rfl
  · rfl

variable {m : TransactionManager} {c : Client} {e : Engine} {a : Act} {i : Nat}

/-- What a client has written or planned shrinks, except when it executes a statement. -/
theorem Move.planned (move : Move cfg s a i e m c) : (∃ c0 dropped, s.clients[i]? = some c0 ∧
      c0.history ++ c0.pending = c.history ++ c.pending ++ dropped) ∨
    (∃ c0 t r effect, s.clients[i]? = some c0 ∧ a = .exec i r ∧ c0.pc = .idle t ∧
      requestEffect (s.txnContext cfg t) r = .ok effect ∧
      c.history ++ c.pending = c0.history ++ effect.writes) ∨
    s.clients[i]? = none ∧ (c.history ++ c.pending = [] ∨ ∃ p effect, a = .autocommit p ∧
      planEffect (s.autoContext cfg) p = .ok effect ∧ c.history ++ c.pending = effect.writes) := by
  cases move with
  | begin serializable | autoFailed failed => exact .inr (.inr ⟨getElem?_length s, .inl rfl⟩)
  | autoPlanned planned =>
    refine .inr (.inr ⟨getElem?_length s, .inr ⟨_, _, rfl, planned, ?_⟩⟩)
    rw [Client.pending_applyRest, Client.applyRest_history, append_nil]
  | execFailed here pc failed =>
    exact .inl ⟨_, [], here, by simp [Client.pending, Client.fails, pc]⟩
  | execPlanned here pc planned =>
    refine .inr (.inl ⟨_, _, _, _, here, rfl, pc, planned, ?_⟩)
    rw [Client.pending_bufferRest, Client.bufferRest_history]
  | refused here pc failed => exact .inl ⟨_, [], here, by simp⟩
  | certified here pc certified =>
    refine .inl ⟨_, [], here, ?_⟩
    rw [Client.pending_applyRest, Client.applyRest_history]
    simp [Client.pending, pc]
  | draw here pc | register here pc | rolledBack here pc =>
    exact .inl ⟨_, [], here, by simp [Client.pending, pc]⟩
  | conflict here pc failed =>
    rename_i c0 t r effect key value rest err
    exact .inl ⟨c0, (key, value) :: rest, here, by simp [Client.pending, Client.fails, pc]⟩
  | buffered here pc buffered =>
    refine .inl ⟨_, [], here, ?_⟩
    rw [Client.pending_bufferRest, Client.bufferRest_history]
    simp [Client.pending, Client.claim, pc]
  | put here pc put | delete here pc deleted =>
    refine Or.inl ⟨_, [], here, ?_⟩
    rw [Client.pending_applyRest, Client.applyRest_history]
    simp [Client.pending, Client.record, pc]

/-- What a client writes is inserted where it has seen no row. -/
def Client.Inserted (c : Client) (rows : List (Row Bytes Bytes)) : Prop :=
  Inserts (Engine.contentsAt rows c.seenTs) (c.history ++ c.pending)

theorem requestEffect_inserts {ctx : ExecutorContext} {m : Bytes → Option Bytes}
    (shows : Shows ctx.reader m) {r : Request} {effect : Effect}
    (keyed : ∀ p, r = .plan p → p.Keyed ctx.catalog) (ok : requestEffect ctx r = .ok effect) :
    Inserts m effect.writes := by
  cases r with
  | sorted table filter columns order =>
    rw [(sortedScan_ok ok).1]
    trivial
  | plan p =>
    cases p with
    | bulkInsert table columns rows => simp [requestEffect] at ok
    | _ => exact planEffect_inserts shows (keyed _ rfl) ok (by simp)

variable {rows : List (Row Bytes Bytes)}

theorem Move.inserted {P : Bytes × Option Bytes → Prop} (kept : Kept P s rows)
    (move : Move cfg s a i e m c) (keyed : a.Keyed cfg) (bulk : BulkFresh cfg s a)
    (inserted : ∀ c0, s.clients[i]? = some c0 → c0.Inserted rows) : c.Inserted rows := by
  rcases move.planned with ⟨c0, dropped, old, shorter⟩ |
    ⟨c0, t, r, effect, old, rfl, pc, ok, grown⟩ |
    ⟨absent, empty | ⟨p, effect, rfl, planned, written⟩⟩
  · have before := inserted c0 old
    rw [Client.Inserted, shorter, inserts_append] at before
    rw [Client.Inserted, move.seenTs.1 c0 old]
    exact before.1
  · have before := inserted c0 old
    rw [Client.Inserted, inserts_append] at before
    rw [Client.Inserted, move.seenTs.1 c0 old, grown, inserts_append]
    refine ⟨before.1, ?_⟩
    have handle : c0.handle = some t := by simp [Client.handle, pc]
    have readTs := kept.timed.snapshot i c0 _ old ((kept.fine i c0 old).handle handle)
    have view : Sql.buffered (Engine.contentsAt rows t.readTs) t.writes =
        c0.history.foldl write (Engine.contentsAt rows c0.seenTs) := by
      funext k
      rw [foldl_write, ← (kept.traced i c0 old).handle handle, Sql.buffered, readTs]
    have shows := shows_snapshot kept.recorded cfg.order t
    rw [view] at shows
    apply requestEffect_inserts shows _ ok
    rintro p rfl
    exact keyed
  · rw [Client.Inserted, empty]
    trivial
  · have now : Engine.contentsAt rows c.seenTs = contents (ofRows rows) := by
      rw [move.seenTs.2 absent]
      exact Engine.contentsAt_of_le fun x hx => Nat.le_sub_one_of_lt (kept.recorded.past x hx)
    rw [Client.Inserted, written, now]
    apply @planEffect_inserts (s.autoContext cfg) _ (shows_latest kept.recorded cfg.order) p effect
      keyed planned
    rintro table columns rows' rfl
    exact bulk effect planned

/-- A statement that asks for the write has returned without an error. -/
def Client.Answered (c : Client) (w : Bytes × Option Bytes) : Prop :=
  ∃ x ∈ c.responses, x.1.Asks w ∧ ∃ answer, x.2 = .ok answer

/-- All writes but those of a statement that is not over have been answered. -/
def Client.Answers (c : Client) : Prop :=
  match c.pc with
  | .buffering _ r effect pending => effect.failure = none ∧ (∀ w ∈ effect.writes, r.Asks w) ∧
      ∃ earlier done, c.history = earlier ++ done ∧ effect.writes = done ++ pending ∧
        ∀ w ∈ earlier, c.Answered w
  | _ => ∀ w ∈ c.history, c.Answered w

theorem Client.answers_applyRest (clock : Nat) (pending : List (Bytes × Option Bytes))
    (answered : ∀ w ∈ c.history, c.Answered w) : (c.applyRest clock pending).Answers := by
  simp only [Client.applyRest]
  split <;> exact answered

theorem Client.answers_bufferRest {c : Client} {t : TxnHandle} {r : Request} {effect : Effect}
    {earlier done pending : List (Bytes × Option Bytes)} (complete : effect.failure = none)
    (asks : ∀ w ∈ effect.writes, r.Asks w) (history : c.history = earlier ++ done)
    (writes : effect.writes = done ++ pending) (answered : ∀ w ∈ earlier, c.Answered w) :
    (c.bufferRest t r effect pending).Answers := by
  simp only [Client.bufferRest]
  split
  · intro w hw
    rw [show w ∈ c.history ↔ _ by rw [history, mem_append]] at hw
    rcases hw with hw | hw
    · obtain ⟨x, hx, rest⟩ := answered w hw
      exact ⟨x, mem_append_left _ hx, rest⟩
    · refine ⟨(r, effect.response), by simp, asks w (by simp [writes, hw]), ?_⟩
      exact ⟨_, by rw [Effect.response, complete]⟩
  · exact ⟨complete, asks, earlier, done, history, writes, answered⟩

/-- No DELETE meets the lock of another transaction after its first row. -/
def WholeDeletes (s : Db) : Act → Prop
  | .advance i => ∀ c ∈ s.clients[i]?, match c.pc with
    | .buffering t _ effect (w :: rest) =>
      effect.writes.length = rest.length + 1 ∨ lockFree s.manager t.txnId w.1 = true
    | _ => True
  | _ => True

instance (s : Db) (a : Act) : Decidable (WholeDeletes s a) := by
  unfold WholeDeletes
  have (pc : Pc) : Decidable (match pc with
      | .buffering t _ effect (w :: rest) =>
        effect.writes.length = rest.length + 1 ∨ lockFree s.manager t.txnId w.1 = true
      | _ => True) := by
    rcases pc with _ | _ | _ | ⟨_, _, _, _ | _⟩ | _ | _ | _ <;> infer_instance
  rcases a <;> infer_instance

theorem Move.answers (base : Base s rows) (move : Move cfg s a i e m c) (keyed : a.Keyed cfg)
    (whole : WholeDeletes s a) (answers : ∀ c0, s.clients[i]? = some c0 → c0.Answers) :
    c.Answers := by
  cases move with
  | begin serializable => simp [Client.Answers, newClient]
  | autoFailed failed => simp [Client.Answers, newClient]
  | autoPlanned planned =>
    rename_i p effect
    obtain ⟨complete, asks⟩ := @planEffect_asks (s.autoContext cfg) _
      (shows_latest base.recorded cfg.order) p effect keyed planned
    apply Client.answers_applyRest
    intro w hw
    exact ⟨(.plan p, effect.response), by simp, asks w hw, _, by rw [Effect.response, complete]⟩
  | execFailed here pc failed =>
    have old := answers _ here
    simp only [Client.Answers, pc] at old
    intro w hw
    obtain ⟨x, hx, rest⟩ := old w hw
    exact ⟨x, mem_append_left _ hx, rest⟩
  | execPlanned here pc planned =>
    rename_i c0 t r effect
    have old := answers _ here
    simp only [Client.Answers, pc] at old
    have shows := shows_snapshot base.recorded cfg.order t
    have asked : effect.failure = none ∧ ∀ w ∈ effect.writes, r.Asks w := by
      cases r with
      | sorted table filter columns order =>
        obtain ⟨silent, complete⟩ := sortedScan_ok planned
        exact ⟨complete, by simp [silent]⟩
      | plan p =>
        cases p with
        | bulkInsert table columns rows => simp [requestEffect] at planned
        | _ => exact @planEffect_asks (s.txnContext cfg t) _ shows _ effect keyed planned
    exact Client.answers_bufferRest asked.1 asked.2 (append_nil _).symm rfl old
  | refused here pc failed => exact answers _ here
  | draw here pc | register here pc | rolledBack here pc =>
    have old := answers _ here
    simp only [Client.Answers, pc] at old
    exact old
  | conflict here pc failed =>
    rename_i c0 t r effect key value rest err
    have old := answers _ here
    simp only [Client.Answers, pc] at old
    obtain ⟨-, -, earlier, done, history, writes, answered⟩ := old
    have first := whole c0 here
    simp only [pc] at first
    have none_ : done = [] := by
      rcases first with first | able
      · rw [writes] at first
        simpa using first
      · have lock : s.manager.acquireWriteLock key t.txnId = .error err := by
          simp only [TxnHandle.bufferWrite] at failed
          cases lock : s.manager.acquireWriteLock key t.txnId with
          | error err' => simpa [lock, Except.map] using failed
          | ok m' => simp [lock, Except.map] at failed
        rw [(acquireWriteLock_error lock).2] at able
        cases able
    subst none_
    rw [append_nil] at history
    intro w hw
    obtain ⟨x, hx, rest⟩ := answered w (history ▸ hw)
    exact ⟨x, mem_append_left _ hx, rest⟩
  | buffered here pc buffered =>
    rename_i c0 t t' r effect key value rest
    have old := answers _ here
    simp only [Client.Answers, pc] at old
    obtain ⟨complete, asks, earlier, done, history, writes, answered⟩ := old
    apply @Client.answers_bufferRest _ _ _ _ earlier (done ++ [(key, value)]) _ complete asks
    · simp [Client.claim, history]
    · simp [writes]
    · exact answered
  | certified here pc certified | put here pc put | delete here pc deleted =>
    have old := answers _ here
    simp only [Client.Answers, pc] at old
    exact Client.answers_applyRest _ _ old

end Clients

/-- The writes that put a row under a key. -/
def Puts (w : Bytes × Option Bytes) : Prop := w.2 ≠ none

instance : DecidablePred Puts := fun w => inferInstanceAs (Decidable (w.2 ≠ none))

theorem Client.Answers.settled {c : Client} (answers : c.Answers) (settled : c.settled = true) :
    ∀ w ∈ c.history, c.Answered w := by
  simp only [Client.settled] at settled
  simp only [Client.Answers] at answers
  cases pc : c.pc <;> simp_all

/-- The first client was through before the second came, and in between the row was
deleted: by the first after its insert, by the second before its own, or by a third one. -/
def DeletedBetween (s : Db) (k : Bytes) (first : Client) (later : List (Bytes × Option Bytes))
    (earlier : List (Bytes × Option Bytes)) (second : Client) : Prop :=
  first.Before second ∧ ((k, none) ∈ later ∨ (k, none) ∈ earlier ∨
    ∃ c ∈ s.clients, c.settled = true ∧ c.Answered (k, none) ∧
      ∃ x ∈ first.wrote, ∃ y ∈ c.wrote, x.key = k ∧ x.val ≠ none ∧ y.key = k ∧ y.val = none ∧
        x.ts < y.ts ∧ y.ts ≤ second.seenTs)

theorem deletedBetween_of_before {rows : List (Row Bytes Bytes)} (kept : Kept Puts s rows)
    (inserted : ∀ (j : Nat) (c : Client), s.clients[j]? = some c → c.Inserted rows ∧ c.Answers)
    {i j : Nat} {c c' : Client} {k v v' : Bytes}
    {log later log' later' : List (Bytes × Option Bytes)} (here : s.clients[i]? = some c)
    (here' : s.clients[j]? = some c') (history : c.history = log ++ (k, some v) :: later)
    (history' : c'.history = log' ++ (k, some v') :: later') (finished : c.finishedAt ≠ none)
    (before : c.Before c') : DeletedBetween s k c later log' c' := by
  refine ⟨before, ?_⟩
  by_cases own : (k, none) ∈ later
  · exact .inl own
  have inserts := (inserted j c' here').1
  rw [Client.Inserted, history', append_assoc, cons_append] at inserts
  rcases inserts.before with deleted | ⟨-, free⟩
  · exact .inr (.inl deleted)
  obtain ⟨b, last⟩ := @lastWrite_of_no_delete _ _ _ log later k v own
  have traced := (kept.traced i c here).2
  rw [(kept.fine i c here).committed finished] at traced
  obtain ⟨x, wrote, rfl, value⟩ := traced k b (history ▸ last)
  have visible := kept.timed.before j i c' c here' here before x wrote
  obtain ⟨y, there, key, deleted, later, past⟩ := Engine.deleted_of_contentsAt
    kept.recorded.ascending ((kept.wrote x).mpr ⟨i, c, here, wrote⟩) visible (by simp [value]) free
  obtain ⟨l, d, by_, own'⟩ := (kept.wrote y).mp there
  have settled := (kept.fine l d by_).settled (ne_nil_of_mem own')
  have asked : (x.key, none) ∈ d.history := by
    rw [← key, ← deleted]
    exact (kept.traced l d by_).1 y own'
  exact .inr (.inr ⟨d, mem_of_getElem? by_, settled,
    (inserted l d by_).2.settled settled _ asked, x, wrote, y, own', rfl, by simp [value], key,
    deleted, later, past⟩)

/-- In every state of a run in which no client takes a key that has been written since it
came, and bulk inserts bring new keys: every write of a client that is through belongs to
a statement that succeeded, and between two inserts of a key there is a delete. -/
theorem delete_between_inserts (cfg : Settings) (config : EngineConfig) (acts : List Act) {s : Db}
    (keyed : ∀ a ∈ acts, a.Keyed cfg)
    (orderly : Run.Along (step cfg) Orderly (init cfg config) acts)
    (clear : Run.Along (step cfg) (Clear Puts cfg) (init cfg config) acts)
    (bulk : Run.Along (step cfg) (BulkFresh cfg) (init cfg config) acts)
    (whole : Run.Along (step cfg) WholeDeletes (init cfg config) acts)
    (run : Run.run (step cfg) (init cfg config) acts = some s) :
    (∀ (i : Nat) (c : Client), s.clients[i]? = some c → c.finishedAt ≠ none →
      (∀ w ∈ c.history, c.Answered w) ∧
      ∀ k v v' log between later,
        c.history = log ++ (k, some v) :: between ++ (k, some v') :: later → (k, none) ∈ between) ∧
    ∀ (i j : Nat) (c c' : Client) k v v' log later log' later', i ≠ j →
      s.clients[i]? = some c → s.clients[j]? = some c' →
      c.finishedAt ≠ none → c'.finishedAt ≠ none →
      c.history = log ++ (k, some v) :: later → c'.history = log' ++ (k, some v') :: later' →
      DeletedBetween s k c later log' c' ∨ DeletedBetween s k c' later' log c := by
  have preserved : ∀ (s : Db) (a : Act) (s' : Db), (∃ rows, Kept Puts s rows ∧
      ∀ (j : Nat) (c : Client), s.clients[j]? = some c → c.Inserted rows ∧ c.Answers) →
      (((Orderly s a ∧ Clear Puts cfg s a) ∧ BulkFresh cfg s a) ∧ WholeDeletes s a) ∧
        a.Keyed cfg → s.step cfg a = some s' →
      ∃ rows, Kept Puts s' rows ∧
        ∀ (j : Nat) (c : Client), s'.clients[j]? = some c → c.Inserted rows ∧ c.Answers := by
    rintro s a s' ⟨rows, kept, known⟩ ⟨⟨⟨⟨orderly, clear⟩, bulk⟩, whole⟩, keyed⟩ step
    obtain ⟨i, e, m, c, move, rfl⟩ := step_cases step
    obtain ⟨new, frame, kept'⟩ := kept.moved move orderly clear
    refine ⟨rows ++ new, kept', ?_⟩
    apply kept.forall_moved (fun rows c => c.Inserted rows ∧ c.Answers) move frame _ known
    · exact ⟨move.inserted kept keyed bulk fun c0 old => (known i c0 old).1,
        move.answers kept.toBase keyed whole fun c0 old => (known i c0 old).2⟩
    · rintro c later ⟨inserted, answers⟩
      refine ⟨?_, answers⟩
      rw [Client.Inserted, Engine.contentsAt_append later]
      exact inserted
  obtain ⟨rows, kept, known⟩ := Run.invariant_of_run preserved
    ⟨[], kept_init Puts cfg config, by simp [init]⟩
    ((((orderly.and clear).and bulk).and whole).and (Run.along_of_forall _ keyed)) run
  refine ⟨?_, ?_⟩
  · intro i c here finished
    have committed := (kept.fine i c here).committed finished
    refine ⟨(known i c here).2.settled (by simp [Client.settled, committed]), ?_⟩
    intro k v v' log between later history
    have inserts := (known i c here).1
    rw [Client.Inserted, history, Client.pending, committed, append_nil] at inserts
    exact inserts.between
  · intro i j c c' k v v' log later log' later' apart here here' finished finished' history history'
    have claims : c.Claims Puts k :=
      ⟨by simp [Client.gone, (kept.fine i c here).committed finished], (k, some v),
        by simp [history], rfl, by simp [Puts]⟩
    have claims' : c'.Claims Puts k :=
      ⟨by simp [Client.gone, (kept.fine j c' here').committed finished'], (k, some v'),
        by simp [history'], rfl, by simp [Puts]⟩
    rcases kept.separated i j c c' k apart here here' claims claims' with before | before
    · exact .inl (deletedBetween_of_before kept known here here' history history' finished before)
    · exact .inr (deletedBetween_of_before kept known here' here history' history finished' before)

/-- A row is inserted, deleted by a transaction and inserted again. -/
def insertDeleteInsert : List Act :=
  [.autocommit (.insert (ascii "t") [] [.integer 1, .integer 5]), .advance 0,
    .begin false, .advance 1, .advance 1, .exec 1 (.plan (.delete (ascii "t") none)), .advance 1,
    .commit 1, .advance 1,
    .autocommit (.insert (ascii "t") [] [.integer 1, .integer 6]), .advance 2]

theorem delete_between_two_inserts :
    ∃ s ∈ Run.run (step .numbers) (init .numbers .default) insertDeleteInsert,
      ∃ c ∈ s.clients[0]?, ∃ c' ∈ s.clients[2]?,
        c.history = [(ascii "t:1", some (ascii "id=1|c=5"))] ∧
        c'.history = [(ascii "t:1", some (ascii "id=1|c=6"))] ∧
        (DeletedBetween s (ascii "t:1") c [] [] c' ∨ DeletedBetween s (ascii "t:1") c' [] [] c) :=
          by
  have last : ∃ s ∈ Run.run (step .numbers) (init .numbers .default) insertDeleteInsert,
      (∃ c ∈ s.clients[0]?, c.finishedAt ≠ none ∧
        c.history = [(ascii "t:1", some (ascii "id=1|c=5"))]) ∧
      ∃ c' ∈ s.clients[2]?, c'.finishedAt ≠ none ∧
        c'.history = [(ascii "t:1", some (ascii "id=1|c=6"))] := by decide +kernel
  obtain ⟨s, run, ⟨c, here, finished, history⟩, c', here', finished', history'⟩ := last
  exact ⟨s, run, c, here, c', here', history, history',
    (delete_between_inserts .numbers .default insertDeleteInsert (by decide +kernel)
      (by decide +kernel) (by decide +kernel) (by decide +kernel) (by decide +kernel) run).2 0 2 c
        c' _ _ _ [] [] [] []
      (by decide) here here' finished finished' history history'⟩

/-- Two INSERTs of one key that overlap both succeed, as does a BULK INSERT of a key that
is there; nothing is deleted, and the first row is lost. -/
theorem key_inserted_twice : (∃ s ∈ Run.run (step .numbers) (init .numbers .default)
        [.autocommit (.insert (ascii "t") [] [.integer 1, .integer 5]),
          .autocommit (.insert (ascii "t") [] [.integer 1, .integer 6]), .advance 0, .advance 1],
      (∀ c ∈ s.clients, c.finishedAt ≠ none ∧ ∀ x ∈ c.responses, x.2.isOk = true) ∧
      s.clients.map Client.history = [[(ascii "t:1", some (ascii "id=1|c=5"))],
        [(ascii "t:1", some (ascii "id=1|c=6"))]] ∧
      s.engine.get (ascii "t:1") = some (ascii "id=1|c=6")) ∧
    ∃ s ∈ Run.run (step .numbers) (init .numbers .default)
        [.autocommit (.insert (ascii "t") [] [.integer 1, .integer 5]), .advance 0,
          .autocommit (.bulkInsert (ascii "t") [] [[ascii "1", ascii "6"]]), .advance 1],
      (∀ c ∈ s.clients, c.finishedAt ≠ none ∧ ∀ x ∈ c.responses, x.2.isOk = true) ∧
      s.clients.map Client.history = [[(ascii "t:1", some (ascii "id=1|c=5"))],
        [(ascii "t:1", some (ascii "id=1|c=6"))]] ∧
      s.engine.get (ascii "t:1") = some (ascii "id=1|c=6") := by
  constructor
  · decide +kernel
  · decide +kernel

end GalaxDb.Sql
